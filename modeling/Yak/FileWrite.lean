import Yak.FileRead

/-!
# Writing a file

A transcription of `file_write`.  Behind its loop, the size of the file grows by the number of
bytes written, wherever they were written.
-/

namespace Yak.Ext2

open ByteBitmap WordMemory BoundedLoop

/-- The bytes in the buffer of the user, their number, which is a `size_t`, and the blocks which
`bread` can read. -/
structure WriteCall where
  data : ℕ → BitVec 8
  readable : ℕ → Bool
  count : ℕ
  hcount : count < 2 ^ 32

/-- A call of `file_write` at a position, which is an `off_t`. -/
structure WriteAt extends WriteCall where
  pos : ℤ
  hpos : pos < 2 ^ 31

/-- The file system, the inode and the local variables of `file_write`. -/
structure Writing where
  fs : Fs
  ip : InodeM
  c : ℤ
  pos : ℤ
  /-- How far `p` is behind the start of the buffer of the user.  Each byte in front of it has
  been stored in a block. -/
  p : ℕ
  /-- `bp` has been assigned. -/
  assigned : Bool

/-- The result of `file_write`, the position, the number of bytes stored, the file system and the
inode. -/
structure WriteResult where
  ret : ℤ
  pos : ℤ
  stored : ℕ
  fs : Fs
  ip : InodeM

namespace Fs

/-- Store bytes in a block. -/
def storeBytes (fs : Fs) (block off n : ℕ) (data : ℕ → BitVec 8) : Fs :=
  fs.setBlock block fun i =>
    if off ≤ i ∧ i < off + n then data (i - off) else fs.blocks block i

end Fs

/-- A turn of the loop of `file_write`.  The loop ends with `true` if a block cannot be read. -/
def writeTurn (call : WriteCall) (s : Writing) : Except Halt ((Writing × Bool) ⊕ Writing) :=
  if s.c = 0 then .ok (.inl (s, false))
  else do
    let (block, fs, ip) ← s.fs.blockAtPos s.ip s.pos true
    let s := { s with fs := fs, ip := ip }
    if block = 0 then .ok (.inl (s, false))
    else if call.readable block = false then .ok (.inl ({ s with assigned := true }, true))
    else
      let off := s.pos.tmod fs.blockSize
      let nr := fs.chunk s.pos s.c
      if off < 0 ∨ nr < 0 then .error .outOfBounds
      else
        .ok (.inr {
          fs := fs.storeBytes block off.toNat nr.toNat fun i => call.data (s.p + i)
          ip := ip
          c := s.c - nr
          pos := int32 (s.pos + nr)
          p := s.p + nr.toNat
          assigned := true })

/-- `file_write`.  Behind the loop `bp` is compared with `NULL`, and without an assignment it
points anywhere. -/
def Fs.fileWrite (fs : Fs) (ip : InodeM) (call : WriteCall) (pos : ℤ) :
    Except Halt WriteResult :=
  let c := int32 call.count
  if c < 0 then .ok ⟨-eoverflow, pos, 0, fs, ip⟩
  else if pos < 0 then .ok ⟨-efbig, pos, 0, fs, ip⟩
  else do
    let (s, failed) ← run .endless (writeTurn call) (c.toNat + 2) ⟨fs, ip, c, pos, 0, false⟩
    if s.assigned = false then .error .outOfBounds
    else
      .ok {
        ret := if failed then -eio else int32 (call.count - s.c)
        pos := s.pos
        stored := s.p
        fs := s.fs
        ip := { s.ip with
          iSize := ((s.ip.iSize + (call.count - s.c)) % 2 ^ 32).toNat
          modified := true } }

/-! ## Sequences of calls -/

/-- If the call returns a number of bytes, then these were stored, and the size
is the larger one of the size before and the position reached. -/
def SizeFollows (ip : InodeM) (call : WriteAt) (r : WriteResult) : Prop :=
  0 ≤ r.ret → (r.ip.iSize : ℤ) = max (ip.iSize : ℤ) (call.pos + r.ret) ∧ r.ret = r.stored

/-- A property of every call of a sequence which comes back. -/
def EachWrite (P : InodeM → WriteAt → WriteResult → Prop) :
    Fs → InodeM → List WriteAt → Prop
  | _, _, [] => True
  | fs, ip, call :: calls =>
      ∀ r, fs.fileWrite ip call.toWriteCall call.pos = .ok r →
        P ip call r ∧ EachWrite P r.fs r.ip calls

/-- The call starts at the end of the file, unless it returns an error. -/
def Appends (ip : InodeM) (call : WriteAt) (r : WriteResult) : Prop :=
  0 ≤ r.ret → call.pos = ip.iSize

/-! ## Blocks are created without a change of sizes -/

section Sizes

namespace Fs

variable {fs fs' : Fs} {ip ip' : InodeM} {create : Bool} {b lblk off slot : ℕ} {ks : List ℕ}
  {pos : ℤ}

/-- The size of a block, and the size and the mode of the file are as before. -/
structure SameSizes (fs : Fs) (ip : InodeM) (r : ℕ × Fs × InodeM) : Prop where
  blocksize : r.2.1.sb.blocksize = fs.sb.blocksize
  iSize : r.2.2.iSize = ip.iSize
  iMode : r.2.2.iMode = ip.iMode

theorem SameSizes.refl : SameSizes fs ip (b, fs, ip) := ⟨rfl, rfl, rfl⟩

theorem SameSizes.trans {r : ℕ × Fs × InodeM} (h : SameSizes fs' ip' r)
    (hblocksize : fs'.sb.blocksize = fs.sb.blocksize) (hsize : ip'.iSize = ip.iSize)
    (hmode : ip'.iMode = ip.iMode) : SameSizes fs ip r where
  blocksize := h.blocksize.trans hblocksize
  iSize := h.iSize.trans hsize
  iMode := h.iMode.trans hmode

theorem ballocFor_sameSizes : Yields (SameSizes fs ip) (fs.ballocFor ip) := by
  intro r hr
  refine ⟨ballocFor_blocksize hr, ballocFor_iSize hr, ?_⟩
  obtain ⟨⟨b, fs₁, inode⟩, -, hrest⟩ := bind_eq_ok.mp hr
  rw [← Except.ok.inj hrest]

theorem bmapLevels_sameSizes : Yields (SameSizes fs ip) (fs.bmapLevels ip create b ks) := by
  induction ks generalizing fs ip b with
  | nil => exact Yields.ok SameSizes.refl
  | cons k ks ih =>
      rw [bmapLevels]
      split
      next => exact Yields.ok SameSizes.refl
      next =>
        split
        next => exact Yields.error _
        next =>
          split
          next =>
            refine Yields.bind ballocFor_sameSizes ?_
            rintro ⟨new, fs₁, ip₁⟩ hr
            exact ih.imp fun r' hr' => hr'.trans hr.blocksize hr.iSize hr.iMode
          next => exact ih

theorem bmapFrom_sameSizes : Yields (SameSizes fs ip) (fs.bmapFrom ip create slot ks) := by
  unfold bmapFrom
  split
  next =>
    refine Yields.bind ballocFor_sameSizes ?_
    rintro ⟨new, fs₁, ip₁⟩ hr
    exact bmapLevels_sameSizes.imp fun r' hr' => hr'.trans hr.blocksize hr.iSize hr.iMode
  next => exact bmapLevels_sameSizes

/-- What `bmap_create_indirect` does with the index block. -/
theorem indirectEntry_sameSizes {k : ℕ} :
    Yields (SameSizes fs ip)
      (if b = 0 then .ok (0, fs, ip)
      else if create then
        if charAddr (fs.blocks b k) = 0 then do
          let (new, fs, ip) ← fs.ballocFor ip
          let c := BitVec.ofNat 8 new
          .ok (charAddr c, fs.setBlock b (Function.update (fs.blocks b) k c), ip)
        else .ok (charAddr (fs.blocks b k), fs, ip)
      else .ok (0, fs, ip)) := by
  split
  next => exact Yields.ok SameSizes.refl
  next =>
    split
    next =>
      split
      next =>
        refine Yields.bind ballocFor_sameSizes ?_
        rintro ⟨new, fs₁, ip₁⟩ hr
        exact Yields.ok ⟨hr.blocksize, hr.iSize, hr.iMode⟩
      next => exact Yields.ok SameSizes.refl
    next => exact Yields.ok SameSizes.refl

theorem bmapCreateIndirect_sameSizes :
    Yields (SameSizes fs ip) (fs.bmapCreateIndirect ip lblk create) := by
  unfold bmapCreateIndirect
  dsimp only
  split
  next =>
    refine Yields.bind ballocFor_sameSizes ?_
    rintro ⟨new, fs₁, ip₁⟩ hr
    exact indirectEntry_sameSizes.imp fun r' hr' => hr'.trans hr.blocksize hr.iSize hr.iMode
  next => exact indirectEntry_sameSizes

theorem bmapCreate_sameSizes : Yields (SameSizes fs ip) (fs.bmapCreate ip off create) := by
  unfold bmapCreate
  dsimp only
  split
  next => exact bmapFrom_sameSizes
  next =>
    split
    next => exact bmapCreateIndirect_sameSizes
    next =>
      split
      next => exact bmapFrom_sameSizes
      next =>
        unfold bmapCreateTindirect
        dsimp only
        split
        next =>
          refine Yields.bind bmapFrom_sameSizes ?_
          rintro ⟨new, fs₁, ip₁⟩ hr
          dsimp only
          split
          next => exact Yields.ok ⟨hr.blocksize, hr.iSize, hr.iMode⟩
          next => exact Yields.error _
        next => exact bmapFrom_sameSizes

theorem blockAtPos_sameSizes : Yields (SameSizes fs ip) (fs.blockAtPos ip pos create) := by
  unfold blockAtPos
  split
  next => exact Yields.error _
  next => exact bmapCreate_sameSizes

end Fs

end Sizes

/-! ## A turn of the loop -/

variable {fs : Fs} {ip : InodeM} {call : WriteCall} {s s' : Writing} {r : WriteResult}
  {size : ℕ} {pos : ℤ} {failed : Bool}

/-- A block which is not empty has a byte at every offset in it. -/
theorem Fs.chunk_ne_zero (pos : ℤ) {c : ℤ} (hne : fs.blockSize ≠ 0) (hc : c ≠ 0) :
    fs.chunk pos c ≠ 0 := by
  have hle := Int.le_bmod (x := fs.sb.blocksize) (m := 2 ^ 32) (by decide)
  have hlt := Int.bmod_lt (x := fs.sb.blocksize) (m := 2 ^ 32) (by decide)
  have hoff : (pos.tmod fs.blockSize).natAbs < fs.blockSize.natAbs := by
    rw [Int.natAbs_tmod]
    exact Nat.mod_lt _ (Int.natAbs_pos.mpr hne)
  have hrest : int32 (fs.blockSize - pos.tmod fs.blockSize) ≠ 0 := by
    intro hzero
    obtain ⟨k, hk⟩ := Int.dvd_of_bmod_eq_zero hzero
    change _ ≤ fs.blockSize at hle
    change fs.blockSize < _ at hlt
    omega
  unfold Fs.chunk
  dsimp only
  split
  next => exact hrest
  next => exact hc

/-- What the turns keep: the size, and the sum of the bytes stored and those left.  Where a block
has been read a byte has been stored. -/
structure Writing.Counts (size count : ℕ) (s : Writing) : Prop where
  size : s.ip.iSize = size
  sum : s.c + s.p = count
  left : 0 ≤ s.c
  started : s.assigned = true → 0 < s.p

theorem writeTurn_counts {y : (Writing × Bool) ⊕ Writing} {count : ℕ} (h : s.Counts size count)
    (hturn : writeTurn call s = .ok y) :
    y.elim (fun r => r.2 = false → r.1.Counts size count) (Writing.Counts size count) := by
  unfold writeTurn at hturn
  split at hturn
  next =>
    rw [← Except.ok.inj hturn]
    exact fun _ => h
  next hc =>
    obtain ⟨⟨block, fs, ip⟩, hblock, hrest⟩ := bind_eq_ok.mp hturn
    obtain ⟨hblocksize, hsize, -⟩ := Fs.blockAtPos_sameSizes _ hblock
    have hkept : ip.iSize = size := hsize.trans h.size
    dsimp only at hrest
    split at hrest
    next =>
      rw [← Except.ok.inj hrest]
      exact fun _ => ⟨hkept, h.sum, h.left, h.started⟩
    next =>
      split at hrest
      next =>
        rw [← Except.ok.inj hrest]
        exact fun hfailed => by cases hfailed
      next =>
        split at hrest
        next => cases hrest
        next hrange =>
          have hne : fs.blockSize ≠ 0 := by
            have hfound : s.fs.blockSize ≠ 0 := by
              intro hzero
              unfold Fs.blockAtPos at hblock
              rw [if_pos hzero] at hblock
              cases hblock
            unfold Fs.blockSize at hfound ⊢
            rw [hblocksize]
            exact hfound
          have hpos := Fs.chunk_ne_zero s.pos hne hc
          have hle := Fs.chunk_le fs s.pos s.c
          have hsum := h.sum
          rw [← Except.ok.inj hrest]
          exact ⟨hkept, by dsimp only; omega, by dsimp only; omega, fun _ => by dsimp only; omega⟩

/-! ## A call -/

/-- What a call has done which returns a number of bytes. -/
structure Wrote (ip : InodeM) (call : WriteCall) (pos : ℤ) (n : ℕ) (r : WriteResult) : Prop where
  start : 0 ≤ pos
  pos : 0 < n
  le : n ≤ call.count
  ret : r.ret = n
  stored : r.stored = n
  size : r.ip.iSize = (ip.iSize + n) % 2 ^ 32

theorem Fs.fileWrite_wrote (h : fs.fileWrite ip call pos = .ok r) (hret : 0 ≤ r.ret) :
    ∃ n, n < 2 ^ 31 ∧ Wrote ip call pos n r := by
  unfold Fs.fileWrite at h
  dsimp only at h
  split at h
  next =>
    rw [← Except.ok.inj h] at hret
    cases hret
  next hc =>
    split at h
    next =>
      rw [← Except.ok.inj h] at hret
      cases hret
    next hpos =>
      obtain ⟨⟨s', failed⟩, hrun, hrest⟩ := bind_eq_ok.mp h
      have hcount : call.count < 2 ^ 31 := by
        by_contra hlarge
        rw [int32_high (Nat.not_lt.mp hlarge) call.hcount] at hc
        have hlt := call.hcount
        omega
      rw [int32_natCast hcount] at hrun
      have hkeep := run_invariant (Writing.Counts ip.iSize call.count)
        (fun r : Writing × Bool => r.2 = false → r.1.Counts ip.iSize call.count)
        (fun s y hs => writeTurn_counts hs) ⟨rfl, by simp, by simp, fun h => by cases h⟩ hrun
      dsimp only at hrest
      split at hrest
      next => cases hrest
      next hassigned =>
        cases failed with
        | true =>
            rw [← Except.ok.inj hrest] at hret
            cases hret
        | false =>
            obtain ⟨hsize, hsum, hleft, hstarted⟩ := hkeep rfl
            have hp : 0 < s'.p := hstarted (Bool.eq_true_of_not_eq_false hassigned)
            dsimp only at hsize hsum hleft
            have hdone : (call.count : ℤ) - s'.c = s'.p := by omega
            have hle : s'.p ≤ call.count := by omega
            have hp31 : s'.p < 2 ^ 31 := by omega
            have hgrown : (((ip.iSize : ℤ) + s'.p) % 2 ^ 32).toNat =
                (ip.iSize + s'.p) % 2 ^ 32 := by omega
            rw [hdone, hsize, hgrown, if_neg Bool.false_ne_true, int32_natCast hp31] at hrest
            obtain rfl := Except.ok.inj hrest
            refine ⟨s'.p, hp31, ?_⟩
            exact
              { start := Int.not_lt.mp hpos
                pos := hp
                le := hle
                ret := rfl
                stored := rfl
                size := rfl }

theorem Fs.fileWrite_size_lt (h : fs.fileWrite ip call pos = .ok r) (hsize : ip.iSize < 2 ^ 32) :
    r.ip.iSize < 2 ^ 32 := by
  unfold Fs.fileWrite at h
  dsimp only at h
  split at h
  next =>
    rw [← Except.ok.inj h]
    exact hsize
  next =>
    split at h
    next =>
      rw [← Except.ok.inj h]
      exact hsize
    next =>
      obtain ⟨⟨s', failed⟩, -, hrest⟩ := bind_eq_ok.mp h
      dsimp only at hrest
      split at hrest
      next => cases hrest
      next =>
        rw [← Except.ok.inj hrest]
        dsimp only
        omega

/-- The size follows a call exactly if the call starts at the end of the file. -/
theorem Fs.fileWrite_sizeFollows_iff {call : WriteAt}
    (h : fs.fileWrite ip call.toWriteCall call.pos = .ok r) (hsize : ip.iSize < 2 ^ 32) :
    SizeFollows ip call r ↔ Appends ip call r := by
  apply forall_congr'
  intro hret
  obtain ⟨n, hn, hwrote⟩ := Fs.fileWrite_wrote h hret
  have hpos := call.hpos
  have hstart := hwrote.start
  have hone := hwrote.pos
  rw [hwrote.ret, hwrote.stored, hwrote.size]
  constructor
  · rintro ⟨hmax, -⟩
    omega
  · intro heq
    exact ⟨by omega, rfl⟩

/-! ## A sequence of calls -/

/-- The size of the file is the high-water mark of the calls exactly if every call which returns a
number of bytes starts at the end of the file. -/
theorem Fs.eachWrite_sizeFollows_iff (calls : List WriteAt) (hsize : ip.iSize < 2 ^ 32) :
    EachWrite SizeFollows fs ip calls ↔ EachWrite Appends fs ip calls := by
  induction calls generalizing fs ip with
  | nil => exact Iff.rfl
  | cons call calls ih =>
      apply forall_congr'
      intro r
      apply forall_congr'
      intro hr
      exact and_congr (Fs.fileWrite_sizeFollows_iff hr hsize)
        (ih (Fs.fileWrite_size_lt hr hsize))

/-- A call which puts the bytes of a list into a file on a drive which works. -/
def writeOf (bytes : List (BitVec 8)) (pos : ℕ) (hlen : bytes.length < 2 ^ 32)
    (hpos : pos < 2 ^ 31) : WriteAt where
  data i := bytes.getD i 0#8
  readable _ := true
  count := bytes.length
  pos := pos
  hcount := hlen
  hpos := by omega

/-- Two bytes behind the ten of a file. -/
theorem eachWrite_sizeFollows_append :
    Fs.smallFile.iSize < 2 ^ 32 ∧ EachWrite SizeFollows Fs.fileFs Fs.smallFile
      [writeOf [1#8, 2#8] 10 (by decide) (by decide)] :=
  ⟨by decide, (Fs.eachWrite_sizeFollows_iff _ (by decide)).mpr
    fun _ _ => ⟨fun _ => rfl, trivial⟩⟩

/-- Two bytes over the first ones of a file of ten bytes make it one of twelve. -/
theorem not_sizeFollows_overwrite :
    ¬∀ (fs : Fs) (ip : InodeM) (calls : List WriteAt), ip.iSize < 2 ^ 32 →
      EachWrite SizeFollows fs ip calls := by
  intro hall
  have hrun : (Fs.fileFs.fileWrite Fs.smallFile
      (writeOf [1#8, 2#8] 0 (by decide) (by decide)).toWriteCall (0 : ℕ)).map
        (fun r => (r.ret, r.ip.iSize)) = .ok (2, 12) := by decide +kernel
  cases hr : Fs.fileFs.fileWrite Fs.smallFile
      (writeOf [1#8, 2#8] 0 (by decide) (by decide)).toWriteCall (0 : ℕ) with
  | error e =>
      rw [hr] at hrun
      cases hrun
  | ok r =>
      rw [hr] at hrun
      obtain ⟨hret, hsize⟩ := Prod.mk.inj (Except.ok.inj hrun)
      have hfollows := (hall _ _ [_] (by decide) r hr).1
      have hmax := (hfollows (by rw [hret]; decide)).1
      rw [hret, hsize] at hmax
      exact absurd hmax (by decide)

end Yak.Ext2
