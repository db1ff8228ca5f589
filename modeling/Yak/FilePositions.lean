import Yak.FileWrite

/-!
# Positions of open files

A transcription of `ext2_lseek`, `ext2_read` and `ext2_write` below the calls of the kernel, for
one open file which is a regular file or a directory.  The loops of `file_read` and `file_write`
move `f_pos` itself.
-/

namespace Yak.Ext2

open ByteBitmap BoundedLoop Relation

def ebadf : ℤ := 8
def espipe : ℤ := 73

def seekSet : ℤ := 0
def seekCur : ℤ := 1
def seekEnd : ℤ := 2

def oAppend : ℕ := 0o2000

/-- `ext2_lseek`: the result and the new position. -/
def ext2Lseek (ip : InodeM) (ptr pos whence : ℤ) : ℤ × ℤ :=
  let fmt := ip.iMode &&& sIfmt
  if fmt = sIfchr then (0, ptr)
  else if fmt = sIfifo ∨ fmt = sIfsock then (-espipe, ptr)
  else
    let target :=
      if whence = seekSet then some pos
      else if whence = seekCur then some (int32 (ptr + pos))
      else if whence = seekEnd then some (int32 (ip.iSize + pos))
      else none
    match target with
    | none => (-einval, ptr)
    | some new => if new < 0 then (-eoverflow, ptr) else (new, new)

/-- A `struct file` with its inode and the file system. -/
structure OpenFile where
  fs : Fs
  ip : InodeM
  fPos : ℤ
  fFlags : ℕ

/-- The file is a regular file or a directory, its size is a word, and the size of a block is a
positive `int`. -/
structure Ordinary (fs : Fs) (ip : InodeM) : Prop where
  log : fs.sb.sLogBlockSize < 21
  kind : isReg ip.iMode ∨ isDir ip.iMode
  size : ip.iSize < 2 ^ 32

/-- A call with the descriptor, or what others do to the file in between.  A pointer of the user is
good or not. -/
inductive FileCall where
  | lseek (offset whence : ℤ) (hoffset : -2 ^ 31 ≤ offset ∧ offset < 2 ^ 31)
  | read (userPtr : Bool) (readable : ℕ → Bool) (count : ℕ) (hcount : count < 2 ^ 32)
  | write (userPtr : Bool) (call : WriteCall)
  | others (fs : Fs) (ip : InodeM) (h : Ordinary fs ip)

namespace OpenFile

/-- `kernel_lseek` -/
def kernelLseek (f : OpenFile) (offset whence : ℤ) : ℤ × OpenFile :=
  let (ret, pos) := ext2Lseek f.ip f.fPos offset whence
  (ret, { f with fPos := pos })

/-- `kernel_read` with `ext2_read` -/
def kernelRead (f : OpenFile) (userPtr : Bool) (readable : ℕ → Bool) (count : ℕ) :
    Except Halt (ℤ × OpenFile) :=
  if userPtr = false then .ok (-efault, f)
  else if f.fFlags &&& oAccmode = oWronly then .ok (-ebadf, f)
  else if count = 0 then .ok (0, f)
  else do
    let r ← f.fs.fileRead f.ip readable count f.fPos
    .ok (r.ret, { f with ip := r.ip, fPos := r.pos })

/-- `ext2_write` -/
def ext2Write (f : OpenFile) (call : WriteCall) : Except Halt (ℤ × OpenFile) := do
  let write (pos : ℤ) : Except Halt (ℤ × OpenFile) := do
    let r ← f.fs.fileWrite f.ip call pos
    .ok (r.ret, { f with fs := r.fs, ip := r.ip, fPos := r.pos })
  if f.fFlags &&& oAppend ≠ 0 then
    let pos := int32 f.ip.iSize
    if pos < 0 then .ok (-efbig, f) else write pos
  else write f.fPos

/-- `kernel_write` -/
def kernelWrite (f : OpenFile) (userPtr : Bool) (call : WriteCall) :
    Except Halt (ℤ × OpenFile) :=
  if userPtr = false then .ok (-efault, f)
  else if f.fFlags &&& oAccmode = oRdonly then .ok (-ebadf, f)
  else if call.count = 0 then .ok (0, f)
  else f.ext2Write call

def step (f : OpenFile) : FileCall → Except Halt (ℤ × OpenFile)
  | .lseek offset whence _ => .ok (f.kernelLseek offset whence)
  | .read userPtr readable count _ => f.kernelRead userPtr readable count
  | .write userPtr call => f.kernelWrite userPtr call
  | .others fs ip _ => .ok (0, { f with fs := fs, ip := ip })

/-- The position at which `file_write` starts. -/
def writePos (f : OpenFile) : ℤ := if f.fFlags &&& oAppend ≠ 0 then int32 f.ip.iSize else f.fPos

/-- The call comes to the loop of `file_read`. -/
def ReadEnters (f : OpenFile) (userPtr : Bool) (count : ℕ) : Prop :=
  userPtr = true ∧ f.fFlags &&& oAccmode ≠ oWronly ∧ count ≠ 0 ∧ 0 ≤ int32 count ∧ 0 ≤ f.fPos

/-- The call comes to the loop of `file_write`. -/
def WriteEnters (f : OpenFile) (userPtr : Bool) (count : ℕ) : Prop :=
  userPtr = true ∧ f.fFlags &&& oAccmode ≠ oRdonly ∧ count ≠ 0 ∧ 0 ≤ int32 count ∧ 0 ≤ f.writePos

/-- The call moves `f_pos` to the position. -/
def Passes (f : OpenFile) : FileCall → ℤ → Prop
  | .lseek .., _ | .others .., _ => False
  | .read userPtr readable count _, pos =>
      f.ReadEnters userPtr count ∧
        ∃ t, ReflTransGen (Next (f.fs.readTurn f.ip readable)) ⟨int32 count, f.fPos, [], false⟩ t ∧
          t.pos = pos
  | .write userPtr call, pos =>
      f.WriteEnters userPtr call.count ∧
        ∃ t, ReflTransGen (Next (writeTurn call))
          ⟨f.fs, f.ip, int32 call.count, f.writePos, 0, false⟩ t ∧ t.pos = pos

/-- The base of an offset. -/
def seekBase (f : OpenFile) (whence : ℤ) : Option ℤ :=
  if whence = seekSet then some 0
  else if whence = seekCur then some f.fPos
  else if whence = seekEnd then some f.ip.iSize
  else none

end OpenFile

/-- A position from 0 to the largest `off_t`. -/
def IsPosition (pos : ℤ) : Prop := 0 ≤ pos ∧ pos < 2 ^ 31

/-- A seek which comes back without an error is exact, and one with an error moves nothing. -/
def SeeksExactly (f : OpenFile) (offset whence ret pos : ℤ) : Prop :=
  (0 ≤ ret → ∃ base, f.seekBase whence = some base ∧ pos = base + offset) ∧
    (ret < 0 → pos = f.fPos)

/-- The position stays one, also on the way, and a seek is exact.  Every logical block is that of
a position to which the call moves `f_pos`. -/
structure KeepsPosition (f : OpenFile) (call : FileCall) : Prop where
  passes : ∀ pos, f.Passes call pos → IsPosition pos
  result : ∀ ret f', f.step call = .ok (ret, f') → IsPosition f'.fPos
  seek : ∀ offset whence h ret f', call = .lseek offset whence h →
    f.step call = .ok (ret, f') → SeeksExactly f offset whence ret f'.fPos

/-- A property of every call of a run, in the state in which it is made. -/
def EachCall (P : OpenFile → FileCall → Prop) : OpenFile → List FileCall → Prop
  | _, [] => True
  | f, call :: calls => P f call ∧ ∀ ret f', f.step call = .ok (ret, f') → EachCall P f' calls

/-! ## When positions wrap around -/

/-- Every byte from a position up to the last one has a block which can be read. -/
def ReadsThrough (fs : Fs) (ip : InodeM) (readable : ℕ → Bool) (p : ℕ) : Prop :=
  ∀ x, p ≤ x → x < Fs.offLimit →
    fs.HasBlock ip x ∧ readable (fs.blockOf ip (x / fs.sb.blocksize)) = true

/-- Block after block, `ext2_create_block` comes to a block up to the last position of all, and the
drive can read it. -/
inductive Fills (call : WriteCall) : Fs → InodeM → (done pos : ℕ) → Prop
  | last (fs : Fs) (ip : InodeM) (done : ℕ) : Fills call fs ip done Fs.offLimit
  | next {fs fs' : Fs} {ip ip' : InodeM} {block done p m : ℕ} (hp : p < Fs.offLimit)
      (hcreate : fs.createBlock ip p = .ok (block, fs', ip')) (hblock : block ≠ 0)
      (hread : call.readable block = true)
      (hm : m = fs'.sb.blocksize - p % fs'.sb.blocksize)
      (hrest : Fills call
        (fs'.storeBytes block (p % fs'.sb.blocksize) m fun i => call.data (done + i)) ip'
        (done + m) (p + m)) :
      Fills call fs ip done p

/-- The sum of a seek from the end is below 4 GiB.  A read or a write ends before 2 GiB, or on the
way there it comes to a block which is not there or cannot be read, for a write to one which cannot
be created or read. -/
def StaysBelow (f : OpenFile) : FileCall → Prop
  | .lseek offset whence _ => whence = seekEnd → f.ip.iSize + offset < 2 ^ 32
  | .read userPtr readable count _ =>
      f.ReadEnters userPtr count → f.fPos + count < 2 ^ 31 ∨
        ¬ReadsThrough f.fs f.ip readable f.fPos.toNat
  | .write userPtr call =>
      f.WriteEnters userPtr call.count → f.writePos + call.count < 2 ^ 31 ∨
        ¬Fills call f.fs f.ip 0 f.writePos.toNat
  | .others .. => True

/-! ## The loop of a read -/

namespace Fs

variable {fs : Fs} {ip : InodeM} {readable : ℕ → Bool} {p n m : ℕ} {out : List (BitVec 8)}
  {a : Bool}

/-- The block at a position ends below the end of all positions. -/
theorem next_block_le (hlog : fs.sb.sLogBlockSize < 21) (hp : p < offLimit) :
    p + (fs.sb.blocksize - p % fs.sb.blocksize) ≤ offLimit := by
  have hsize := Superblock.blocksize_eq (Nat.lt_succ_of_lt hlog)
  obtain ⟨k, hk⟩ : fs.sb.blocksize ∣ offLimit := by
    rw [hsize]
    have hdvd : 2 ^ (10 + fs.sb.sLogBlockSize) ∣ 2 ^ 31 := Nat.pow_dvd_pow 2 (by omega)
    rwa [pow_add] at hdvd
  have hpos := Superblock.blocksize_pos (Nat.lt_succ_of_lt hlog)
  have hmod := Nat.mod_lt p hpos
  have hsplit := Nat.div_add_mod p fs.sb.blocksize
  have hlt : p / fs.sb.blocksize + 1 ≤ k := by
    rw [Nat.succ_le_iff, Nat.div_lt_iff_lt_mul hpos, Nat.mul_comm, ← hk]
    exact hp
  have hmul := Nat.mul_le_mul_left fs.sb.blocksize hlt
  rw [← hk, Nat.mul_add, Nat.mul_one] at hmul
  omega

/-- The whole block is there. -/
theorem readsThrough_of_add (h : ReadsThrough fs ip readable (p + m)) (hblock : fs.HasBlock ip p)
    (hr : readable (fs.blockOf ip (p / fs.sb.blocksize)) = true)
    (hm : p % fs.sb.blocksize + m ≤ fs.sb.blocksize) : ReadsThrough fs ip readable p := by
  intro x hx hlt
  rcases Nat.lt_or_ge x (p + m) with hin | hge
  · obtain ⟨i, rfl⟩ := Nat.exists_eq_add_of_le hx
    have hsame : p % fs.sb.blocksize + i < fs.sb.blocksize := by omega
    rw [add_div_blocksize hsame]
    exact ⟨hblock.add hsame, hr⟩
  · exact h x hge hlt

/-- The position has not wrapped around, and the rest of the read does not make it do so. -/
def ReadBelow (fs : Fs) (ip : InodeM) (readable : ℕ → Bool) (s : Reading) : Prop :=
  ∃ p : ℕ, s.pos = p ∧ p < offLimit ∧
    (s.c ≤ 0 ∨ s.pos + s.c < 2 ^ 31 ∨ ¬ReadsThrough fs ip readable p)

theorem readTurn_below {s : Reading} {y : (Reading × Bool) ⊕ Reading}
    (hlog : fs.sb.sLogBlockSize < 21) (h : ReadBelow fs ip readable s)
    (hturn : fs.readTurn ip readable s = .ok y) :
    y.elim (fun r => ReadBelow fs ip readable r.1) (ReadBelow fs ip readable) := by
  rcases le_or_gt s.c 0 with hle | hlt
  · rw [readTurn_done hle] at hturn
    rw [← Except.ok.inj hturn]
    exact h
  · obtain ⟨p, hpos, hp, hrest⟩ := h
    obtain ⟨n, hn⟩ := Int.eq_ofNat_of_zero_le hlt.le
    obtain ⟨c, pos, out, a⟩ := s
    dsimp only at hpos hn hrest hlt
    subst hpos hn
    have hcount : 0 < n := by omega
    obtain ⟨block, r, hblock, ⟨-, rfl⟩ | ⟨hne, hcase⟩⟩ := of_readTurn hlt hturn
    · exact ⟨p, rfl, hp, Or.inl (Int.le_of_lt (by decide : (-1 : ℤ) < 0))⟩
    · have hhas := hasBlock_of_bmap hlog hp hblock hne
      cases hr : readable (fs.blockOf ip (p / fs.sb.blocksize)) with
      | false =>
          rw [readTurn_fails out a hlog hp hcount hhas hr] at hturn
          rw [← Except.ok.inj hturn]
          exact ⟨p, rfl, hp, hrest⟩
      | true =>
          obtain ⟨m, hm⟩ : ∃ m, m = min (fs.sb.blocksize - p % fs.sb.blocksize) n := ⟨_, rfl⟩
          rw [readTurn_copies out a hlog hp hcount hhas hr hm] at hturn
          rw [← Except.ok.inj hturn]
          have hmod := Nat.mod_lt p (Superblock.blocksize_pos (Nat.lt_succ_of_lt hlog))
          have hle := next_block_le hlog hp
          have hnext : ¬ReadsThrough fs ip readable p → ¬ReadsThrough fs ip readable (p + m) :=
            fun hnot hthrough => hnot (readsThrough_of_add hthrough hhas hr (by omega))
          have hlimit : p + m < offLimit := by
            rcases hrest with hzero | hsum | hnot
            · omega
            · unfold offLimit
              omega
            · refine lt_of_le_of_ne (by omega) fun heq => hnext hnot ?_
              intro x hx hlt
              omega
          have hcast : int32 (p + m : ℕ) = (p + m : ℕ) := by
            unfold offLimit at hlimit
            exact int32_natCast hlimit
          rw [hcast]
          refine ⟨p + m, rfl, hlimit, ?_⟩
          dsimp only
          rcases hrest with hzero | hsum | hnot
          · omega
          · exact Or.inr (Or.inl (by omega))
          · exact Or.inr (Or.inr (hnext hnot))

/-- A read whose blocks are all there goes on to the end of all positions. -/
theorem readTurn_wraps (out : List (BitVec 8)) (a : Bool) (hlog : fs.sb.sLogBlockSize < 21)
    (hp : p < offLimit) (hend : offLimit ≤ p + n) (h : ReadsThrough fs ip readable p) :
    ∃ t, ReflTransGen (Next (fs.readTurn ip readable)) ⟨n, p, out, a⟩ t ∧
      t.pos = int32 offLimit := by
  induction hk : offLimit - p using Nat.strongRecOn generalizing p n out a with
  | ind k ih =>
      obtain ⟨hblock, hr⟩ := h p (Nat.le_refl p) hp
      obtain ⟨m, hm⟩ : ∃ m, m = min (fs.sb.blocksize - p % fs.sb.blocksize) n := ⟨_, rfl⟩
      have hmod := Nat.mod_lt p (Superblock.blocksize_pos (Nat.lt_succ_of_lt hlog))
      have hle := next_block_le hlog hp
      have hnext := readTurn_copies out a hlog hp (by omega) hblock hr hm
      rcases Nat.lt_or_ge (p + m) offLimit with hlt | hge
      · have hsmall := hlt
        unfold offLimit at hsmall
        rw [int32_natCast hsmall] at hnext
        obtain ⟨t, hleads, hpos⟩ := ih (offLimit - (p + m)) (by omega) (n := n - m)
          (out ++ fs.content ip p m) true hlt (by omega)
          (fun x hx => h x (by omega)) rfl
        exact ⟨t, ReflTransGen.head hnext hleads, hpos⟩
      · have hsum : p + m = offLimit := by omega
        rw [hsum] at hnext
        exact ⟨_, ReflTransGen.single hnext, rfl⟩

end Fs

/-! ## The loop of a write -/

section Write

variable {call : WriteCall} {fs fs' : Fs} {ip ip' : InodeM} {block done p n m : ℕ} {a : Bool}

/-- The size of a block tells its logarithm. -/
theorem Superblock.log_lt_of_blocksize {sb sb' : Superblock} (hlog : sb.sLogBlockSize < 21)
    (h : sb'.blocksize = sb.blocksize) : sb'.sLogBlockSize < 21 := by
  have hint := Superblock.blocksize_lt_int hlog
  have hpos := Superblock.blocksize_pos (Nat.lt_succ_of_lt hlog)
  by_contra hge
  rcases Nat.lt_or_ge sb'.sLogBlockSize 22 with hlt | hlarge
  · have htop : sb'.sLogBlockSize = 21 := by omega
    rw [Superblock.blocksize_eq hlt, htop] at h
    omega
  · rw [Superblock.blocksize_eq_zero hlarge] at h
    omega

/-- The state behind a turn which stores bytes in a block. -/
def stored (call : WriteCall) (fs : Fs) (ip : InodeM) (block done p n m : ℕ) : Writing where
  fs := fs.storeBytes block (p % fs.sb.blocksize) m fun i => call.data (done + i)
  ip := ip
  c := (n - m : ℕ)
  pos := int32 (p + m : ℕ)
  p := done + m
  assigned := true

theorem writeTurn_stores (hlog : fs.sb.sLogBlockSize < 21) (hp : p < Fs.offLimit) (hn : 0 < n)
    (hcreate : fs.createBlock ip p = .ok (block, fs', ip')) (hblock : block ≠ 0)
    (hread : call.readable block = true)
    (hm : m = min (fs'.sb.blocksize - p % fs'.sb.blocksize) n) :
    writeTurn call ⟨fs, ip, n, p, done, a⟩ = .ok (.inr (stored call fs' ip' block done p n m)) := by
  have hat : fs.blockAtPos ip p true = .ok (block, fs', ip') :=
    (Fs.blockAtPos_natCast hlog hp).trans hcreate
  have hlog' : fs'.sb.sLogBlockSize < 21 :=
        Superblock.log_lt_of_blocksize hlog (Fs.blockAtPos_sameSizes _ hat).blocksize
  have hlt := Nat.mod_lt p (Superblock.blocksize_pos (Nat.lt_succ_of_lt hlog'))
  have hc : ¬(n : ℤ) = 0 := by omega
  unfold writeTurn
  dsimp only
  rw [if_neg hc, hat, ok_bind]
  dsimp only
  rw [if_neg hblock, hread, if_neg (by decide), Fs.chunk_natCast hlog', ← hm,
    Fs.tmod_natCast hlog', if_neg (by omega), Int.toNat_natCast, Int.toNat_natCast,
    ← Nat.cast_sub (by omega), ← Nat.cast_add]
  rfl

/-- A turn ends the loop where it is, or it stores bytes in a block. -/
theorem of_writeTurn {y : (Writing × Bool) ⊕ Writing} (hlog : fs.sb.sLogBlockSize < 21)
    (hp : p < Fs.offLimit) (hn : 0 < n)
    (h : writeTurn call ⟨fs, ip, n, p, done, a⟩ = .ok y) :
    ∃ block fs' ip', fs.createBlock ip p = .ok (block, fs', ip') ∧
      ((∃ a' failed, y = .inl (⟨fs', ip', n, p, done, a'⟩, failed)) ∨
        block ≠ 0 ∧ call.readable block = true ∧
          y = .inr (stored call fs' ip' block done p n
            (min (fs'.sb.blocksize - p % fs'.sb.blocksize) n))) := by
  cases hcreate : fs.createBlock ip p with
  | error e =>
      have hat : fs.blockAtPos ip p true = .error e :=
        (Fs.blockAtPos_natCast hlog hp).trans hcreate
      have hc : ¬(n : ℤ) = 0 := by omega
      unfold writeTurn at h
      dsimp only at h
      rw [if_neg hc, hat] at h
      cases h
  | ok r =>
      obtain ⟨block, fs', ip'⟩ := r
      refine ⟨block, fs', ip', rfl, ?_⟩
      have hat : fs.blockAtPos ip p true = .ok (block, fs', ip') :=
        (Fs.blockAtPos_natCast hlog hp).trans hcreate
      have hc : ¬(n : ℤ) = 0 := by omega
      by_cases hblock : block = 0
      · left
        unfold writeTurn at h
        dsimp only at h
        rw [if_neg hc, hat, ok_bind] at h
        dsimp only at h
        rw [if_pos hblock] at h
        exact ⟨a, false, (Except.ok.inj h).symm⟩
      · cases hread : call.readable block with
        | false =>
            left
            unfold writeTurn at h
            dsimp only at h
            rw [if_neg hc, hat, ok_bind] at h
            dsimp only at h
            rw [if_neg hblock, if_pos hread] at h
            exact ⟨true, true, (Except.ok.inj h).symm⟩
        | true =>
            rw [writeTurn_stores hlog hp hn hcreate hblock hread rfl] at h
            exact Or.inr ⟨hblock, rfl, (Except.ok.inj h).symm⟩

/-- The position has not wrapped around, and the rest of the write does not make it do so. -/
def WriteBelow (call : WriteCall) (s : Writing) : Prop :=
  s.fs.sb.sLogBlockSize < 21 ∧ ∃ p n : ℕ, s.pos = p ∧ s.c = n ∧ p < Fs.offLimit ∧
    (p + n < Fs.offLimit ∨ ¬Fills call s.fs s.ip s.p p)

theorem writeTurn_below {s : Writing} {y : (Writing × Bool) ⊕ Writing} (h : WriteBelow call s)
    (hturn : writeTurn call s = .ok y) :
    y.elim (fun r => IsPosition r.1.pos) (WriteBelow call) := by
  obtain ⟨hlog, p, n, hpos, hc, hp, hrest⟩ := h
  obtain ⟨fs, ip, c, pos, done, a⟩ := s
  dsimp only at hlog hpos hc hrest
  subst hpos hc
  have hposition : IsPosition (p : ℤ) := by
    unfold Fs.offLimit at hp
    exact ⟨by omega, by omega⟩
  rcases Nat.eq_zero_or_pos n with rfl | hn
  · have hdone : writeTurn call ⟨fs, ip, (0 : ℕ), p, done, a⟩ =
        .ok (.inl (⟨fs, ip, (0 : ℕ), p, done, a⟩, false)) := if_pos rfl
    rw [hdone] at hturn
    rw [← Except.ok.inj hturn]
    exact hposition
  · obtain ⟨block, fs', ip', hcreate, ⟨a', failed, rfl⟩ | ⟨hblock, hread, rfl⟩⟩ :=
      of_writeTurn hlog hp hn hturn
    · exact hposition
    · have hat : fs.blockAtPos ip p true = .ok (block, fs', ip') :=
        (Fs.blockAtPos_natCast hlog hp).trans hcreate
      have hlog' : fs'.sb.sLogBlockSize < 21 :=
        Superblock.log_lt_of_blocksize hlog (Fs.blockAtPos_sameSizes _ hat).blocksize
      have hmod := Nat.mod_lt p (Superblock.blocksize_pos (Nat.lt_succ_of_lt hlog'))
      have hle := Fs.next_block_le hlog' hp
      obtain ⟨m, hm⟩ : ∃ m, m = min (fs'.sb.blocksize - p % fs'.sb.blocksize) n := ⟨_, rfl⟩
      rw [← hm]
      have hnext : p + n < Fs.offLimit ∨ m = fs'.sb.blocksize - p % fs'.sb.blocksize ∧
          ¬Fills call (stored call fs' ip' block done p n m).fs ip' (done + m) (p + m) := by
        by_cases hsum : p + n < Fs.offLimit
        · exact Or.inl hsum
        · have hrest' : m = fs'.sb.blocksize - p % fs'.sb.blocksize := by omega
          refine Or.inr ⟨hrest', fun hfills => hrest.elim hsum fun hnot => hnot ?_⟩
          exact Fills.next hp hcreate hblock hread hrest' hfills
      have hlimit : p + m < Fs.offLimit := by
        rcases hnext with hsum | ⟨hrest', hnot⟩
        · omega
        · refine lt_of_le_of_ne (by omega) fun heq => hnot ?_
          rw [heq]
          exact Fills.last _ _ _
      have hcast : int32 (p + m : ℕ) = (p + m : ℕ) := by
        unfold Fs.offLimit at hlimit
        exact int32_natCast hlimit
      unfold stored at hnext ⊢
      rw [hcast]
      refine ⟨hlog', p + m, n - m, rfl, rfl, hlimit, ?_⟩
      have hmn : m ≤ n := hm ▸ Nat.min_le_right _ _
      rw [Nat.add_assoc, Nat.add_sub_cancel' hmn]
      exact hnext.imp_right And.right

/-- A write whose blocks can all be created goes on to the end of all positions. -/
theorem writeTurn_wraps (hlog : fs.sb.sLogBlockSize < 21) (hp : p < Fs.offLimit)
    (hend : Fs.offLimit ≤ p + n) (h : Fills call fs ip done p) :
    ∃ t, ReflTransGen (Next (writeTurn call)) ⟨fs, ip, n, p, done, a⟩ t ∧
      t.pos = int32 Fs.offLimit := by
  induction h generalizing n a with
  | last fs ip done => exact absurd hp (Nat.lt_irrefl _)
  | @next fs fs' ip ip' block done p m _ hcreate hblock hread hm hrest ih =>
      have hat : fs.blockAtPos ip p true = .ok (block, fs', ip') :=
        (Fs.blockAtPos_natCast hlog hp).trans hcreate
      have hlog' : fs'.sb.sLogBlockSize < 21 :=
        Superblock.log_lt_of_blocksize hlog (Fs.blockAtPos_sameSizes _ hat).blocksize
      have hmod := Nat.mod_lt p (Superblock.blocksize_pos (Nat.lt_succ_of_lt hlog'))
      have hle := Fs.next_block_le hlog' hp
      have hmin : m = min (fs'.sb.blocksize - p % fs'.sb.blocksize) n := by omega
      have hnext : Next (writeTurn call) ⟨fs, ip, n, p, done, a⟩
          (stored call fs' ip' block done p n m) :=
        writeTurn_stores hlog hp (by omega) hcreate hblock hread hmin
      rcases Nat.lt_or_ge (p + m) Fs.offLimit with hlt | hge
      · have hcast : int32 (p + m : ℕ) = (p + m : ℕ) := by
          have hsmall := hlt
          unfold Fs.offLimit at hsmall
          exact int32_natCast hsmall
        unfold stored at hnext
        rw [hcast] at hnext
        have hmn : m ≤ n := hmin ▸ Nat.min_le_right _ _
        have hsum : p + m + (n - m) = p + n := by rw [Nat.add_assoc, Nat.add_sub_cancel' hmn]
        obtain ⟨t, hleads, hpos⟩ := ih (n := n - m) (a := true) hlog' hlt (hsum ▸ hend)
        exact ⟨t, ReflTransGen.head hnext hleads, hpos⟩
      · have hsum : p + m = Fs.offLimit := by omega
        refine ⟨_, ReflTransGen.single hnext, ?_⟩
        unfold stored
        dsimp only
        rw [hsum]

end Write

/-! ## A seek -/

section Calls

variable {f f' : OpenFile} {call : FileCall} {ret : ℤ}

/-- The end of all positions is negative. -/
theorem int32_offLimit : int32 Fs.offLimit = -2 ^ 31 := by decide

/-- A sum of a word and an offset wraps around once at most. -/
theorem int32_sum {x : ℤ} (hlow : -2 ^ 31 ≤ x) (hhigh : x < 2 ^ 32 + 2 ^ 31) :
    x < 2 ^ 31 ∧ int32 x = x ∨ 2 ^ 31 ≤ x ∧ int32 x = x - 2 ^ 32 := by
  rcases lt_or_ge x (2 ^ 31) with hlt | hge
  · exact Or.inl ⟨hlt, Int.bmod_eq_of_le (by omega) (by omega)⟩
  · refine Or.inr ⟨hge, ?_⟩
    unfold int32
    rw [← Int.sub_bmod_right]
    exact Int.bmod_eq_of_le (by omega) (by omega)

theorem Ordinary.ext2Lseek {fs : Fs} {ip : InodeM} (h : Ordinary fs ip) (ptr pos whence : ℤ) :
    ext2Lseek ip ptr pos whence =
      match (if whence = seekSet then some pos
        else if whence = seekCur then some (int32 (ptr + pos))
        else if whence = seekEnd then some (int32 (ip.iSize + pos))
        else none) with
      | none => (-einval, ptr)
      | some new => if new < 0 then (-eoverflow, ptr) else (new, new) := by
  have hkind : ip.iMode &&& sIfmt ≠ sIfchr ∧
      ¬(ip.iMode &&& sIfmt = sIfifo ∨ ip.iMode &&& sIfmt = sIfsock) := by
    rcases h.kind with hreg | hdir
    · unfold isReg at hreg
      rw [hreg]
      decide
    · unfold isDir at hdir
      rw [hdir]
      decide
  unfold Ext2.ext2Lseek
  dsimp only
  rw [if_neg hkind.1, if_neg hkind.2]

theorem seeksExactly_target (offset whence base new : ℤ) (hpos : IsPosition f.fPos)
    (hbase : f.seekBase whence = some base) (hnew : new < 2 ^ 31) :
    IsPosition (if new < 0 then (-eoverflow, f.fPos) else (new, new)).2 ∧
      (SeeksExactly f offset whence (if new < 0 then (-eoverflow, f.fPos) else (new, new)).1
          (if new < 0 then (-eoverflow, f.fPos) else (new, new)).2 ↔
        (0 ≤ new → new = base + offset)) := by
  unfold SeeksExactly
  rw [hbase]
  split
  next hneg =>
    have herr : ¬0 ≤ -eoverflow := by decide
    exact ⟨hpos, fun _ h => absurd hneg (Int.not_lt.mpr h),
      fun _ => ⟨fun h => absurd h herr, fun _ => rfl⟩⟩
  next hnot =>
    have hle := Int.not_lt.mp hnot
    refine ⟨⟨hle, hnew⟩, ?_, ?_⟩
    · rintro ⟨hexact, -⟩ _
      obtain ⟨base', hbase', heq⟩ := hexact hle
      rw [Option.some.inj hbase']
      exact heq
    · intro heq
      exact ⟨fun _ => ⟨base, rfl, heq hle⟩, fun h => absurd h hnot⟩

theorem kernelLseek_exact_iff {offset : ℤ} (whence : ℤ) (hord : Ordinary f.fs f.ip)
    (hpos : IsPosition f.fPos) (hoffset : -2 ^ 31 ≤ offset ∧ offset < 2 ^ 31) :
    IsPosition (f.kernelLseek offset whence).2.fPos ∧
      (SeeksExactly f offset whence (f.kernelLseek offset whence).1
          (f.kernelLseek offset whence).2.fPos ↔
        (whence = seekEnd → f.ip.iSize + offset < 2 ^ 32)) := by
  have hsize := hord.size
  obtain ⟨hlow, hhigh⟩ := id hpos
  unfold OpenFile.kernelLseek
  rw [hord.ext2Lseek]
  by_cases hset : whence = seekSet
  · subst hset
    obtain ⟨hposition, hexact⟩ := seeksExactly_target offset seekSet 0 offset hpos rfl
      hoffset.2
    refine ⟨hposition, hexact.trans ⟨fun _ h => absurd h (by decide), fun _ _ => ?_⟩⟩
    exact (Int.zero_add offset).symm
  · by_cases hcur : whence = seekCur
    · subst hcur
      obtain ⟨hposition, hexact⟩ := seeksExactly_target offset seekCur f.fPos
        (int32 (f.fPos + offset)) hpos rfl (int32_lt _)
      refine ⟨hposition, hexact.trans ⟨fun _ h => absurd h (by decide), fun _ hle => ?_⟩⟩
      rcases int32_sum (x := f.fPos + offset) (by omega) (by omega) with ⟨-, heq⟩ | ⟨-, heq⟩
      · exact heq
      · omega
    · by_cases hend : whence = seekEnd
      · subst hend
        obtain ⟨hposition, hexact⟩ := seeksExactly_target offset seekEnd f.ip.iSize
          (int32 (f.ip.iSize + offset)) hpos rfl (int32_lt _)
        refine ⟨hposition, hexact.trans ?_⟩
        rcases int32_sum (x := f.ip.iSize + offset) (by omega) (by omega) with ⟨_, heq⟩ | ⟨_, heq⟩
        · exact ⟨fun _ _ => by omega, fun _ _ => heq⟩
        · constructor
          · intro h _
            by_contra hge
            have hsum := h (by omega)
            omega
          · intro h hle
            have hlt := h rfl
            omega
      · rw [if_neg hset, if_neg hcur, if_neg hend]
        have herr : ¬0 ≤ -einval := by decide
        exact ⟨hpos, fun _ h => absurd h hend, fun _ => ⟨fun h => absurd h herr, fun _ => rfl⟩⟩

theorem lseek_keeps_iff {offset whence : ℤ} {hoffset : -2 ^ 31 ≤ offset ∧ offset < 2 ^ 31}
    (hord : Ordinary f.fs f.ip) (hpos : IsPosition f.fPos) :
    StaysBelow f (.lseek offset whence hoffset) ↔
      KeepsPosition f (.lseek offset whence hoffset) := by
  obtain ⟨hposition, hexact⟩ := kernelLseek_exact_iff whence hord hpos hoffset
  refine hexact.symm.trans ⟨fun h => ⟨?_, ?_, ?_⟩, fun h => ?_⟩
  · exact fun _ h => h.elim
  · intro ret f' hstep
    rw [← (Prod.mk.inj (Except.ok.inj hstep)).2]
    exact hposition
  · intro offset' whence' h' ret f' hcall hstep
    cases hcall
    obtain ⟨rfl, rfl⟩ := Prod.mk.inj (Except.ok.inj hstep)
    exact h
  · exact h.seek offset whence hoffset _ _ rfl rfl

/-! ## A read -/

theorem of_int32_nonneg {count : ℕ} (hcount : count < 2 ^ 32) (h : 0 ≤ int32 count) :
    int32 count = count := by
  apply int32_natCast
  by_contra hlarge
  rw [int32_high (Nat.not_lt.mp hlarge) hcount] at h
  omega

theorem Fs.ReadBelow.isPosition {fs : Fs} {ip : InodeM} {readable : ℕ → Bool} {s : Reading}
    (h : Fs.ReadBelow fs ip readable s) : IsPosition s.pos := by
  obtain ⟨p, hpos, hp, -⟩ := h
  unfold Fs.offLimit at hp
  rw [hpos]
  exact ⟨by omega, by omega⟩

theorem Fs.fileRead_below {fs : Fs} {ip : InodeM} {readable : ℕ → Bool} {count : ℕ} {pos : ℤ}
    {r : ReadResult} (hlog : fs.sb.sLogBlockSize < 21) (hpos : IsPosition pos)
    (hbelow : 0 ≤ int32 count → Fs.ReadBelow fs ip readable ⟨int32 count, pos, [], false⟩)
    (h : fs.fileRead ip readable count pos = .ok r) : IsPosition r.pos := by
  unfold Fs.fileRead at h
  dsimp only at h
  split at h
  next =>
    rw [← Except.ok.inj h]
    exact hpos
  next hc =>
    split at h
    next =>
      rw [← Except.ok.inj h]
      exact hpos
    next =>
      obtain ⟨⟨s', failed⟩, hrun, hrest⟩ := bind_eq_ok.mp h
      have hend : Fs.ReadBelow fs ip readable s' :=
        run_invariant (Fs.ReadBelow fs ip readable)
          (fun r : Reading × Bool => Fs.ReadBelow fs ip readable r.1)
          (fun s y hs => Fs.readTurn_below hlog hs) (hbelow (Int.not_lt.mp hc)) hrun
      dsimp only at hrest
      split at hrest
      next => cases hrest
      next =>
        rw [← Except.ok.inj hrest]
        exact hend.isPosition

/-- A call of `kernel_read` changes nothing, or it is one of `file_read`. -/
theorem of_kernelRead {userPtr : Bool} {readable : ℕ → Bool} {count : ℕ}
    (h : f.kernelRead userPtr readable count = .ok (ret, f')) :
    f' = f ∨ userPtr = true ∧ f.fFlags &&& oAccmode ≠ oWronly ∧ count ≠ 0 ∧
      ∃ r, f.fs.fileRead f.ip readable count f.fPos = .ok r ∧
        f' = { f with ip := r.ip, fPos := r.pos } := by
  unfold OpenFile.kernelRead at h
  split at h
  next => exact Or.inl (Prod.mk.inj (Except.ok.inj h)).2.symm
  next hptr =>
    split at h
    next => exact Or.inl (Prod.mk.inj (Except.ok.inj h)).2.symm
    next hmode =>
      split at h
      next => exact Or.inl (Prod.mk.inj (Except.ok.inj h)).2.symm
      next hzero =>
        obtain ⟨r, hr, hret⟩ := bind_eq_ok.mp h
        exact Or.inr ⟨Bool.eq_true_of_not_eq_false hptr, hmode, hzero, r, hr,
          (Prod.mk.inj (Except.ok.inj hret)).2.symm⟩

theorem read_keeps_iff {userPtr : Bool} {readable : ℕ → Bool} {count : ℕ}
    {hcount : count < 2 ^ 32} (hord : Ordinary f.fs f.ip) (hpos : IsPosition f.fPos) :
    StaysBelow f (.read userPtr readable count hcount) ↔
      KeepsPosition f (.read userPtr readable count hcount) := by
  obtain ⟨p, hp⟩ := Int.eq_ofNat_of_zero_le hpos.1
  have hlt : p < Fs.offLimit := by
    have hhigh := hpos.2
    unfold Fs.offLimit
    omega
  constructor
  · intro h
    have hstart : f.ReadEnters userPtr count →
        Fs.ReadBelow f.fs f.ip readable ⟨int32 count, f.fPos, [], false⟩ := by
      intro henters
      refine ⟨p, hp, hlt, Or.inr ?_⟩
      dsimp only
      rw [of_int32_nonneg hcount henters.2.2.2.1]
      have hbelow := h henters
      rw [hp, Int.toNat_natCast] at hbelow
      rw [hp]
      exact hbelow
    refine ⟨?_, ?_, fun _ _ _ _ _ hcall => by cases hcall⟩
    · rintro pos ⟨henters, t, hleads, rfl⟩
      have hend := leads_invariant (Fs.ReadBelow f.fs f.ip readable)
        (fun s s' hs hnext => Fs.readTurn_below hord.log hs hnext) (hstart henters) hleads
      exact hend.isPosition
    · intro ret f' hstep
      rcases of_kernelRead hstep with rfl | ⟨hptr, hmode, hzero, r, hr, rfl⟩
      · exact hpos
      · exact Fs.fileRead_below hord.log hpos
          (fun hc => hstart ⟨hptr, hmode, hzero, hc, hpos.1⟩) hr
  · intro hkeeps henters
    by_contra hnot
    obtain ⟨hsum, hthrough⟩ := not_or.mp hnot
    rw [hp] at hsum
    rw [hp, Int.toNat_natCast] at hthrough
    obtain ⟨t, hleads, htpos⟩ := Fs.readTurn_wraps (n := count) [] false
      hord.log hlt (by unfold Fs.offLimit; omega) (not_not.mp hthrough)
    have hwrapped := hkeeps.passes (int32 Fs.offLimit) ⟨henters, t, ?_, htpos⟩
    · rw [int32_offLimit] at hwrapped
      exact absurd hwrapped.1 (by decide)
    · rw [of_int32_nonneg hcount henters.2.2.2.1, hp]
      exact hleads

/-! ## A write -/

/-- A call of `kernel_write` changes nothing, or it is one of `file_write`. -/
theorem of_kernelWrite {userPtr : Bool} {call : WriteCall} (hpos : IsPosition f.fPos)
    (h : f.kernelWrite userPtr call = .ok (ret, f')) :
    f' = f ∨ userPtr = true ∧ f.fFlags &&& oAccmode ≠ oRdonly ∧ call.count ≠ 0 ∧
      IsPosition f.writePos ∧ ∃ r, f.fs.fileWrite f.ip call f.writePos = .ok r ∧
        f' = { f with fs := r.fs, ip := r.ip, fPos := r.pos } := by
  unfold OpenFile.kernelWrite at h
  split at h
  next => exact Or.inl (Prod.mk.inj (Except.ok.inj h)).2.symm
  next hptr =>
    split at h
    next => exact Or.inl (Prod.mk.inj (Except.ok.inj h)).2.symm
    next hmode =>
      split at h
      next => exact Or.inl (Prod.mk.inj (Except.ok.inj h)).2.symm
      next hzero =>
        unfold OpenFile.ext2Write at h
        unfold OpenFile.writePos
        dsimp only at h
        split at h
        next happend =>
          rw [if_pos happend]
          split at h
          next => exact Or.inl (Prod.mk.inj (Except.ok.inj h)).2.symm
          next hnonneg =>
            obtain ⟨r, hr, hret⟩ := bind_eq_ok.mp h
            exact Or.inr ⟨Bool.eq_true_of_not_eq_false hptr, hmode, hzero,
              ⟨Int.not_lt.mp hnonneg, int32_lt _⟩, r, hr,
              (Prod.mk.inj (Except.ok.inj hret)).2.symm⟩
        next happend =>
          rw [if_neg happend]
          obtain ⟨r, hr, hret⟩ := bind_eq_ok.mp h
          exact Or.inr ⟨Bool.eq_true_of_not_eq_false hptr, hmode, hzero, hpos, r, hr,
            (Prod.mk.inj (Except.ok.inj hret)).2.symm⟩

/-- A write with `O_APPEND` which returns a number of bytes makes the file longer by as many. -/
theorem OpenFile.ext2Write_append {call : WriteCall} (happend : f.fFlags &&& oAppend ≠ 0)
    (hsize : f.ip.iSize < 2 ^ 32) (h : f.ext2Write call = .ok (ret, f')) (hret : 0 ≤ ret) :
    (f'.ip.iSize : ℤ) = f.ip.iSize + ret := by
  unfold OpenFile.ext2Write at h
  dsimp only at h
  rw [if_pos happend] at h
  split at h
  next =>
    rw [← (Prod.mk.inj (Except.ok.inj h)).1] at hret
    exact absurd hret (by decide)
  next hnonneg =>
    obtain ⟨r, hr, hresult⟩ := bind_eq_ok.mp h
    obtain ⟨rfl, rfl⟩ := Prod.mk.inj (Except.ok.inj hresult)
    have hcast := of_int32_nonneg hsize (Int.not_lt.mp hnonneg)
    have hlt := int32_lt f.ip.iSize
    obtain ⟨n, hn, hwrote⟩ := Fs.fileWrite_wrote hr hret
    dsimp only
    rw [hwrote.size, hwrote.ret]
    omega

theorem WriteBelow.isPosition {call : WriteCall} {s : Writing} (h : WriteBelow call s) :
    IsPosition s.pos := by
  obtain ⟨-, p, n, hpos, -, hp, -⟩ := h
  unfold Fs.offLimit at hp
  rw [hpos]
  exact ⟨by omega, by omega⟩

theorem Fs.fileWrite_below {fs : Fs} {ip : InodeM} {call : WriteCall} {pos : ℤ} {r : WriteResult}
    (hpos : IsPosition pos)
    (hbelow : 0 ≤ int32 call.count → WriteBelow call ⟨fs, ip, int32 call.count, pos, 0, false⟩)
    (h : fs.fileWrite ip call pos = .ok r) : IsPosition r.pos := by
  unfold Fs.fileWrite at h
  dsimp only at h
  split at h
  next =>
    rw [← Except.ok.inj h]
    exact hpos
  next hc =>
    split at h
    next =>
      rw [← Except.ok.inj h]
      exact hpos
    next =>
      obtain ⟨⟨s', failed⟩, hrun, hrest⟩ := bind_eq_ok.mp h
      have hend : IsPosition s'.pos :=
        run_invariant (WriteBelow call) (fun r : Writing × Bool => IsPosition r.1.pos)
          (fun s y hs => writeTurn_below hs) (hbelow (Int.not_lt.mp hc)) hrun
      dsimp only at hrest
      split at hrest
      next => cases hrest
      next =>
        rw [← Except.ok.inj hrest]
        exact hend

theorem write_keeps_iff {userPtr : Bool} {call : WriteCall} (hord : Ordinary f.fs f.ip)
    (hpos : IsPosition f.fPos) :
    StaysBelow f (.write userPtr call) ↔ KeepsPosition f (.write userPtr call) := by
  have hstart : 0 ≤ f.writePos → ∃ p : ℕ, f.writePos = p ∧ p < Fs.offLimit := by
    intro hle
    obtain ⟨p, hp⟩ := Int.eq_ofNat_of_zero_le hle
    have hlt : f.writePos < 2 ^ 31 := by
      unfold OpenFile.writePos
      split
      · exact int32_lt _
      · exact hpos.2
    refine ⟨p, hp, ?_⟩
    unfold Fs.offLimit
    omega
  constructor
  · intro h
    have hbelow : f.WriteEnters userPtr call.count →
        WriteBelow call ⟨f.fs, f.ip, int32 call.count, f.writePos, 0, false⟩ := by
      intro henters
      obtain ⟨p, hp, hlt⟩ := hstart henters.2.2.2.2
      have hsum := h henters
      rw [hp, Int.toNat_natCast] at hsum
      rw [of_int32_nonneg call.hcount henters.2.2.2.1]
      refine ⟨hord.log, p, call.count, hp, rfl, hlt, hsum.imp_left ?_⟩
      unfold Fs.offLimit
      omega
    refine ⟨?_, ?_, fun _ _ _ _ _ hcall => by cases hcall⟩
    · rintro pos ⟨henters, t, hleads, rfl⟩
      have hend := leads_invariant (WriteBelow call)
        (fun s s' hs hnext => writeTurn_below hs hnext) (hbelow henters) hleads
      exact hend.isPosition
    · intro ret f' hstep
      rcases of_kernelWrite hpos hstep with rfl | ⟨hptr, hmode, hzero, hwpos, r, hr, rfl⟩
      · exact hpos
      · exact Fs.fileWrite_below hwpos
          (fun hc => hbelow ⟨hptr, hmode, hzero, hc, hwpos.1⟩) hr
  · intro hkeeps henters
    obtain ⟨p, hp, hlt⟩ := hstart henters.2.2.2.2
    by_contra hnot
    obtain ⟨hsum, hfills⟩ := not_or.mp hnot
    rw [hp] at hsum
    rw [hp, Int.toNat_natCast] at hfills
    obtain ⟨t, hleads, htpos⟩ := writeTurn_wraps (n := call.count) (a := false) hord.log hlt
      (by unfold Fs.offLimit; omega) (not_not.mp hfills)
    have hwrapped := hkeeps.passes (int32 Fs.offLimit) ⟨henters, t, ?_, htpos⟩
    · rw [int32_offLimit] at hwrapped
      exact absurd hwrapped.1 (by decide)
    · rw [of_int32_nonneg call.hcount henters.2.2.2.1, hp]
      exact hleads

/-! ## Runs -/

theorem keepsPosition_iff (hord : Ordinary f.fs f.ip) (hpos : IsPosition f.fPos) :
    StaysBelow f call ↔ KeepsPosition f call := by
  cases call with
  | lseek offset whence hoffset => exact lseek_keeps_iff hord hpos
  | read userPtr readable count hcount => exact read_keeps_iff hord hpos
  | write userPtr call => exact write_keeps_iff hord hpos
  | others fs ip h =>
      refine ⟨fun _ => ⟨fun _ h => h.elim, ?_, fun _ _ _ _ _ hcall => by cases hcall⟩,
        fun _ => trivial⟩
      intro ret f' hstep
      obtain ⟨-, rfl⟩ := Prod.mk.inj (Except.ok.inj hstep)
      exact hpos

theorem Fs.fileRead_ordinary {fs : Fs} {ip : InodeM} {readable : ℕ → Bool} {count : ℕ} {pos : ℤ}
    {r : ReadResult} (hord : Ordinary fs ip) (h : fs.fileRead ip readable count pos = .ok r) :
    Ordinary fs r.ip := by
  unfold Fs.fileRead at h
  dsimp only at h
  split at h
  next =>
    rw [← Except.ok.inj h]
    exact hord
  next =>
    split at h
    next =>
      rw [← Except.ok.inj h]
      exact hord
    next =>
      obtain ⟨⟨s', failed⟩, -, hrest⟩ := bind_eq_ok.mp h
      dsimp only at hrest
      split at hrest
      next => cases hrest
      next =>
        rw [← Except.ok.inj hrest]
        exact ⟨hord.log, hord.kind, hord.size⟩

/-- The size of a block and the mode of the file are as before. -/
def Writing.SameKind (fs : Fs) (ip : InodeM) (s : Writing) : Prop :=
  s.fs.sb.blocksize = fs.sb.blocksize ∧ s.ip.iMode = ip.iMode

theorem writeTurn_sameKind {fs : Fs} {ip : InodeM} {call : WriteCall} {s : Writing}
    {y : (Writing × Bool) ⊕ Writing} (h : s.SameKind fs ip) (hturn : writeTurn call s = .ok y) :
    y.elim (fun r => r.1.SameKind fs ip) (Writing.SameKind fs ip) := by
  unfold writeTurn at hturn
  split at hturn
  next =>
    rw [← Except.ok.inj hturn]
    exact h
  next =>
    obtain ⟨⟨block, fs', ip'⟩, hblock, hrest⟩ := bind_eq_ok.mp hturn
    obtain ⟨hblocksize, -, hmode⟩ := Fs.blockAtPos_sameSizes _ hblock
    have hsame : fs'.sb.blocksize = fs.sb.blocksize ∧ ip'.iMode = ip.iMode :=
      ⟨hblocksize.trans h.1, hmode.trans h.2⟩
    dsimp only at hrest
    split at hrest
    next =>
      rw [← Except.ok.inj hrest]
      exact hsame
    next =>
      split at hrest
      next =>
        rw [← Except.ok.inj hrest]
        exact hsame
      next =>
        split at hrest
        next => cases hrest
        next =>
          rw [← Except.ok.inj hrest]
          exact hsame

theorem Fs.fileWrite_ordinary {fs : Fs} {ip : InodeM} {call : WriteCall} {pos : ℤ}
    {r : WriteResult} (hord : Ordinary fs ip) (h : fs.fileWrite ip call pos = .ok r) :
    Ordinary r.fs r.ip := by
  have hsize := Fs.fileWrite_size_lt h hord.size
  unfold Fs.fileWrite at h
  dsimp only at h
  split at h
  next =>
    rw [← Except.ok.inj h]
    exact hord
  next =>
    split at h
    next =>
      rw [← Except.ok.inj h]
      exact hord
    next =>
      obtain ⟨⟨s', failed⟩, hrun, hrest⟩ := bind_eq_ok.mp h
      obtain ⟨hblocksize, hmode⟩ : s'.SameKind fs ip :=
        run_invariant (Writing.SameKind fs ip) (fun r : Writing × Bool => r.1.SameKind fs ip)
          (fun s y hs => writeTurn_sameKind hs) ⟨rfl, rfl⟩ hrun
      dsimp only at hrest
      split at hrest
      next => cases hrest
      next =>
        obtain rfl := Except.ok.inj hrest
        refine ⟨Superblock.log_lt_of_blocksize hord.log hblocksize, ?_, hsize⟩
        dsimp only
        rw [hmode]
        exact hord.kind

theorem OpenFile.step_ordinary (hord : Ordinary f.fs f.ip) (hpos : IsPosition f.fPos)
    (h : f.step call = .ok (ret, f')) : Ordinary f'.fs f'.ip := by
  cases call with
  | lseek offset whence hoffset =>
      obtain ⟨-, rfl⟩ := Prod.mk.inj (Except.ok.inj h)
      exact hord
  | read userPtr readable count hcount =>
      rcases of_kernelRead h with rfl | ⟨-, -, -, r, hr, rfl⟩
      · exact hord
      · exact Fs.fileRead_ordinary hord hr
  | write userPtr call =>
      rcases of_kernelWrite hpos h with rfl | ⟨-, -, -, -, r, hr, rfl⟩
      · exact hord
      · exact Fs.fileWrite_ordinary hord hr
  | others fs ip hothers =>
      obtain ⟨-, rfl⟩ := Prod.mk.inj (Except.ok.inj h)
      exact hothers

/-- A run keeps the position of the file valid exactly if every call stays below the end of all
positions. -/
theorem eachCall_keepsPosition_iff (calls : List FileCall) (hord : Ordinary f.fs f.ip)
    (hpos : IsPosition f.fPos) :
    EachCall KeepsPosition f calls ↔ EachCall StaysBelow f calls := by
  induction calls generalizing f with
  | nil => exact Iff.rfl
  | cons call calls ih =>
      have hcall : StaysBelow f call ↔ KeepsPosition f call := keepsPosition_iff hord hpos
      constructor
      · rintro ⟨hkeeps, hrest⟩
        refine ⟨hcall.mpr hkeeps, fun ret f' hstep => ?_⟩
        exact (ih (f.step_ordinary hord hpos hstep) (hkeeps.result ret f' hstep)).mp
          (hrest ret f' hstep)
      · rintro ⟨hbelow, hrest⟩
        have hkeeps := hcall.mp hbelow
        refine ⟨hkeeps, fun ret f' hstep => ?_⟩
        exact (ih (f.step_ordinary hord hpos hstep) (hkeeps.result ret f' hstep)).mpr
          (hrest ret f' hstep)

end Calls

/-- An open file of ten bytes, for reading and writing. -/
def smallOpen : OpenFile := ⟨Fs.fileFs, Fs.smallFile, 0, 2⟩

theorem ordinary_smallFile : Ordinary Fs.fileFs Fs.smallFile := ⟨by decide, by decide, by decide⟩

/-- A seek to the fifth byte. -/
theorem eachCall_keepsPosition_seek :
    EachCall KeepsPosition smallOpen [.lseek 4 seekSet (by decide)] :=
  (eachCall_keepsPosition_iff _ ordinary_smallFile (by unfold IsPosition; decide)).mpr
    ⟨fun h => absurd h (by decide), fun _ _ _ => trivial⟩

/-- The largest file: a seek of two bytes behind its end comes back with position 1. -/
theorem not_keepsPosition_seekEnd :
    ¬∀ (f : OpenFile) (calls : List FileCall), Ordinary f.fs f.ip → IsPosition f.fPos →
      EachCall KeepsPosition f calls := by
  intro hall
  have hkeeps := (hall { smallOpen with ip := { Fs.smallFile with iSize := 2 ^ 32 - 1 } }
    [.lseek 2 seekEnd (by decide)] ⟨by decide, by decide, by decide⟩
    (by unfold IsPosition; decide)).1
  obtain ⟨base, hbase, hsum⟩ := (hkeeps.seek 2 seekEnd _ 1 _ rfl rfl).1 (by decide)
  cases hbase
  exact absurd hsum (by decide)

end Yak.Ext2
