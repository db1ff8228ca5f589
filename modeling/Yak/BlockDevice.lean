import Yak.BufferLists
import Yak.FileRead

/-!
# Block special files

A transcription of `blkdev_read` and `blkdev_write` over the buffer cache.  A position is divided
into sectors, and the number of the sector is given to the cache for that of a block.
-/

namespace Yak.Ext2

open ByteBitmap BoundedLoop BufferCache BufferCache.Cache

/-- The nodes of the buffer cache. -/
abbrev BufferPtr := Yak.Cache.Node

def enxio : ℤ := 62

/-- `is_blockdev` -/
def isBlockdev (dev : ℕ) : Prop := devMajor dev = hdDev

instance (dev : ℕ) : Decidable (isBlockdev dev) := inferInstanceAs (Decidable (_ = _))

/-- The buffer cache and the local variables of `blkdev_read` and `blkdev_write`. -/
structure Sectors where
  cache : Cache Bytes
  c : ℤ
  pos : ℤ
  /-- The bytes which have been copied, in their order. -/
  moved : List (BitVec 8)

/-- The result, the position, the bytes which have been copied, the cache and the inode. -/
structure BlkdevResult where
  ret : ℤ
  pos : ℤ
  moved : List (BitVec 8)
  cache : Cache Bytes
  ip : InodeM

/-- `nr`, the number of bytes up to the end of the sector or of the transfer. -/
def sectorChunk (pos c : ℤ) : ℤ :=
  let rest := sectorSize - pos.tmod sectorSize
  if rest < c then rest else c

/-- The loop over `nr`: out of the buffer, or into it from the buffer of the user, of which
`done` bytes have been used. -/
def copySector (rw : Rw) (ubuf : Bytes) (done : ℕ) (cache : Cache Bytes) (bp : BufferPtr)
    (data : Bytes) (off nr : ℕ) : Cache Bytes × List (BitVec 8) :=
  match rw with
  | .read => (cache, (List.range nr).map fun i => data (off + i))
  | .write =>
      (cache.modify bp fun b =>
          { b with
            bData := some fun i =>
              if off ≤ i ∧ i < off + nr then ubuf (done + (i - off)) else data i
            dwrite := true },
        (List.range nr).map fun i => ubuf (done + i))

/-- A turn of the loop.  It ends with 0, or with the error of a sector which cannot be read. -/
def blkdevTurn (env : Env Bytes) (current dev : ℕ) (rw : Rw) (ubuf : Bytes) (s : Sectors) :
    Except Halt ((Sectors × ℤ) ⊕ Sectors) :=
  if s.c = 0 then .ok (.inl (s, 0))
  else do
    let block := s.pos.tdiv sectorSize
    let (bp, cache) ← s.cache.getblk env current dev (block % 2 ^ 32).toNat
    let (cache, _) ← cache.blkDevio env bp .read
    if (cache.buf bp).error then do
      let cache ← cache.brelse bp
      .ok (.inl ({ s with cache := cache }, -eio))
    else
      let off := s.pos.tmod sectorSize
      let nr := sectorChunk s.pos s.c
      match (cache.buf bp).bData with
      | none => .error .nullDeref
      | some data =>
          if off < 0 then .error .outOfBounds
          else do
            let (cache, bytes) :=
              copySector rw ubuf s.moved.length cache bp data off.toNat nr.toNat
            let cache ← cache.brelse bp
            .ok (.inr ⟨cache, s.c - nr, int32 (s.pos + nr), s.moved ++ bytes⟩)

/-- The common body of `blkdev_read` and `blkdev_write` in front of the last `return`, with the
error, or 0. -/
def blkdevIo (env : Env Bytes) (current : ℕ) (rw : Rw) (cache : Cache Bytes) (ip : InodeM)
    (ubuf : Bytes) (count : ℕ) (pos : ℤ) : Except Halt (Sectors × ℤ) :=
  let c := int32 count
  let dev := ip.iBlock 0
  if c < 0 then .ok (⟨cache, c, pos, []⟩, -eoverflow)
  else if pos < 0 then .ok (⟨cache, c, pos, []⟩, -efbig)
  else if ¬isBlockdev dev then .ok (⟨cache, c, pos, []⟩, -enxio)
  else run .endless (blkdevTurn env current dev rw ubuf) (c.toNat + 2) ⟨cache, c, pos, []⟩

/-- The value which is returned at the end is `c - count`. -/
def blkdevRet (count : ℕ) (s : Sectors) (err : ℤ) : ℤ :=
  if err ≠ 0 then err else int32 (s.c - count)

/-- `blkdev_read` -/
def blkdevRead (env : Env Bytes) (current : ℕ) (cache : Cache Bytes) (ip : InodeM) (count : ℕ)
    (pos : ℤ) : Except Halt BlkdevResult := do
  let (s, err) ← blkdevIo env current .read cache ip (fun _ => 0#8) count pos
  .ok ⟨blkdevRet count s err, s.pos, s.moved, s.cache, ip⟩

/-- `blkdev_write` -/
def blkdevWrite (env : Env Bytes) (current : ℕ) (cache : Cache Bytes) (ip : InodeM) (ubuf : Bytes)
    (count : ℕ) (pos : ℤ) : Except Halt BlkdevResult := do
  let (s, err) ← blkdevIo env current .write cache ip ubuf count pos
  .ok ⟨blkdevRet count s err, s.pos, s.moved, s.cache,
    if err ≠ 0 then ip else { ip with modified := true }⟩

/-! ## The bytes of a device -/

/-- The bytes of the device once the cache has been flushed.  Without a file system on the device
they are counted in sectors. -/
def flushedBytes (env : Env Bytes) (current dev : ℕ) (cache : Cache Bytes) : Except Halt Bytes :=
  let size := if env.blocksize dev = 0 then sectorSize else env.blocksize dev
  (cache.bufferSync env current).map fun c a => c.disk dev (a / size) (a % size)

/-- `blkdev_read` moves all bytes from the device, as a flush leaves it, and the position. -/
def BlkdevReads (env : Env Bytes) (current : ℕ) (cache : Cache Bytes) (ip : InodeM)
    (count pos : ℕ) : Prop :=
  ∃ r, blkdevRead env current cache ip count pos = .ok r ∧ r.ret = count ∧
    (∀ bytes, flushedBytes env current (ip.iBlock 0) cache = .ok bytes →
      r.moved = (List.range count).map fun i => bytes (pos + i)) ∧
    r.pos = pos + count

/-- `blkdev_write` stores all bytes at the position, no others, and moves it. -/
def BlkdevWrites (env : Env Bytes) (current : ℕ) (cache : Cache Bytes) (ip : InodeM)
    (ubuf : Bytes) (count pos : ℕ) : Prop :=
  ∃ r, blkdevWrite env current cache ip ubuf count pos = .ok r ∧ r.ret = count ∧
    flushedBytes env current (ip.iBlock 0) r.cache =
      (flushedBytes env current (ip.iBlock 0) cache).map (fun bytes a =>
        if pos ≤ a ∧ a < pos + count then ubuf (a - pos) else bytes a) ∧
    r.pos = pos + count

/-! ## What a transfer returns -/

variable {env : Env Bytes} {current dev count pos : ℕ} {cache : Cache Bytes} {ip : InodeM}
  {ubuf : Bytes} {rw : Rw} {s s' : Sectors} {err : ℤ}

theorem sectorChunk_bounds (pos : ℤ) {c : ℤ} (hc : 0 < c) :
    0 < sectorChunk pos c ∧ sectorChunk pos c ≤ c := by
  have hlt := Int.tmod_lt_of_pos pos (b := sectorSize) (by decide)
  unfold sectorChunk
  dsimp only
  split <;> omega

theorem copySector_length (rw : Rw) (ubuf : Bytes) (done : ℕ) (cache : Cache Bytes)
    (bp : BufferPtr) (data : Bytes) (off nr : ℕ) :
    (copySector rw ubuf done cache bp data off nr).2.length = nr := by
  cases rw <;> simp [copySector]

/-- What the turns keep: the sum of the bytes copied and those left. -/
structure Sectors.Counts (count : ℕ) (s : Sectors) : Prop where
  sum : s.c + s.moved.length = count
  left : 0 ≤ s.c

/-- The loop ends with an error or with all bytes copied. -/
theorem blkdevTurn_counts {y : (Sectors × ℤ) ⊕ Sectors} (h : s.Counts count)
    (hturn : blkdevTurn env current dev rw ubuf s = .ok y) :
    y.elim (fun r => r.1.Counts count ∧ (r.2 = 0 ∧ r.1.c = 0 ∨ r.2 = -eio))
      (Sectors.Counts count) := by
  unfold blkdevTurn at hturn
  split at hturn
  next hzero =>
    rw [← Except.ok.inj hturn]
    exact ⟨h, Or.inl ⟨rfl, hzero⟩⟩
  next hc =>
    obtain ⟨⟨bp, cache₁⟩, -, hrest⟩ := bind_eq_ok.mp hturn
    obtain ⟨⟨cache₂, ok⟩, -, hrest⟩ := bind_eq_ok.mp hrest
    dsimp only at hrest
    split at hrest
    next =>
      obtain ⟨cache₃, -, hret⟩ := bind_eq_ok.mp hrest
      rw [← Except.ok.inj hret]
      exact ⟨⟨h.sum, h.left⟩, Or.inr rfl⟩
    next =>
      split at hrest
      next => cases hrest
      next data _ =>
        split at hrest
        next => cases hrest
        next =>
          obtain ⟨cache₃, -, hret⟩ := bind_eq_ok.mp hrest
          have hleft := h.left
          have hsum := h.sum
          obtain ⟨hpos, hle⟩ := sectorChunk_bounds s.pos (lt_of_le_of_ne hleft (Ne.symm hc))
          rw [← Except.ok.inj hret]
          refine ⟨?_, by dsimp only; omega⟩
          dsimp only
          rw [List.length_append, copySector_length]
          omega

/-- A transfer comes back with an error, or all bytes have been copied. -/
theorem blkdevIo_counts {pos : ℤ} (hcount : count < 2 ^ 32)
    (h : blkdevIo env current rw cache ip ubuf count pos = .ok (s, err)) :
    err < 0 ∨ err = 0 ∧ count < 2 ^ 31 ∧ s.c = 0 ∧ s.moved.length = count := by
  unfold blkdevIo at h
  dsimp only at h
  split at h
  next =>
    rw [← (Prod.mk.inj (Except.ok.inj h)).2]
    exact Or.inl (by decide)
  next hc =>
    have hsmall : count < 2 ^ 31 := by
      by_contra hlarge
      rw [int32_high (Nat.not_lt.mp hlarge) hcount] at hc
      omega
    split at h
    next =>
      rw [← (Prod.mk.inj (Except.ok.inj h)).2]
      exact Or.inl (by decide)
    next =>
      split at h
      next =>
        rw [← (Prod.mk.inj (Except.ok.inj h)).2]
        exact Or.inl (by decide)
      next =>
        rw [int32_natCast hsmall] at h
        obtain ⟨hcounts, ⟨herr, hzero⟩ | herr⟩ := run_invariant (Sectors.Counts count)
          (fun r : Sectors × ℤ => r.1.Counts count ∧ (r.2 = 0 ∧ r.1.c = 0 ∨ r.2 = -eio))
          (fun s y hs => blkdevTurn_counts hs) ⟨by simp, by simp⟩ h
        · have hsum := hcounts.sum
          dsimp only at herr hzero hsum
          exact Or.inr ⟨herr, hsmall, hzero, by omega⟩
        · dsimp only at herr
          rw [herr]
          exact Or.inl (by decide)

/-- What is returned is an error, or the number of bytes with the wrong sign. -/
theorem blkdevRet_nonpos {pos : ℤ} (hcount : count < 2 ^ 32)
    (h : blkdevIo env current rw cache ip ubuf count pos = .ok (s, err)) :
    blkdevRet count s err < 0 ∨ blkdevRet count s err = -count ∧ s.moved.length = count := by
  unfold blkdevRet
  rcases blkdevIo_counts hcount h with hneg | ⟨rfl, hsmall, hzero, hlength⟩
  · rw [if_pos hneg.ne]
    exact Or.inl hneg
  · rw [if_neg (by simp), hzero]
    have hvalue : int32 (0 - count) = -count := by
      rw [zero_sub]
      exact Int.bmod_eq_of_le (by omega) (by omega)
    exact Or.inr ⟨hvalue, hlength⟩

/-- Nothing is copied without a count. -/
theorem blkdevIo_zero (hdev : isBlockdev (ip.iBlock 0)) :
    blkdevIo env current rw cache ip ubuf 0 pos = .ok (⟨cache, 0, pos, []⟩, 0) := by
  unfold blkdevIo
  rw [if_neg (by decide), if_neg (by omega), if_neg (not_not_intro hdev)]
  rfl

/-! ## Transfers of bytes -/

theorem blkdevReads_iff (hdev : isBlockdev (ip.iBlock 0)) (hcount : count < 2 ^ 32) :
    BlkdevReads env current cache ip count pos ↔ count = 0 := by
  constructor
  · rintro ⟨r, hr, hret, -⟩
    obtain ⟨⟨s, err⟩, hio, hrest⟩ := bind_eq_ok.mp hr
    have hvalue := blkdevRet_nonpos hcount hio
    rw [← Except.ok.inj hrest] at hret
    dsimp only at hret
    omega
  · rintro rfl
    refine ⟨_, by rw [blkdevRead, blkdevIo_zero hdev, ok_bind], rfl, ?_, rfl⟩
    intro _ _
    rfl

theorem blkdevWrites_iff (hdev : isBlockdev (ip.iBlock 0)) (hcount : count < 2 ^ 32) :
    BlkdevWrites env current cache ip ubuf count pos ↔ count = 0 := by
  constructor
  · rintro ⟨r, hr, hret, -⟩
    obtain ⟨⟨s, err⟩, hio, hrest⟩ := bind_eq_ok.mp hr
    have hvalue := blkdevRet_nonpos hcount hio
    rw [← Except.ok.inj hrest] at hret
    dsimp only at hret
    omega
  · rintro rfl
    refine ⟨_, by rw [blkdevWrite, blkdevIo_zero hdev, ok_bind], rfl, ?_, rfl⟩
    cases flushedBytes env current (ip.iBlock 0) cache with
    | error e => rfl
    | ok bytes =>
        refine congrArg Except.ok (funext fun a => ?_)
        exact (if_neg (by omega)).symm

/-- Block special files address bytes correctly exactly if there are no bytes to address. -/
theorem blkdev_exact_iff (env : Env Bytes) (current : ℕ) (cache : Cache Bytes) (ip : InodeM)
    (ubuf : Bytes) (count pos : ℕ) (hdev : isBlockdev (ip.iBlock 0)) (hcount : count < 2 ^ 32) :
    (BlkdevReads env current cache ip count pos ↔ count = 0) ∧
      (BlkdevWrites env current cache ip ubuf count pos ↔ count = 0) :=
  ⟨blkdevReads_iff hdev hcount, blkdevWrites_iff hdev hcount⟩

/-- The node of the first drive. -/
def driveNode : InodeM :=
  { newFile 128 9 0x61A4 0x300 with iBlock := fun i => if i = 0 then 0x300 else 0 }

/-- An empty cache in front of a drive on which every byte is 7.  Other than `buffer_init` leaves
it, the free list leads back from its head to the last buffer. -/
def coldCache : Cache Bytes :=
  let c : Cache Bytes := bufferInit (fun _ => zeroBuffer) fun _ _ _ => 7#8
  { c with ptrs := { c.ptrs with free := { c.ptrs.free with
      prev := Function.update c.ptrs.free.prev .freeList (some (.entry ⟨127, by decide⟩)) } } }

/-- A file system on the drive with blocks of 1 KiB. -/
def kibEnv : Env Bytes := ⟨fun _ => 1024, fun _ => true, fun _ _ => 0#8⟩

theorem blkdev_exact_none :
    (BlkdevReads kibEnv 1 coldCache driveNode 0 5 ↔ 0 = 0) ∧
      (BlkdevWrites kibEnv 1 coldCache driveNode (fun _ => 1#8) 0 5 ↔ 0 = 0) :=
  blkdev_exact_iff kibEnv 1 coldCache driveNode (fun _ => 1#8) 0 5 (by decide) (by decide)

/-- Two bytes are read, and the result is -2. -/
theorem not_blkdevReads_two :
    ¬∀ (env : Env Bytes) (current : ℕ) (cache : Cache Bytes) (ip : InodeM) (count pos : ℕ),
      isBlockdev (ip.iBlock 0) → count < 2 ^ 32 → BlkdevReads env current cache ip count pos := by
  intro hall
  obtain ⟨r, hr, hret, -⟩ := hall kibEnv 1 coldCache driveNode 2 5 (by decide) (by decide)
  have hrun : (blkdevRead kibEnv 1 coldCache driveNode 2 (5 : ℕ)).map
      (fun r => (r.ret, r.pos, r.moved)) = .ok (-2, 7, [7#8, 7#8]) := by decide +kernel
  rw [hr] at hrun
  have htwo : r.ret = -2 := (Prod.mk.inj (Except.ok.inj hrun)).1
  rw [htwo] at hret
  exact absurd hret (by decide)

end Yak.Ext2
