import Yak.BlockBitmap
import Yak.WordMemory

/-!
# Superblock and group descriptors on disk

A transcription of `ext2_sync`, of `write_inode` and of the reads of `ext2_init`.  Structures
are the bytes which they are in memory, and the disk is the bytes which the buffer cache has
written back.  `ext2_init` reads into a buffer of 1024 bytes.
-/

namespace Yak.Ext2

open ByteBitmap WordMemory

/-! ## Structures as bytes -/

def load16 (mem : Bytes) (a : ℕ) : ℕ := (mem a).toNat + 2 ^ 8 * (mem (a + 1)).toNat

theorem load16_congr {mem mem' : Bytes} {a : ℕ} (h : ∀ x, a ≤ x → x < a + 2 → mem' x = mem x) :
    load16 mem' a = load16 mem a := by
  unfold load16
  rw [h a (by omega) (by omega), h (a + 1) (by omega) (by omega)]

/-- `sizeof(struct ext2_superblock)` -/
def superblockSize : ℕ := 236

/-- `sizeof(struct ext2_blk_group_desc)` -/
def groupDescSize : ℕ := 32

/-- `sizeof(struct ext2_inode)` -/
def inodeSize : ℕ := 128

/-- `EXT2_SB_OFF` -/
def sbOff : ℕ := 1024

def defaultBlockSize : ℕ := 1024

/-- Where `s_wtime` is in the superblock. -/
def wtimeOff : ℕ := 48

/-- The fields of `struct ext2_superblock`. -/
def Superblock.ofBytes (b : Bytes) : Superblock where
  sInodesCount := load32 b 0
  sBlocksCount := load32 b 4
  sFreeBlocksCount := load32 b 12
  sFreeInodesCount := load32 b 16
  sFirstDataBlock := load32 b 20
  sLogBlockSize := load32 b 24
  sBlocksPerGroup := load32 b 32
  sInodesPerGroup := load32 b 40
  sMagic := load16 b 56
  sState := load16 b 58
  sErrors := load16 b 60
  sRevLevel := load32 b 76
  sFirstIno := load32 b 84

/-- Two superblocks with the same fields, `s_wtime` apart. -/
def SameFields (b b' : Bytes) : Prop :=
  ∀ i < superblockSize, i < wtimeOff ∨ wtimeOff + 4 ≤ i → b' i = b i

variable {b b' b'' : Bytes}

theorem SameFields.refl (b : Bytes) : SameFields b b := fun _ _ _ => rfl

theorem SameFields.trans (h : SameFields b b') (h' : SameFields b' b'') : SameFields b b'' :=
  fun i hi hw => (h' i hi hw).trans (h i hi hw)

theorem SameFields.symm (h : SameFields b b') : SameFields b' b :=
  fun i hi hw => (h i hi hw).symm

theorem SameFields.load16 (h : SameFields b b') {a : ℕ} (hlow : wtimeOff + 4 ≤ a)
    (hhigh : a + 2 ≤ superblockSize) : Ext2.load16 b' a = Ext2.load16 b a := by
  apply load16_congr
  intro x hx hx'
  exact h x (by omega) (Or.inr (by omega))

theorem SameFields.load32 (h : SameFields b b') {a : ℕ}
    (ha : a + 4 ≤ wtimeOff ∨ wtimeOff + 4 ≤ a) (hhigh : a + 4 ≤ superblockSize) :
    WordMemory.load32 b' a = WordMemory.load32 b a := by
  apply load32_congr
  intro x hx hx'
  exact h x (by omega) (by omega)

theorem SameFields.ofBytes (h : SameFields b b') :
    Superblock.ofBytes b' = Superblock.ofBytes b := by
  have h32 : ∀ a, a + 4 ≤ 48 ∨ 52 ≤ a → a + 4 ≤ 236 →
      WordMemory.load32 b' a = WordMemory.load32 b a := fun _ ha hhigh => h.load32 ha hhigh
  have h16 : ∀ a, 52 ≤ a → a + 2 ≤ 236 → Ext2.load16 b' a = Ext2.load16 b a :=
    fun _ hlow hhigh => h.load16 hlow hhigh
  unfold Superblock.ofBytes
  simp (disch := omega) only [h32, h16]

theorem sameFields_wtime (b : Bytes) (now : ℕ) : SameFields b (store32 b wtimeOff now) :=
  fun _ _ hw => store32_apply hw

/-! ## Writing -/

/-- `n` bytes at an offset of a block. -/
def storeInBlock (disk : Bytes) (blksize blknr off n : ℕ) (data : Bytes) : Except Halt Bytes :=
  if blksize < off + n then .error .outOfBounds
  else .ok fun a =>
    if blknr * blksize + off ≤ a ∧ a < blknr * blksize + off + n then
      data (a - (blknr * blksize + off))
    else disk a

/-- `struct ext2_superblock_m`.  The fields are those which `ext2_init` has accepted. -/
structure SuperM where
  sb : Bytes
  bgdTable : Bytes
  nrBlkGroup : ℕ
  modified : Bool
  accepted : (Superblock.ofBytes sb).ext2Init = .ok nrBlkGroup

/-- An inode of the cache with `I_MODIFIED`. -/
structure ModifiedInode where
  iNum : ℕ
  iIno : Bytes

namespace SuperM

def fields (s : SuperM) : Superblock := Superblock.ofBytes s.sb

/-- `EXT2_BLOCKSIZE` -/
def blocksize (s : SuperM) : ℕ := s.fields.blocksize

/-- `EXT2_INODE_SIZE` -/
def inodeBytes (s : SuperM) : ℕ := if 1 ≤ s.fields.sRevLevel then load16 s.sb 88 else 128

def setWtime (s : SuperM) (now : ℕ) : SuperM where
  sb := store32 s.sb wtimeOff now
  bgdTable := s.bgdTable
  nrBlkGroup := s.nrBlkGroup
  modified := s.modified
  accepted := by
    rw [(sameFields_wtime s.sb now).ofBytes]
    exact s.accepted

/-- `ext2_sync_super` -/
def syncSuper (s : SuperM) (now : ℕ) (disk : Bytes) : Except Halt (SuperM × Bytes) :=
  if s.modified then do
    let disk ← storeInBlock disk s.blocksize (s.blocksize / sbOff) (s.blocksize % sbOff)
      superblockSize s.sb
    .ok (s.setWtime now, disk)
  else .ok (s, disk)

/-- `ext2_sync_bgd_table` -/
def syncBgdTable (s : SuperM) (disk : Bytes) : Except Halt Bytes :=
  if s.modified then
    storeInBlock disk s.blocksize (s.blocksize / sbOff + 1) 0 (s.nrBlkGroup * groupDescSize)
      s.bgdTable
  else .ok disk

/-- `EXT2_BLOCK_GROUP` -/
def inodeGroup (s : SuperM) (num : ℕ) : ℕ := Fs.decr 32 num / s.fields.sInodesPerGroup

/-- `EXT2_INODE_INDEX` -/
def inodeIndex (s : SuperM) (num : ℕ) : ℕ := Fs.decr 32 num % s.fields.sInodesPerGroup

/-- `EXT2_INODE_INDEX` as the `int` of `write_inode`. -/
def intIndex (s : SuperM) (num : ℕ) : ℤ := (s.inodeIndex num : ℤ).bmod (2 ^ 32)

/-- `EXT2_BLOCKSIZE` as an `int`. -/
def intBlocksize (s : SuperM) : ℤ := (s.blocksize : ℤ).bmod (2 ^ 32)

/-- The block of the inode table which `write_inode` reads. -/
def inodeBlock (s : SuperM) (num : ℕ) : ℕ :=
  (((s.intIndex num * s.inodeBytes).bmod (2 ^ 32) |>.tdiv s.intBlocksize) +
    load32 s.bgdTable (groupDescSize * s.inodeGroup num + 8)).emod (2 ^ 32) |>.toNat

/-- The offset in the block.  One in front of the block counts as one far behind it. -/
def inodeOff (s : SuperM) (num : ℕ) : ℕ :=
  (s.inodeBytes * (s.intIndex num).tmod (s.intBlocksize.tdiv s.inodeBytes)).emod (2 ^ 32) |>.toNat

/-- `write_inode` -/
def writeInode (s : SuperM) (ip : ModifiedInode) (disk : Bytes) : Except Halt Bytes :=
  if s.nrBlkGroup ≤ s.inodeGroup ip.iNum then .error .outOfBounds
  else if s.inodeBytes = 0 ∨ s.blocksize / s.inodeBytes = 0 then .error .divideByZero
  else storeInBlock disk s.blocksize (s.inodeBlock ip.iNum) (s.inodeOff ip.iNum) inodeSize ip.iIno

/-- `ext2_sync`, with the modified inodes in the order of the cache.  They are referenced, so
that `ext2_iput` only takes back what `ext2_inode_sync` has added. -/
def sync (s : SuperM) (inodes : List ModifiedInode) (now : ℕ) (disk : Bytes) :
    Except Halt (SuperM × Bytes) := do
  let (s, disk) ← s.syncSuper now disk
  let disk ← s.syncBgdTable disk
  let disk ← inodes.foldlM (fun disk ip => s.writeInode ip disk) disk
  .ok (s, disk)

end SuperM

/-! ## Reading -/

/-- The superblock, the number of groups and the descriptors which `ext2_init` gets.  The
second read goes into the buffer of the first. -/
def initReads (disk : Bytes) : Except Halt (Bytes × ℕ × Bytes) := do
  let data : Bytes := fun i => disk (1 * defaultBlockSize + i)
  let nr ← (Superblock.ofBytes data).ext2Init
  let blksize := (Superblock.ofBytes data).blocksize
  let blknr := if blksize = 1024 then 2 else 1
  if defaultBlockSize < blksize then .error .outOfBounds
  else if defaultBlockSize < nr * groupDescSize then .error .outOfBounds
  else .ok (data, nr, fun i => if i < blksize then disk (blknr * blksize + i) else data i)

/-- What has been read has passed the checks and fits into the buffer. -/
theorem of_initReads {disk sb table : Bytes} {nr : ℕ}
    (h : initReads disk = .ok (sb, nr, table)) :
    sb = (fun i => disk (1 * defaultBlockSize + i)) ∧ (Superblock.ofBytes sb).ext2Init = .ok nr ∧
      (Superblock.ofBytes sb).blocksize ≤ defaultBlockSize ∧
      nr * groupDescSize ≤ defaultBlockSize := by
  obtain ⟨nr', hinit, hrest⟩ := bind_eq_ok.mp h
  dsimp only at hrest
  by_cases hsize : defaultBlockSize <
      (Superblock.ofBytes fun i => disk (1 * defaultBlockSize + i)).blocksize
  · rw [if_pos hsize] at hrest
    cases hrest
  · rw [if_neg hsize] at hrest
    by_cases hfit : defaultBlockSize < nr' * groupDescSize
    · rw [if_pos hfit] at hrest
      cases hrest
    · rw [if_neg hfit] at hrest
      obtain ⟨rfl, hpair⟩ := Prod.mk.inj (Except.ok.inj hrest)
      obtain ⟨rfl, -⟩ := Prod.mk.inj hpair
      exact ⟨rfl, hinit, Nat.not_lt.mp hsize, Nat.not_lt.mp hfit⟩

/-- The descriptors of blocks of 1024 bytes are read from block 2. -/
theorem initReads_small {disk : Bytes} {nr : ℕ}
    (hinit : (Superblock.ofBytes fun i => disk (1 * defaultBlockSize + i)).ext2Init = .ok nr)
    (hsize : (Superblock.ofBytes fun i => disk (1 * defaultBlockSize + i)).blocksize = 1024)
    (hgroups : nr ≤ 32) :
    initReads disk = .ok (fun i => disk (1 * defaultBlockSize + i), nr, fun i =>
      if i < 1024 then disk (2 * 1024 + i) else disk (1 * defaultBlockSize + i)) := by
  have hfit : ¬defaultBlockSize < nr * groupDescSize := by
    unfold defaultBlockSize groupDescSize
    omega
  unfold initReads
  dsimp only
  rw [hinit, ok_bind, hsize]
  exact (if_neg (Nat.lt_irrefl _)).trans (if_neg hfit)

/-! ## What is written can be read -/

namespace SuperM

/-- Where the entry of an inode is. -/
def inodeAt (s : SuperM) (num : ℕ) : ℕ := s.inodeBlock num * s.blocksize + s.inodeOff num

/-- The descriptors are in the block behind that of the superblock. -/
def tableAt (s : SuperM) : ℕ := if s.blocksize = 1024 then 2 * 1024 else s.blocksize

/-- An inode of the file system, whose entry fits and lies behind the descriptors. -/
structure InPlace (s : SuperM) (num : ℕ) : Prop where
  group : s.inodeGroup num < s.nrBlkGroup
  perBlock : s.inodeBytes ≠ 0 ∧ s.blocksize / s.inodeBytes ≠ 0
  fits : s.inodeOff num + inodeSize ≤ s.blocksize
  behind : s.tableAt + s.nrBlkGroup * groupDescSize ≤ s.inodeAt num

/-- The superblock, the descriptors, and the entries of the inodes. -/
def Written (s : SuperM) (inodes : List ModifiedInode) (a : ℕ) : Prop :=
  (sbOff ≤ a ∧ a < sbOff + superblockSize) ∨
    (s.tableAt ≤ a ∧ a < s.tableAt + s.nrBlkGroup * groupDescSize) ∨
    ∃ ip ∈ inodes, s.inodeAt ip.iNum ≤ a ∧ a < s.inodeAt ip.iNum + inodeSize

/-- After `ext2_sync` the reads of `ext2_init` give what is in memory, and nothing else on the
disk has changed. -/
def Persists (s : SuperM) (inodes : List ModifiedInode) (now : ℕ) (disk : Bytes) : Prop :=
  ∃ s' disk' sb table, s.sync inodes now disk = .ok (s', disk') ∧
    initReads disk' = .ok (sb, s'.nrBlkGroup, table) ∧ SameFields s'.sb sb ∧
    s'.bgdTable = s.bgdTable ∧ s'.nrBlkGroup = s.nrBlkGroup ∧
    (∀ i < s'.nrBlkGroup * groupDescSize, table i = s'.bgdTable i) ∧
    ∀ a, ¬s.Written inodes a → disk' a = disk a

variable {s s' : SuperM} {inodes : List ModifiedInode} {ip : ModifiedInode} {now : ℕ}
  {disk disk' : Bytes}

theorem setWtime_fields : (s.setWtime now).fields = s.fields := (sameFields_wtime s.sb now).ofBytes

theorem setWtime_inodeBytes : (s.setWtime now).inodeBytes = s.inodeBytes := by
  unfold inodeBytes
  rw [setWtime_fields]
  rw [← (sameFields_wtime s.sb now).load16 (a := 88) (by decide) (by decide)]
  rfl

theorem setWtime_writeInode : (s.setWtime now).writeInode ip disk = s.writeInode ip disk := by
  have hblocksize : (s.setWtime now).blocksize = s.blocksize := by
    unfold blocksize
    rw [setWtime_fields]
  have hgroup : (s.setWtime now).inodeGroup ip.iNum = s.inodeGroup ip.iNum := by
    unfold inodeGroup
    rw [setWtime_fields]
  have hindex : (s.setWtime now).inodeIndex ip.iNum = s.inodeIndex ip.iNum := by
    unfold inodeIndex
    rw [setWtime_fields]
  unfold writeInode inodeBlock inodeOff intIndex intBlocksize
  rw [hblocksize, hgroup, hindex, setWtime_inodeBytes]
  rfl

theorem InPlace.writeInode (h : s.InPlace ip.iNum) (disk : Bytes) :
    s.writeInode ip disk = .ok fun a =>
      if s.inodeAt ip.iNum ≤ a ∧ a < s.inodeAt ip.iNum + inodeSize then
        ip.iIno (a - s.inodeAt ip.iNum)
      else disk a := by
  unfold SuperM.writeInode storeInBlock inodeAt
  rw [if_neg (Nat.not_le.mpr h.group), if_neg (not_or.mpr h.perBlock),
    if_neg (Nat.not_lt.mpr h.fits)]

theorem writeInodes (now : ℕ) (disk : Bytes) (h : ∀ ip ∈ inodes, s.InPlace ip.iNum) :
    ∃ disk', inodes.foldlM (fun disk ip => (s.setWtime now).writeInode ip disk) disk = .ok disk' ∧
      ∀ a, (∀ ip ∈ inodes, ¬(s.inodeAt ip.iNum ≤ a ∧ a < s.inodeAt ip.iNum + inodeSize)) →
        disk' a = disk a := by
  induction inodes generalizing disk with
  | nil => exact ⟨disk, rfl, fun _ _ => rfl⟩
  | cons ip inodes ih =>
      obtain ⟨disk', hrun, hsame⟩ := ih _ fun ip' hip' => h ip' (List.mem_cons_of_mem ip hip')
      refine ⟨disk', ?_, ?_⟩
      · rw [List.foldlM_cons, setWtime_writeInode, (h ip List.mem_cons_self).writeInode, ok_bind]
        exact hrun
      · intro a ha
        rw [hsame a fun ip' hip' => ha ip' (List.mem_cons_of_mem ip hip'),
          if_neg (ha ip List.mem_cons_self)]

/-- With blocks of 1024 bytes, and descriptors which fit into one. -/
theorem sync_small (now : ℕ) (disk : Bytes) (hmod : s.modified = true) (hsize : s.blocksize = 1024)
    (hgroups : s.nrBlkGroup ≤ 32) (hin : ∀ ip ∈ inodes, s.InPlace ip.iNum) :
    ∃ disk', s.sync inodes now disk = .ok (s.setWtime now, disk') ∧
      (∀ i < superblockSize, disk' (sbOff + i) = s.sb i) ∧
      (∀ i < s.nrBlkGroup * groupDescSize, disk' (s.tableAt + i) = s.bgdTable i) ∧
      ∀ a, ¬s.Written inodes a → disk' a = disk a := by
  have hsize' : (s.setWtime now).blocksize = 1024 := by
    unfold blocksize
    rw [setWtime_fields]
    exact hsize
  have htable : s.tableAt = 2048 := if_pos hsize
  have hfit : s.nrBlkGroup * groupDescSize ≤ 1024 := by
    unfold groupDescSize
    omega
  have hsuper : s.syncSuper now disk = .ok (s.setWtime now, fun a =>
      if 1024 ≤ a ∧ a < 1024 + superblockSize then s.sb (a - 1024) else disk a) := by
    unfold syncSuper storeInBlock sbOff superblockSize
    rw [if_pos hmod, hsize]
    rfl
  have hbgd : ∀ disk, (s.setWtime now).syncBgdTable disk = .ok fun a =>
      if 2048 ≤ a ∧ a < 2048 + s.nrBlkGroup * groupDescSize then s.bgdTable (a - 2048)
      else disk a := by
    intro disk
    have hmod' : (s.setWtime now).modified = true := hmod
    have hnr : (s.setWtime now).nrBlkGroup = s.nrBlkGroup := rfl
    unfold syncBgdTable storeInBlock sbOff
    rw [if_pos hmod', hsize', hnr, if_neg (by omega)]
    rfl
  obtain ⟨disk', hrun, hsame⟩ := writeInodes now (fun a =>
    if 2048 ≤ a ∧ a < 2048 + s.nrBlkGroup * groupDescSize then s.bgdTable (a - 2048)
    else if 1024 ≤ a ∧ a < 1024 + superblockSize then s.sb (a - 1024) else disk a) hin
  have hfree : ∀ a < 2048 + s.nrBlkGroup * groupDescSize, ∀ ip ∈ inodes,
      ¬(s.inodeAt ip.iNum ≤ a ∧ a < s.inodeAt ip.iNum + inodeSize) := by
    intro a ha ip hip hat
    have hbehind := (hin ip hip).behind
    rw [htable] at hbehind
    omega
  refine ⟨disk', ?_, ?_, ?_, ?_⟩
  · unfold sync
    rw [hsuper, ok_bind]
    dsimp only
    rw [hbgd, ok_bind, hrun, ok_bind]
  · intro i hi
    unfold superblockSize at hi
    unfold sbOff
    rw [hsame _ (hfree _ (by omega)), if_neg (by omega), if_pos (by unfold superblockSize; omega),
      Nat.add_sub_cancel_left]
  · intro i hi
    rw [htable, hsame _ (hfree _ (by omega)), if_pos (by omega), Nat.add_sub_cancel_left]
  · intro a ha
    unfold Written at ha
    rw [htable, not_or, not_or] at ha
    obtain ⟨hsb, htab, hino⟩ := ha
    rw [hsame a fun ip hip hat => hino ⟨ip, hip, hat⟩, if_neg htab]
    exact if_neg hsb

theorem blocksize_of_log_zero (h : s.fields.sLogBlockSize = 0) : s.blocksize = 1024 :=
  Superblock.blocksize_of_log_zero h

theorem larger_blocksize (hlog : s.fields.sLogBlockSize < 22) (hne : s.fields.sLogBlockSize ≠ 0) :
    2048 ≤ s.blocksize :=
  Superblock.larger_blocksize hlog hne

theorem sync_fields {inodes : List ModifiedInode} (h : s.sync inodes now disk = .ok (s', disk')) :
    SameFields s.sb s'.sb := by
  obtain ⟨⟨s₁, disk₁⟩, hsuper, hrest⟩ := bind_eq_ok.mp h
  obtain ⟨disk₂, _, hrest⟩ := bind_eq_ok.mp hrest
  obtain ⟨disk₃, _, hret⟩ := bind_eq_ok.mp hrest
  obtain ⟨rfl, -⟩ := Prod.mk.inj (Except.ok.inj hret)
  unfold syncSuper at hsuper
  split at hsuper
  next =>
    obtain ⟨disk₄, _, hret⟩ := bind_eq_ok.mp hsuper
    obtain ⟨rfl, -⟩ := Prod.mk.inj (Except.ok.inj hret)
    exact sameFields_wtime s.sb now
  next =>
    obtain ⟨rfl, -⟩ := Prod.mk.inj (Except.ok.inj hsuper)
    exact SameFields.refl s.sb

/-- Superblock and descriptors come back exactly if blocks have 1024 bytes and there are at most
32 groups. -/
theorem persists_iff (s : SuperM) (inodes : List ModifiedInode) (now : ℕ) (disk : Bytes)
    (hlog : s.fields.sLogBlockSize < 22) (hmod : s.modified = true)
    (hin : ∀ ip ∈ inodes, s.InPlace ip.iNum) :
    s.Persists inodes now disk ↔ s.fields.sLogBlockSize = 0 ∧ s.nrBlkGroup ≤ 32 := by
  constructor
  · rintro ⟨s', disk', sb, table, hsync, hreads, hsame, -, hnr, -, -⟩
    obtain ⟨-, -, hsize, hfit⟩ := of_initReads hreads
    have hfields : Superblock.ofBytes sb = s.fields := ((sync_fields hsync).trans hsame).ofBytes
    rw [hfields] at hsize
    rw [hnr] at hfit
    unfold groupDescSize defaultBlockSize at hfit
    have hzero : s.fields.sLogBlockSize = 0 := by
      by_contra hne
      have hlarge := larger_blocksize hlog hne
      unfold blocksize at hlarge
      unfold defaultBlockSize at hsize
      omega
    exact ⟨hzero, by omega⟩
  · rintro ⟨hzero, hgroups⟩
    have hsize := blocksize_of_log_zero hzero
    have htable : s.tableAt = 2048 := if_pos hsize
    obtain ⟨disk', hsync, hsb, htab, hrest⟩ := sync_small now disk hmod hsize hgroups hin
    have hsame : SameFields s.sb fun i => disk' (1 * defaultBlockSize + i) :=
      fun i hi _ => hsb i hi
    have hinit : (Superblock.ofBytes fun i => disk' (1 * defaultBlockSize + i)).ext2Init =
        .ok s.nrBlkGroup := by
      rw [hsame.ofBytes]
      exact s.accepted
    have hblocks : (Superblock.ofBytes fun i => disk' (1 * defaultBlockSize + i)).blocksize =
        1024 := by
      rw [hsame.ofBytes]
      exact hsize
    have hreads := initReads_small hinit hblocks hgroups
    refine ⟨s.setWtime now, disk', _, _, hsync, hreads,
      (sameFields_wtime s.sb now).symm.trans hsame, rfl, rfl, ?_, hrest⟩
    intro i hi
    have hi' : i < s.nrBlkGroup * groupDescSize := hi
    have hlt : i < 1024 := by
      unfold groupDescSize at hi'
      omega
    have hread := htab i hi'
    rw [htable] at hread
    rw [if_pos hlt]
    exact hread

/-! ## Larger blocks -/

theorem storeInBlock_below {blksize blknr off n a : ℕ} {data : Bytes}
    (h : storeInBlock disk blksize blknr off n data = .ok disk') (ha : a < blknr * blksize + off) :
    disk' a = disk a := by
  unfold storeInBlock at h
  split at h
  next => cases h
  next =>
    obtain rfl := Except.ok.inj h
    exact if_neg fun hin => absurd hin.1 (Nat.not_le.mpr ha)

/-- With larger blocks `ext2_sync` does not reach the place of the superblock. -/
theorem sync_below (hlog : s.fields.sLogBlockSize < 22) (hne : s.fields.sLogBlockSize ≠ 0)
    (hin : ∀ ip ∈ inodes, s.InPlace ip.iNum)
    (h : s.sync inodes now disk = .ok (s', disk')) {a : ℕ} (ha : a < 2048) :
    disk' a = disk a := by
  have hlarge := larger_blocksize hlog hne
  have hquot : 2 ≤ s.blocksize / sbOff := (Nat.le_div_iff_mul_le (by decide)).mpr hlarge
  have hblock : ∀ b, 2 ≤ b → a < b * s.blocksize := by
    intro b hb
    have hle := Nat.mul_le_mul hb hlarge
    omega
  have htable : s.blocksize ≤ s.tableAt := by
    unfold tableAt
    split <;> omega
  obtain ⟨⟨s₁, disk₁⟩, hsuper, hrest⟩ := bind_eq_ok.mp h
  obtain ⟨disk₂, hbgd, hrest⟩ := bind_eq_ok.mp hrest
  obtain ⟨disk₃, hinodes, hret⟩ := bind_eq_ok.mp hrest
  obtain ⟨-, rfl⟩ := Prod.mk.inj (Except.ok.inj hret)
  have hfirst : disk₁ a = disk a ∧ (s₁ = s ∨ s₁ = s.setWtime now) := by
    unfold syncSuper at hsuper
    split at hsuper
    next =>
      obtain ⟨disk₄, hstore, hret⟩ := bind_eq_ok.mp hsuper
      obtain ⟨rfl, rfl⟩ := Prod.mk.inj (Except.ok.inj hret)
      have hat := hblock _ hquot
      exact ⟨storeInBlock_below hstore (by omega), Or.inr rfl⟩
    next =>
      obtain ⟨rfl, rfl⟩ := Prod.mk.inj (Except.ok.inj hsuper)
      exact ⟨rfl, Or.inl rfl⟩
  obtain ⟨hsame₁, hs₁⟩ := hfirst
  have hsize : s₁.blocksize = s.blocksize := by
    rcases hs₁ with rfl | rfl
    · rfl
    · unfold blocksize
      rw [setWtime_fields]
  have hsame₂ : disk₂ a = disk₁ a := by
    unfold syncBgdTable at hbgd
    rw [hsize] at hbgd
    split at hbgd
    next =>
      have hat := hblock (s.blocksize / sbOff + 1) (by omega)
      exact storeInBlock_below hbgd (by omega)
    next => exact congrFun (Except.ok.inj hbgd).symm a
  have hwrite : ∀ ip disk, s₁.writeInode ip disk = s.writeInode ip disk := by
    intro ip disk
    rcases hs₁ with rfl | rfl
    · rfl
    · exact setWtime_writeInode
  have hsame₃ : disk₃ a = disk₂ a := by
    refine foldlM_invariant (fun d : Bytes => d a = disk₂ a) ?_ rfl hinodes
    intro d ip d' hip hd hstep
    rw [hwrite, (hin ip hip).writeInode] at hstep
    obtain rfl := Except.ok.inj hstep
    have hbehind := (hin ip hip).behind
    dsimp only
    rw [if_neg (by omega), hd]
  rw [hsame₃, hsame₂, hsame₁]

/-! ## Two file systems -/

/-- One group of 16 blocks of 1024 or 2048 bytes, and 16 inodes. -/
def oneGroup (large : Bool) : SuperM where
  sb i :=
    if i = 0 ∨ i = 4 ∨ i = 32 ∨ i = 40 then 16#8
    else if i = 24 then (if large then 1#8 else 0#8)
    else if i = 56 then 0x53#8
    else if i = 57 then 0xEF#8
    else if i = 58 ∨ i = 60 then 1#8
    else 0#8
  bgdTable i := if i = 0 then 3#8 else if i = 4 then 4#8 else if i = 8 then 5#8 else 0#8
  nrBlkGroup := 1
  modified := true
  accepted := by cases large <;> decide

theorem inPlace_oneGroup : (oneGroup false).InPlace 2 where
  group := by decide
  perBlock := by decide
  fits := by decide
  behind := by decide

theorem persists_iff_oneGroup :
    (oneGroup false).Persists [⟨2, fun _ => 0x41#8⟩] 7 fun _ => 0#8 := by
  refine (persists_iff (oneGroup false) [⟨2, fun _ => 0x41#8⟩] 7 (fun _ => 0#8) (by decide +kernel) rfl
    ?_).mpr ⟨by decide +kernel, by decide +kernel⟩
  intro ip hip
  rw [List.mem_singleton.mp hip]
  exact inPlace_oneGroup

/-- With blocks of 2048 bytes the disk keeps its zeros where the superblock is read. -/
theorem not_persists_larger :
    ¬∀ (s : SuperM) (inodes : List ModifiedInode) (now : ℕ) (disk : Bytes),
      s.fields.sLogBlockSize < 22 → s.modified = true → (∀ ip ∈ inodes, s.InPlace ip.iNum) →
      s.Persists inodes now disk := by
  intro h
  obtain ⟨s', disk', sb, table, hsync, hreads, -⟩ :=
    h (oneGroup true) [] 7 (fun _ => 0#8) (by decide +kernel) rfl fun _ hip =>
      (List.not_mem_nil hip).elim
  have hzero : ∀ i < 1024, disk' (1 * defaultBlockSize + i) = 0#8 := fun i hi =>
    sync_below (by decide +kernel) (by decide +kernel)
      (fun _ hip => (List.not_mem_nil hip).elim) hsync (by unfold defaultBlockSize; omega)
  have hmagic : load16 (fun i => disk' (1 * defaultBlockSize + i)) 56 = 0 := by
    unfold load16
    dsimp only
    rw [hzero 56 (by omega), hzero (56 + 1) (by omega)]
    rfl
  have hpanic : (Superblock.ofBytes fun i => disk' (1 * defaultBlockSize + i)).ext2Init =
      .error (.panic "ext2_init: Root device not an ext2 filesystem") := by
    unfold Superblock.ext2Init
    apply if_pos
    unfold Superblock.ofBytes
    dsimp only
    rw [hmagic]
    decide
  unfold initReads at hreads
  dsimp only at hreads
  rw [hpanic] at hreads
  cases hreads

end SuperM

end Yak.Ext2
