import Mathlib.Algebra.Order.Floor.Div
import Yak.SuperOnDisk

/-!
# Which superblocks can be mounted

`ext2_init` divides by the sizes of the groups, and derives the number of groups from the inodes
and from the blocks.  It counts the blocks from block 0 on, but with blocks of 1024 bytes the
groups begin with block 1.
-/

namespace Yak.Ext2

open ByteBitmap

namespace Superblock

variable {sb : Superblock} {count per : ℕ}

/-- The number of groups which cover the blocks from `s_first_data_block` on. -/
def groups (sb : Superblock) : ℕ := (sb.sBlocksCount - sb.sFirstDataBlock) ⌈/⌉ sb.sBlocksPerGroup

/-- The superblock tells the kernel to panic. -/
def Failed (sb : Superblock) : Prop := sb.sState = ext2ErrorFs ∧ sb.sErrors = ext2ErrorsPanic

instance : Decidable sb.Failed := inferInstanceAs (Decidable (_ ∧ _))

structure Valid (sb : Superblock) : Prop where
  size : sb.sLogBlockSize < 22
  first : sb.sFirstDataBlock ≤ 1
  behind : sb.sFirstDataBlock < sb.sBlocksCount
  blocksPerGroup : sb.sBlocksPerGroup ≠ 0
  inodesPerGroup : sb.sInodesPerGroup ≠ 0
  inodes : sb.sInodesCount = sb.groups * sb.sInodesPerGroup
  state : ¬sb.Failed

/-- The divisors are not zero.  For a valid superblock, block 0 does not need a group of its own,
and one block of descriptors and the superblock fit into the buffer of 1024 bytes. -/
structure Mountable (sb : Superblock) : Prop where
  divisors : ¬sb.Failed → sb.sBlocksPerGroup ≠ 0 ∧ sb.sInodesPerGroup ≠ 0
  rounding : sb.Valid → sb.sFirstDataBlock = 1 → ¬sb.sBlocksPerGroup ∣ sb.sBlocksCount - 1
  buffer : sb.Valid → sb.sLogBlockSize = 0 ∧ sb.groups ≤ 32

/-! ## Rounding -/

theorem groupsFor_eq_ceilDiv (hper : per ≠ 0) : groupsFor count per = count ⌈/⌉ per := by
  have hsplit := Nat.div_add_mod count per
  have hlt := Nat.mod_lt count (Nat.pos_of_ne_zero hper)
  rw [Nat.ceilDiv_eq_add_pred_div]
  unfold groupsFor
  symm
  split
  next hzero =>
    rw [Nat.div_eq_iff (Nat.pos_of_ne_zero hper)]
    rw [hzero, Nat.mul_comm] at hsplit
    omega
  next hne =>
    rw [Nat.div_eq_iff (Nat.pos_of_ne_zero hper), Nat.succ_mul]
    rw [Nat.mul_comm] at hsplit
    omega

/-- One block more needs another group exactly if the groups were full. -/
theorem groupsFor_succ_eq_iff (hper : per ≠ 0) :
    groupsFor (count + 1) per = groupsFor count per ↔ ¬per ∣ count := by
  have hnext : groupsFor (count + 1) per = count / per + 1 := by
    rw [groupsFor_eq_ceilDiv hper, Nat.ceilDiv_eq_add_pred_div]
    have hsum : count + 1 + per - 1 = count + per := by omega
    rw [hsum, Nat.add_div_right _ (Nat.pos_of_ne_zero hper)]
  rw [hnext, Nat.dvd_iff_mod_eq_zero]
  unfold groupsFor
  split
  next hzero => simp [hzero]
  next hne => simp [hne]

theorem Valid.first_zero_or_one (h : sb.Valid) :
    sb.sFirstDataBlock = 0 ∨ sb.sFirstDataBlock = 1 := by
  have hfirst := h.first
  omega

/-- The two numbers of groups are the same. -/
theorem Valid.groupsFor_eq_iff (h : sb.Valid) :
    groupsFor sb.sBlocksCount sb.sBlocksPerGroup = sb.groups ↔
      (sb.sFirstDataBlock = 1 → ¬sb.sBlocksPerGroup ∣ sb.sBlocksCount - 1) := by
  have hbehind := h.behind
  unfold groups
  rw [← groupsFor_eq_ceilDiv h.blocksPerGroup]
  rcases h.first_zero_or_one with hzero | hone
  · simp [hzero]
  · rw [hone] at hbehind ⊢
    obtain ⟨behind, hcount⟩ := Nat.exists_eq_add_of_le' hbehind.le
    rw [hcount, Nat.add_sub_cancel, groupsFor_succ_eq_iff h.blocksPerGroup]
    simp

theorem Valid.groupsFor_inodes (h : sb.Valid) :
    groupsFor sb.sInodesCount sb.sInodesPerGroup = sb.groups := by
  unfold groupsFor
  rw [h.inodes, if_pos (Nat.mul_mod_left _ _),
    Nat.mul_div_left _ (Nat.pos_of_ne_zero h.inodesPerGroup)]

theorem Valid.ext2Init (h : sb.Valid) (hmagic : sb.sMagic = ext2Magic)
    (hrounding : sb.sFirstDataBlock = 1 → ¬sb.sBlocksPerGroup ∣ sb.sBlocksCount - 1) :
    sb.ext2Init = .ok sb.groups := by
  have hcounts := h.groupsFor_eq_iff.mpr hrounding
  have hstate : ¬(sb.sState = ext2ErrorFs ∧ sb.sErrors = ext2ErrorsPanic) := h.state
  have hdivisors : ¬(sb.sInodesPerGroup = 0 ∨ sb.sBlocksPerGroup = 0) :=
    not_or.mpr ⟨h.inodesPerGroup, h.blocksPerGroup⟩
  unfold Superblock.ext2Init
  rw [if_neg (not_not.mpr hmagic), if_neg hstate, if_neg hdivisors, h.groupsFor_inodes, hcounts,
    if_neg (not_not.mpr rfl)]

theorem Valid.rounding_of_ext2Init (h : sb.Valid) {nr : ℕ} (hinit : sb.ext2Init = .ok nr) :
    sb.sFirstDataBlock = 1 → ¬sb.sBlocksPerGroup ∣ sb.sBlocksCount - 1 := by
  rw [← h.groupsFor_eq_iff, ← h.groupsFor_inodes]
  unfold Superblock.ext2Init at hinit
  split_ifs at hinit with _ _ _ hcounts
  exact (not_not.mp hcounts).symm

theorem ext2Init_ne_divideByZero_iff (hmagic : sb.sMagic = ext2Magic) :
    sb.ext2Init ≠ .error .divideByZero ↔
      (¬sb.Failed → sb.sBlocksPerGroup ≠ 0 ∧ sb.sInodesPerGroup ≠ 0) := by
  unfold Superblock.ext2Init
  rw [if_neg (not_not.mpr hmagic)]
  by_cases hfailed : sb.Failed
  · have hstate : sb.sState = ext2ErrorFs ∧ sb.sErrors = ext2ErrorsPanic := hfailed
    simp [hfailed, hstate]
  · have hstate : ¬(sb.sState = ext2ErrorFs ∧ sb.sErrors = ext2ErrorsPanic) := hfailed
    rw [if_neg hstate]
    by_cases hzero : sb.sInodesPerGroup = 0 ∨ sb.sBlocksPerGroup = 0
    · rw [if_pos hzero]
      simp only [ne_eq, not_true_eq_false, hfailed, not_false_eq_true, true_implies, false_iff]
      rintro ⟨hblocks, hinodes⟩
      exact hzero.elim hinodes hblocks
    · rw [if_neg hzero]
      obtain ⟨hinodes, hblocks⟩ := not_or.mp hzero
      refine iff_of_true ?_ fun _ => ⟨hblocks, hinodes⟩
      split <;> simp

/-- The blocks behind the first data block are in the groups. -/
theorem block_lt_groups (hper : sb.sBlocksPerGroup ≠ 0) {block : ℕ}
    (hlow : sb.sFirstDataBlock ≤ block) (hhigh : block < sb.sBlocksCount) :
    (block - sb.sFirstDataBlock) / sb.sBlocksPerGroup < sb.groups := by
  have hpos := Nat.pos_of_ne_zero hper
  rw [Nat.div_lt_iff_lt_mul hpos, Nat.mul_comm]
  calc block - sb.sFirstDataBlock
      < sb.sBlocksCount - sb.sFirstDataBlock := by omega
    _ ≤ sb.sBlocksPerGroup * sb.groups := by
        have hle : sb.sBlocksCount - sb.sFirstDataBlock ≤ sb.sBlocksPerGroup • sb.groups :=
          le_smul_ceilDiv hpos
        rwa [smul_eq_mul] at hle

theorem Valid.inode_lt_groups (h : sb.Valid) {ino : ℕ} (hlow : 1 ≤ ino)
    (hhigh : ino ≤ sb.sInodesCount) : (ino - 1) / sb.sInodesPerGroup < sb.groups := by
  rw [Nat.div_lt_iff_lt_mul (Nat.pos_of_ne_zero h.inodesPerGroup), ← h.inodes]
  omega

end Superblock

/-! ## Mounting -/

/-- The superblock which `ext2_init` reads. -/
def superAt (disk : Bytes) : Superblock :=
  Superblock.ofBytes fun i => disk (1 * defaultBlockSize + i)

/-- Where the descriptors are on the disk. -/
def descriptorsAt (sb : Superblock) : ℕ := (if sb.blocksize = 1024 then 2 else 1) * sb.blocksize

/-- `ext2_init` does not divide by zero, and loads the descriptors of a valid superblock, those
of all its blocks and inodes. -/
def MountsWell (disk : Bytes) : Prop :=
  initReads disk ≠ .error .divideByZero ∧
    ((superAt disk).Valid → ∃ data nr table, initReads disk = .ok (data, nr, table) ∧
      nr = (superAt disk).groups ∧
      (∀ i < nr * groupDescSize, table i = disk (descriptorsAt (superAt disk) + i)) ∧
      (∀ block, (superAt disk).sFirstDataBlock ≤ block → block < (superAt disk).sBlocksCount →
        (block - (superAt disk).sFirstDataBlock) / (superAt disk).sBlocksPerGroup < nr) ∧
      ∀ ino, 1 ≤ ino → ino ≤ (superAt disk).sInodesCount →
        (ino - 1) / (superAt disk).sInodesPerGroup < nr)

variable {disk : Bytes}

theorem initReads_ne_divideByZero_iff :
    initReads disk ≠ .error .divideByZero ↔ (superAt disk).ext2Init ≠ .error .divideByZero := by
  unfold superAt initReads
  dsimp only
  cases (Superblock.ofBytes fun i => disk (1 * defaultBlockSize + i)).ext2Init with
  | error halt => simp
  | ok nr =>
      rw [ok_bind]
      split_ifs <;> simp

/-- A superblock is mounted as it should be exactly if its divisors are not zero and, when it is
valid, block 0 needs no group of its own and what is read fits into the buffer. -/
theorem mountsWell_iff (disk : Bytes) (hmagic : (superAt disk).sMagic = Superblock.ext2Magic) :
    MountsWell disk ↔ (superAt disk).Mountable := by
  unfold MountsWell
  rw [initReads_ne_divideByZero_iff, Superblock.ext2Init_ne_divideByZero_iff hmagic]
  constructor
  · rintro ⟨hdivisors, hloads⟩
    refine ⟨hdivisors, ?_, ?_⟩
    · intro hvalid
      obtain ⟨data, nr, table, hreads, -⟩ := hloads hvalid
      obtain ⟨rfl, hinit, -⟩ := of_initReads hreads
      exact hvalid.rounding_of_ext2Init hinit
    · intro hvalid
      obtain ⟨data, nr, table, hreads, rfl, -⟩ := hloads hvalid
      obtain ⟨rfl, -, hsize, hfit⟩ := of_initReads hreads
      unfold defaultBlockSize groupDescSize at hfit
      refine ⟨?_, by omega⟩
      by_contra hne
      have hlarge := Superblock.larger_blocksize hvalid.size hne
      unfold superAt at hlarge
      unfold defaultBlockSize at hsize hlarge
      omega
  · rintro ⟨hdivisors, hrounding, hbuffer⟩
    refine ⟨hdivisors, fun hvalid => ?_⟩
    obtain ⟨hlog, hgroups⟩ := hbuffer hvalid
    have hinit := hvalid.ext2Init hmagic (hrounding hvalid)
    have hsize := Superblock.blocksize_of_log_zero hlog
    refine ⟨_, _, _, initReads_small hinit hsize hgroups, rfl, fun i hi => ?_,
      fun _ => Superblock.block_lt_groups hvalid.blocksPerGroup, fun _ => hvalid.inode_lt_groups⟩
    have hlt : i < 1024 := by
      unfold groupDescSize at hi
      omega
    unfold descriptorsAt
    rw [if_pos hlt, hsize, if_pos rfl]

/-- A disk with one group of 16 blocks of 1024 bytes and 16 inodes, block 0 apart if the first data
block is 1. -/
def smallDisk (firstDataBlock : ℕ) : Bytes := fun a =>
  if a = 1024 ∨ a = 1056 ∨ a = 1064 then 16#8
  else if a = 1028 then BitVec.ofNat 8 (16 + firstDataBlock)
  else if a = 1044 then BitVec.ofNat 8 firstDataBlock
  else if a = 1080 then 0x53#8
  else if a = 1081 then 0xEF#8
  else if a = 1082 then 1#8
  else 0#8

theorem mountsWell_smallDisk : MountsWell (smallDisk 0) :=
  (mountsWell_iff (smallDisk 0) (by decide +kernel)).mpr
    ⟨fun _ => by decide +kernel, fun _ hone => absurd hone (by decide +kernel),
      fun _ => by decide +kernel⟩

/-- Blocks 1 to 16 are one group, but with block 0 two groups are counted. -/
theorem not_mountsWell_first_one :
    ¬∀ disk, (superAt disk).sMagic = Superblock.ext2Magic → MountsWell disk := by
  intro h
  have hvalid : (superAt (smallDisk 1)).Valid := by constructor <;> decide +kernel
  obtain ⟨data, nr, table, hreads, -⟩ := (h (smallDisk 1) (by decide +kernel)).2 hvalid
  have hpanic : (superAt (smallDisk 1)).ext2Init =
      .error (.panic "ext2_init: Superblock corrupted") := by decide +kernel
  obtain ⟨rfl, hinit, -⟩ := of_initReads hreads
  exact Except.noConfusion rfl rfl (heq_of_eq (hpanic.symm.trans hinit))

end Yak.Ext2
