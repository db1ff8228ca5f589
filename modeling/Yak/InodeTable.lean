import Mathlib.Algebra.Order.Floor.Div
import Yak.SuperOnDisk

/-!
# Where the inodes are on the disk

A transcription of `read_inode`, next to that of `write_inode`.  The index of an inode is an
`int`, and so is its product with the size of an inode.
-/

namespace Yak.Ext2.SuperM

open ByteBitmap WordMemory

/-! ## Reading -/

/-- `read_inode` -/
def readInode (s : SuperM) (num : ℕ) (disk : Bytes) : Except Halt Bytes :=
  if s.nrBlkGroup ≤ s.inodeGroup num then .error .outOfBounds
  else if s.inodeBytes = 0 ∨ s.blocksize / s.inodeBytes = 0 then .error .divideByZero
  else if s.blocksize < s.inodeOff num + inodeSize then .error .outOfBounds
  else .ok fun i => disk (s.inodeAt num + i)

/-! ## The reference -/

/-- The numbers of the inodes. -/
def IsInode (s : SuperM) (num : ℕ) : Prop := 1 ≤ num ∧ num ≤ s.fields.sInodesCount

/-- `bg_inode_table` -/
def tableStart (s : SuperM) (g : ℕ) : ℕ := load32 s.bgdTable (groupDescSize * g + 8)

/-- The number of inodes in a group. -/
def groupInodes (s : SuperM) (g : ℕ) : ℕ :=
  min s.fields.sInodesPerGroup (s.fields.sInodesCount - g * s.fields.sInodesPerGroup)

/-- The number of blocks of the inode table of a group. -/
def tableBlocks (s : SuperM) (g : ℕ) : ℕ := (s.groupInodes g * s.inodeBytes) ⌈/⌉ s.blocksize

/-- The inode tables are disjoint, and their blocks have numbers of 32 bits. -/
structure TablesPlaced (s : SuperM) : Prop where
  bound : ∀ g < s.nrBlkGroup, s.tableStart g + s.tableBlocks g ≤ 2 ^ 32
  disjoint : ∀ g < s.nrBlkGroup, ∀ g' < s.nrBlkGroup, g ≠ g' →
    s.tableStart g + s.tableBlocks g ≤ s.tableStart g' ∨
      s.tableStart g' + s.tableBlocks g' ≤ s.tableStart g

/-- The size of an inode, at least that of the structure, divides the size of a block, which is a
positive `int`. -/
structure EntrySize (s : SuperM) : Prop where
  log : s.fields.sLogBlockSize < 21
  least : inodeSize ≤ s.inodeBytes
  dvd : s.inodeBytes ∣ s.blocksize

/-- The bytes which `write_inode` writes. -/
def InEntry (s : SuperM) (num a : ℕ) : Prop := s.inodeAt num ≤ a ∧ a < s.inodeAt num + inodeSize

instance (s : SuperM) (num a : ℕ) : Decidable (s.InEntry num a) :=
  inferInstanceAs (Decidable (_ ∧ _))

/-- The entry of an inode lies inside one block of the table of its group. -/
structure InTable (s : SuperM) (num : ℕ) : Prop where
  start : s.tableStart ((num - 1) / s.fields.sInodesPerGroup) ≤ s.inodeBlock num
  behind : s.inodeBlock num < s.tableStart ((num - 1) / s.fields.sInodesPerGroup) +
    s.tableBlocks ((num - 1) / s.fields.sInodesPerGroup)
  inside : s.inodeOff num + inodeSize ≤ s.blocksize

/-- What `write_inode` writes is read again, and the bytes of the other inodes stay. -/
def WritesOnly (s : SuperM) (ip : ModifiedInode) (disk : Bytes) : Prop :=
  ∃ disk' ino, s.writeInode ip disk = .ok disk' ∧ s.readInode ip.iNum disk' = .ok ino ∧
    (∀ i < inodeSize, ino i = ip.iIno i) ∧
    ∀ num, s.IsInode num → num ≠ ip.iNum → ∀ a, s.InEntry num a → disk' a = disk a

/-- The entries lie in the tables of their groups and are disjoint, and an inode which
is written changes only its own entry. -/
structure Addressed (s : SuperM) : Prop where
  inTable : ∀ num, s.IsInode num → s.InTable num
  disjoint : ∀ num num', s.IsInode num → s.IsInode num' → num ≠ num' →
    ∀ a, s.InEntry num a → ¬s.InEntry num' a
  writes : ∀ ip disk, s.IsInode ip.iNum → s.WritesOnly ip disk

/-! ## Groups and indices -/

variable {s : SuperM} {num num' : ℕ}

theorem inodesPerGroup_pos (s : SuperM) : 0 < s.fields.sInodesPerGroup := by
  have haccepted : s.fields.ext2Init = .ok s.nrBlkGroup := s.accepted
  unfold Superblock.ext2Init at haccepted
  split_ifs at haccepted with _ _ hzero
  exact Nat.pos_of_ne_zero fun hnone => hzero (Or.inl hnone)

theorem nrBlkGroup_eq (s : SuperM) :
    s.nrBlkGroup = Superblock.groupsFor s.fields.sInodesCount s.fields.sInodesPerGroup := by
  have haccepted : s.fields.ext2Init = .ok s.nrBlkGroup := s.accepted
  unfold Superblock.ext2Init at haccepted
  split_ifs at haccepted
  exact (Except.ok.inj haccepted).symm

theorem IsInode.decr (h : s.IsInode num) : Fs.decr 32 num = num - 1 := by
  have hpos := h.1
  unfold Fs.decr
  rw [if_neg (by omega)]

theorem IsInode.inodeGroup (h : s.IsInode num) :
    s.inodeGroup num = (num - 1) / s.fields.sInodesPerGroup := by
  unfold SuperM.inodeGroup
  rw [h.decr]

theorem IsInode.inodeIndex (h : s.IsInode num) :
    s.inodeIndex num = (num - 1) % s.fields.sInodesPerGroup := by
  unfold SuperM.inodeIndex
  rw [h.decr]

theorem IsInode.num_eq (h : s.IsInode num) :
    num = s.inodeGroup num * s.fields.sInodesPerGroup + s.inodeIndex num + 1 := by
  have hpos := h.1
  have hsplit := Nat.div_add_mod' (num - 1) s.fields.sInodesPerGroup
  rw [h.inodeGroup, h.inodeIndex, hsplit]
  omega

theorem IsInode.index_lt (h : s.IsInode num) :
    s.inodeIndex num < s.groupInodes (s.inodeGroup num) := by
  have hnum := h.num_eq
  have hcount := h.2
  have hlt : s.inodeIndex num < s.fields.sInodesPerGroup := by
    rw [h.inodeIndex]
    exact Nat.mod_lt _ s.inodesPerGroup_pos
  unfold groupInodes
  rw [lt_min_iff]
  exact ⟨hlt, by omega⟩

theorem groupInodes_lt (s : SuperM) (g : ℕ) : s.groupInodes g < 2 ^ 32 :=
  Nat.lt_of_le_of_lt (min_le_left _ _) (load32_lt s.sb 40)

theorem isInode_of_index {g i : ℕ} (hi : i < s.groupInodes g) :
    s.IsInode (g * s.fields.sInodesPerGroup + i + 1) ∧
      s.inodeGroup (g * s.fields.sInodesPerGroup + i + 1) = g ∧
      s.inodeIndex (g * s.fields.sInodesPerGroup + i + 1) = i := by
  obtain ⟨hlt, hcount⟩ := lt_min_iff.mp hi
  have hinode : s.IsInode (g * s.fields.sInodesPerGroup + i + 1) := ⟨by omega, by omega⟩
  refine ⟨hinode, ?_, ?_⟩
  · rw [hinode.inodeGroup, Nat.add_sub_cancel, Nat.mul_comm,
      Nat.mul_add_div s.inodesPerGroup_pos, Nat.div_eq_of_lt hlt, Nat.add_zero]
  · rw [hinode.inodeIndex, Nat.add_sub_cancel, Nat.mul_add_mod', Nat.mod_eq_of_lt hlt]

theorem IsInode.group_lt (h : s.IsInode num) : s.inodeGroup num < s.nrBlkGroup := by
  have hpos := s.inodesPerGroup_pos
  have hnum := h.num_eq
  have hcount := h.2
  rw [nrBlkGroup_eq]
  unfold Superblock.groupsFor
  have hsplit := Nat.div_add_mod' s.fields.sInodesCount s.fields.sInodesPerGroup
  have hle : s.inodeGroup num * s.fields.sInodesPerGroup < s.fields.sInodesCount := by omega
  by_contra hge
  split at hge
  next hzero =>
    have hmul := Nat.mul_le_mul_right s.fields.sInodesPerGroup (Nat.not_lt.mp hge)
    omega
  next =>
    have hmul := Nat.mul_le_mul_right s.fields.sInodesPerGroup (Nat.not_lt.mp hge)
    have hlt := Nat.mod_lt s.fields.sInodesCount hpos
    rw [Nat.succ_mul] at hmul
    omega

/-! ## Small products -/

theorem bmod_of_lt {x : ℕ} (h : x < 2 ^ 31) : (x : ℤ).bmod (2 ^ 32) = x :=
  Int.bmod_eq_of_le (by omega) (by omega)

/-- The product of the index and the size is an `int`. -/
def SmallIndex (s : SuperM) (num : ℕ) : Prop := s.inodeIndex num * s.inodeBytes < 2 ^ 31

namespace EntrySize

variable (h : s.EntrySize)

include h

theorem blocksize_dvd : s.blocksize ∣ 2 ^ 30 := by
  have hlog := h.log
  have hvalue : s.blocksize = 1024 * 2 ^ s.fields.sLogBlockSize :=
    Superblock.blocksize_eq (by omega)
  have hpow : s.blocksize = 2 ^ (10 + s.fields.sLogBlockSize) := by
    rw [hvalue, pow_add]
    rfl
  rw [hpow]
  exact pow_dvd_pow 2 (by omega)

theorem blocksize_le : s.blocksize ≤ 2 ^ 30 := Nat.le_of_dvd (by decide) h.blocksize_dvd

theorem blocksize_pos : 0 < s.blocksize := Nat.pos_of_dvd_of_pos h.blocksize_dvd (by decide)

theorem inodeBytes_pos : 0 < s.inodeBytes := Nat.lt_of_lt_of_le (by decide) h.least

theorem intBlocksize : s.intBlocksize = s.blocksize :=
  bmod_of_lt (Nat.lt_of_le_of_lt h.blocksize_le (by decide))

theorem perBlock : s.inodeBytes * (s.blocksize / s.inodeBytes) = s.blocksize :=
  Nat.mul_div_cancel' h.dvd

theorem perBlock_pos : 0 < s.blocksize / s.inodeBytes :=
  Nat.div_pos (Nat.le_of_dvd h.blocksize_pos h.dvd) h.inodeBytes_pos

/-- The inode at an index ends before the block does. -/
theorem slot_le (i : ℕ) :
    s.inodeBytes * (i % (s.blocksize / s.inodeBytes)) + s.inodeBytes ≤ s.blocksize := by
  have hle := Nat.mul_le_mul_left s.inodeBytes (Nat.mod_lt i h.perBlock_pos)
  rwa [Nat.mul_succ, h.perBlock] at hle

/-- The blocks and the offsets of the table are those of one row of inodes. -/
theorem slot_eq (i : ℕ) : i * s.inodeBytes / s.blocksize * s.blocksize +
    s.inodeBytes * (i % (s.blocksize / s.inodeBytes)) = i * s.inodeBytes := by
  have hrow : i * s.inodeBytes / s.blocksize = i / (s.blocksize / s.inodeBytes) := by
    conv_lhs => rw [← h.perBlock]
    rw [Nat.mul_comm i, Nat.mul_div_mul_left _ _ h.inodeBytes_pos]
  have hfull := h.perBlock
  rw [hrow]
  generalize s.blocksize / s.inodeBytes = per at hfull ⊢
  calc i / per * s.blocksize + s.inodeBytes * (i % per)
      = s.inodeBytes * (per * (i / per) + i % per) := by
        rw [← hfull]
        ring
    _ = i * s.inodeBytes := by rw [Nat.div_add_mod, Nat.mul_comm]

end EntrySize

namespace SmallIndex

variable (h : s.SmallIndex num) (hentry : s.EntrySize)

include h hentry

theorem intIndex : s.intIndex num = s.inodeIndex num := by
  have hle := Nat.mul_le_mul_left (s.inodeIndex num) hentry.least
  unfold inodeSize at hle
  unfold SmallIndex at h
  exact bmod_of_lt (by omega)

theorem inodeBlock :
    s.inodeBlock num = (s.inodeIndex num * s.inodeBytes / s.blocksize +
      s.tableStart (s.inodeGroup num)) % 2 ^ 32 := by
  unfold SuperM.inodeBlock
  rw [h.intIndex hentry, ← Nat.cast_mul, bmod_of_lt h, hentry.intBlocksize]
  rfl

theorem inodeOff :
    s.inodeOff num = s.inodeBytes * (s.inodeIndex num % (s.blocksize / s.inodeBytes)) := by
  have hle := hentry.slot_le (s.inodeIndex num)
  have hbound := hentry.blocksize_le
  have hlt : s.inodeBytes * (s.inodeIndex num % (s.blocksize / s.inodeBytes)) < 2 ^ 32 := by omega
  unfold SuperM.inodeOff
  rw [h.intIndex hentry, hentry.intBlocksize]
  exact Nat.mod_eq_of_lt hlt

end SmallIndex

/-! ## Entries in their tables -/

section Placed

variable (hentry : s.EntrySize)

include hentry

/-- The blocks of the table have room for the inodes of the group. -/
theorem row_lt {g i : ℕ} (hi : i < s.groupInodes g) :
    i * s.inodeBytes + s.inodeBytes ≤ s.tableBlocks g * s.blocksize := by
  have hle : s.groupInodes g * s.inodeBytes ≤ s.blocksize • s.tableBlocks g :=
    le_smul_ceilDiv hentry.blocksize_pos
  rw [smul_eq_mul, Nat.mul_comm s.blocksize] at hle
  have hmul := Nat.mul_le_mul_right s.inodeBytes (Nat.succ_le_of_lt hi)
  rw [Nat.succ_mul] at hmul
  omega

theorem block_lt {g i : ℕ} (hi : i < s.groupInodes g) :
    i * s.inodeBytes / s.blocksize < s.tableBlocks g := by
  have hle := row_lt hentry hi
  have hpos := hentry.inodeBytes_pos
  rw [Nat.div_lt_iff_lt_mul hentry.blocksize_pos]
  omega

/-- If the entries are in place and disjoint, an inode which is written changes its own only. -/
theorem writesOnly {ip : ModifiedInode} {disk : Bytes} (hnum : s.IsInode ip.iNum)
    (hin : s.InTable ip.iNum)
    (hdisjoint : ∀ num, s.IsInode num → num ≠ ip.iNum → ∀ a, s.InEntry num a →
      ¬s.InEntry ip.iNum a) : s.WritesOnly ip disk := by
  have hgroup := Nat.not_le.mpr hnum.group_lt
  have hdiv : ¬(s.inodeBytes = 0 ∨ s.blocksize / s.inodeBytes = 0) :=
    not_or.mpr ⟨hentry.inodeBytes_pos.ne', hentry.perBlock_pos.ne'⟩
  have hfits := Nat.not_lt.mpr hin.inside
  have hwrite : s.writeInode ip disk = .ok fun a =>
      if s.InEntry ip.iNum a then ip.iIno (a - s.inodeAt ip.iNum) else disk a := by
    unfold writeInode storeInBlock
    rw [if_neg hgroup, if_neg hdiv, if_neg hfits]
    rfl
  have hread : ∀ disk', s.readInode ip.iNum disk' =
      .ok fun i => disk' (s.inodeAt ip.iNum + i) := by
    intro disk'
    unfold readInode
    rw [if_neg hgroup, if_neg hdiv, if_neg hfits]
  refine ⟨_, _, hwrite, hread _, ?_, ?_⟩
  · intro i hi
    have hat : s.InEntry ip.iNum (s.inodeAt ip.iNum + i) := ⟨by omega, by omega⟩
    rw [if_pos hat, Nat.add_sub_cancel_left]
  · intro num hinode hne a ha
    exact if_neg (hdisjoint num hinode hne a ha)

variable (hplaced : s.TablesPlaced)

include hplaced

theorem SmallIndex.inodeBlock_eq (h : s.SmallIndex num) (hnum : s.IsInode num) :
    s.inodeBlock num =
      s.tableStart (s.inodeGroup num) + s.inodeIndex num * s.inodeBytes / s.blocksize := by
  have hbound := hplaced.bound _ hnum.group_lt
  have hlt := block_lt hentry hnum.index_lt
  rw [h.inodeBlock hentry, Nat.mod_eq_of_lt (by omega), Nat.add_comm]

theorem SmallIndex.inodeAt_eq (h : s.SmallIndex num) (hnum : s.IsInode num) :
    s.inodeAt num =
      s.tableStart (s.inodeGroup num) * s.blocksize + s.inodeIndex num * s.inodeBytes := by
  unfold inodeAt
  rw [h.inodeBlock_eq hentry hplaced hnum, h.inodeOff hentry, Nat.add_mul, Nat.add_assoc,
    hentry.slot_eq]

theorem SmallIndex.inTable (h : s.SmallIndex num) (hnum : s.IsInode num) : s.InTable num := by
  have hblock := h.inodeBlock_eq hentry hplaced hnum
  have hlt := block_lt hentry hnum.index_lt
  rw [hnum.inodeGroup] at hblock hlt
  refine ⟨?_, ?_, ?_⟩
  · rw [hblock]
    exact Nat.le_add_right _ _
  · rw [hblock]
    exact Nat.add_lt_add_left hlt _
  · rw [h.inodeOff hentry]
    exact (Nat.add_le_add_left hentry.least _).trans (hentry.slot_le _)

theorem SmallIndex.inodeAt_lt (h : s.SmallIndex num) (hnum : s.IsInode num) :
    s.inodeAt num + inodeSize ≤
      (s.tableStart (s.inodeGroup num) + s.tableBlocks (s.inodeGroup num)) * s.blocksize := by
  have hrow := row_lt hentry hnum.index_lt
  have hleast := hentry.least
  rw [h.inodeAt_eq hentry hplaced hnum, Nat.add_mul]
  omega

theorem SmallIndex.entries_disjoint (h : s.SmallIndex num) (h' : s.SmallIndex num')
    (hnum : s.IsInode num) (hnum' : s.IsInode num') (hne : num ≠ num') :
    s.inodeAt num + inodeSize ≤ s.inodeAt num' ∨ s.inodeAt num' + inodeSize ≤ s.inodeAt num := by
  have hleast := hentry.least
  have hat := h.inodeAt_eq hentry hplaced hnum
  have hat' := h'.inodeAt_eq hentry hplaced hnum'
  by_cases hgroup : s.inodeGroup num = s.inodeGroup num'
  · have hindex : s.inodeIndex num ≠ s.inodeIndex num' := by
      intro heq
      apply hne
      rw [hnum.num_eq, hnum'.num_eq, hgroup, heq]
    rw [← hgroup] at hat'
    rcases lt_or_gt_of_ne hindex with hlt | hlt
    · have hmul := Nat.mul_le_mul_right s.inodeBytes (Nat.succ_le_of_lt hlt)
      rw [Nat.succ_mul] at hmul
      exact Or.inl (by omega)
    · have hmul := Nat.mul_le_mul_right s.inodeBytes (Nat.succ_le_of_lt hlt)
      rw [Nat.succ_mul] at hmul
      exact Or.inr (by omega)
  · have hend := h.inodeAt_lt hentry hplaced hnum
    have hend' := h'.inodeAt_lt hentry hplaced hnum'
    rcases hplaced.disjoint _ hnum.group_lt _ hnum'.group_lt hgroup with hlt | hlt
    · have hmul := Nat.mul_le_mul_right s.blocksize hlt
      exact Or.inl (by omega)
    · have hmul := Nat.mul_le_mul_right s.blocksize hlt
      exact Or.inr (by omega)

end Placed

/-! ## Large products -/

theorem neg_tdiv_cast (n b : ℕ) : (-(n : ℤ)).tdiv b = -((n / b : ℕ) : ℤ) := by
  rw [Int.neg_tdiv]
  rfl

section Large

variable (hentry : s.EntrySize) {i : ℕ}

include hentry

/-- With a product of `2 ^ 31` the block is in front of the start of the table. -/
theorem inodeBlock_of_product (hindex : s.inodeIndex num = i)
    (hproduct : (i : ℤ).bmod (2 ^ 32) * s.inodeBytes = 2 ^ 31 ∨
      (i : ℤ).bmod (2 ^ 32) * s.inodeBytes = -2 ^ 31) :
    s.inodeBlock num = (s.tableStart (s.inodeGroup num) + (2 ^ 32 - 2 ^ 31 / s.blocksize)) %
      2 ^ 32 := by
  have hquot : 2 ^ 31 / s.blocksize ≤ 2 ^ 31 := Nat.div_le_self _ _
  have hwrapped : ((i : ℤ).bmod (2 ^ 32) * s.inodeBytes).bmod (2 ^ 32) =
      -((2 ^ 31 : ℕ) : ℤ) := by
    rcases hproduct with heq | heq <;> rw [heq] <;> decide
  have hblock : (-((2 ^ 31 : ℕ) : ℤ)).tdiv s.blocksize = -((2 ^ 31 / s.blocksize : ℕ) : ℤ) :=
    neg_tdiv_cast (2 ^ 31) s.blocksize
  have hstart : load32 s.bgdTable (groupDescSize * s.inodeGroup num + 8) =
      s.tableStart (s.inodeGroup num) := rfl
  unfold inodeBlock intIndex
  rw [hindex, hwrapped, hentry.intBlocksize, hblock, hstart]
  show ((-((2 ^ 31 / s.blocksize : ℕ) : ℤ) + (s.tableStart (s.inodeGroup num) : ℤ)) %
    (2 ^ 32 : ℤ)).toNat = _
  omega

theorem product_eq : 2 ^ 31 / s.inodeBytes * s.inodeBytes = 2 ^ 31 :=
  Nat.div_mul_cancel ((hentry.dvd.trans hentry.blocksize_dvd).trans (by decide))

theorem quot_eq : 2 ^ 31 / s.blocksize * s.blocksize = 2 ^ 31 :=
  Nat.div_mul_cancel (hentry.blocksize_dvd.trans (by decide))

theorem quot_pos : 0 < 2 ^ 31 / s.blocksize :=
  Nat.pos_of_mul_pos_right (b := s.blocksize) (by rw [quot_eq hentry]; decide)

theorem quot_le : 2 ^ 31 / s.blocksize ≤ 2 ^ 24 := by
  have hle : inodeSize ≤ s.blocksize :=
    hentry.least.trans (Nat.le_of_dvd hentry.blocksize_pos hentry.dvd)
  exact Nat.div_le_div_left (c := 2 ^ 7) hle (by decide)

/-- The first index whose product is too large. -/
theorem wrapped_block (hindex : s.inodeIndex num = 2 ^ 31 / s.inodeBytes) :
    s.inodeBlock num = (s.tableStart (s.inodeGroup num) + (2 ^ 32 - 2 ^ 31 / s.blocksize)) %
      2 ^ 32 := by
  have hlt : 2 ^ 31 / s.inodeBytes < 2 ^ 31 :=
    Nat.div_lt_self (by decide) (Nat.lt_of_lt_of_le (by decide) hentry.least)
  refine inodeBlock_of_product hentry hindex (Or.inl ?_)
  rw [bmod_of_lt hlt]
  exact_mod_cast product_eq hentry

/-- The table is as long as all blocks: an inode fills a block. -/
theorem inodeBytes_eq_of_long {g : ℕ}
    (hlong : 2 ^ 32 - 2 ^ 31 / s.blocksize < s.tableBlocks g) :
    s.inodeBytes = s.blocksize ∧ 2 ^ 32 - 2 ^ 31 / s.blocksize < s.groupInodes g := by
  have hbytes : s.blocksize * (2 ^ 32 - 2 ^ 31 / s.blocksize) < s.groupInodes g * s.inodeBytes := by
    by_contra hge
    have hle : s.tableBlocks g ≤ 2 ^ 32 - 2 ^ 31 / s.blocksize :=
      (ceilDiv_le_iff_le_mul hentry.blocksize_pos).mpr (Nat.not_lt.mp hge)
    omega
  have heq : s.inodeBytes = s.blocksize := by
    by_contra hne
    have hcount := s.groupInodes_lt g
    have hquot := quot_le hentry
    obtain ⟨per, hper⟩ := hentry.dvd
    have htwo : 2 ≤ per := by
      have hpos := hentry.blocksize_pos
      by_contra hless
      interval_cases per <;> omega
    have hmul := Nat.mul_le_mul_right (2 ^ 32 - 2 ^ 31 / s.blocksize) htwo
    have hlt : per * (2 ^ 32 - 2 ^ 31 / s.blocksize) < s.groupInodes g := by
      apply Nat.lt_of_mul_lt_mul_left (a := s.inodeBytes)
      rw [← Nat.mul_assoc, ← hper, Nat.mul_comm s.inodeBytes (s.groupInodes g)]
      exact hbytes
    omega
  refine ⟨heq, ?_⟩
  rw [heq, Nat.mul_comm] at hbytes
  exact Nat.lt_of_mul_lt_mul_right hbytes

/-- An index which is an `int` below zero leads to the same block. -/
theorem wrapped_index (hfull : s.inodeBytes = s.blocksize)
    (hindex : s.inodeIndex num = 2 ^ 32 - 2 ^ 31 / s.blocksize) :
    s.inodeBlock num = (s.tableStart (s.inodeGroup num) + (2 ^ 32 - 2 ^ 31 / s.blocksize)) %
      2 ^ 32 := by
  have hpos := quot_pos hentry
  have hle := quot_le hentry
  have hquot := quot_eq hentry
  generalize hq : 2 ^ 31 / s.blocksize = q at hpos hle hquot hindex
  have hneg : ((2 ^ 32 - q : ℕ) : ℤ).bmod (2 ^ 32) = -(q : ℤ) := by
    have hcast : ((2 ^ 32 - q : ℕ) : ℤ) = -(q : ℤ) + (2 ^ 32 : ℕ) := by omega
    rw [hcast, Int.add_bmod_right]
    exact Int.bmod_eq_of_le (by omega) (by omega)
  rw [← hq]
  refine inodeBlock_of_product hentry hindex (Or.inr ?_)
  rw [hneg, hfull, Int.neg_mul]
  exact_mod_cast congrArg (fun n : ℕ => -(n : ℤ)) hquot

theorem inodeOff_of_full (hfull : s.inodeBytes = s.blocksize) (num : ℕ) : s.inodeOff num = 0 := by
  have hne : (s.blocksize : ℤ) ≠ 0 := by exact_mod_cast hentry.blocksize_pos.ne'
  unfold inodeOff
  rw [hentry.intBlocksize, hfull, Int.tdiv_self hne, Int.tmod_one, Int.mul_zero]
  rfl

/-- With an index whose product is no `int`, some entry is not in its table, or two are in the same
place. -/
theorem Addressed.smallIndex (h : s.Addressed) (hplaced : s.TablesPlaced)
    (hnum : s.IsInode num) : s.SmallIndex num := by
  by_contra hlarge
  have hpos := quot_pos hentry
  have hle := quot_le hentry
  have hindex : 2 ^ 31 / s.inodeBytes < s.groupInodes (s.inodeGroup num) := by
    refine Nat.lt_of_le_of_lt ?_ hnum.index_lt
    have hproduct := Nat.not_lt.mp hlarge
    calc 2 ^ 31 / s.inodeBytes
        ≤ s.inodeIndex num * s.inodeBytes / s.inodeBytes := Nat.div_le_div_right hproduct
      _ = s.inodeIndex num := Nat.mul_div_cancel _ hentry.inodeBytes_pos
  generalize hg : s.inodeGroup num = g at hindex
  have hbound := hplaced.bound g (hg ▸ hnum.group_lt)
  obtain ⟨hinode, hgroup, hfirst⟩ := isInode_of_index hindex
  have hin := h.inTable _ hinode
  have hblock := wrapped_block hentry hfirst
  rw [hgroup] at hblock
  have hstart := hin.start
  have hbehind := hin.behind
  rw [← hinode.inodeGroup, hgroup, hblock] at hstart hbehind
  have hlong : 2 ^ 32 - 2 ^ 31 / s.blocksize < s.tableBlocks g := by omega
  obtain ⟨hfull, hlast⟩ := inodeBytes_eq_of_long hentry hlong
  obtain ⟨hinode', hgroup', hlast⟩ := isInode_of_index hlast
  have hblock' := wrapped_index hentry hfull hlast
  rw [hgroup'] at hblock'
  have hsame : s.inodeAt (g * s.fields.sInodesPerGroup + 2 ^ 31 / s.inodeBytes + 1) =
      s.inodeAt (g * s.fields.sInodesPerGroup + (2 ^ 32 - 2 ^ 31 / s.blocksize) + 1) := by
    unfold inodeAt
    rw [hblock, hblock', inodeOff_of_full hentry hfull, inodeOff_of_full hentry hfull]
  have hne : g * s.fields.sInodesPerGroup + 2 ^ 31 / s.inodeBytes + 1 ≠
      g * s.fields.sInodesPerGroup + (2 ^ 32 - 2 ^ 31 / s.blocksize) + 1 := by
    rw [hfull]
    omega
  refine h.disjoint _ _ hinode hinode' hne _ ⟨le_refl _, Nat.lt_add_of_pos_right (by decide)⟩ ?_
  rw [hsame]
  exact ⟨le_refl _, Nat.lt_add_of_pos_right (by decide)⟩

end Large

/-- The inodes are where they should be exactly if the products of their indices and their size
are values of an `int`. -/
theorem addressed_iff (s : SuperM) (hentry : s.EntrySize) (hplaced : s.TablesPlaced) :
    s.Addressed ↔ ∀ num, s.IsInode num → s.inodeIndex num * s.inodeBytes < 2 ^ 31 := by
  constructor
  · intro h num hnum
    exact h.smallIndex hentry hplaced hnum
  · intro hsmall
    have hdisjoint : ∀ num num', s.IsInode num → s.IsInode num' → num ≠ num' →
        ∀ a, s.InEntry num a → ¬s.InEntry num' a := by
      rintro num num' hnum hnum' hne a ⟨hlow, hhigh⟩ ⟨hlow', hhigh'⟩
      rcases SmallIndex.entries_disjoint hentry hplaced (hsmall num hnum) (hsmall num' hnum') hnum
        hnum' hne with hlt | hlt <;> omega
    have hin : ∀ num, s.IsInode num → s.InTable num := fun num hnum =>
      SmallIndex.inTable hentry hplaced (hsmall num hnum) hnum
    exact ⟨hin, hdisjoint, fun ip disk hnum => writesOnly hentry hnum (hin _ hnum)
      fun num hinode hne => hdisjoint num ip.iNum hinode hnum hne⟩

/-! ## Two tables -/

theorem addressed_oneGroup : (oneGroup false).Addressed := by
  have hentry : (oneGroup false).EntrySize := by constructor <;> decide +kernel
  have hplaced : (oneGroup false).TablesPlaced := by constructor <;> decide +kernel
  refine (addressed_iff (oneGroup false) hentry hplaced).mpr fun num hnum => ?_
  have hlt := hnum.index_lt
  have hcount : (oneGroup false).groupInodes ((oneGroup false).inodeGroup num) ≤ 16 :=
    (min_le_left _ _).trans (by decide +kernel)
  have hbytes : (oneGroup false).inodeBytes = 128 := by decide +kernel
  rw [hbytes]
  omega

/-- One group of `2 ^ 19` blocks of 64 KiB, which its bitmap has room for, and as many inodes of
8 KiB. -/
def largeGroup : SuperM where
  sb i :=
    if i = 2 ∨ i = 6 ∨ i = 34 ∨ i = 42 then 8#8
    else if i = 24 then 6#8
    else if i = 56 then 0x53#8
    else if i = 57 then 0xEF#8
    else if i = 58 ∨ i = 60 ∨ i = 76 then 1#8
    else if i = 89 then 0x20#8
    else 0#8
  bgdTable i := if i = 0 then 3#8 else if i = 4 then 4#8 else if i = 8 then 5#8 else 0#8
  nrBlkGroup := 1
  modified := true
  accepted := by decide

/-- The table of inodes begins with block 5, and the inode 262145 is looked for in front of it. -/
theorem not_addressed_largeGroup :
    ¬∀ s : SuperM, s.EntrySize → s.TablesPlaced → s.Addressed := by
  intro h
  have haddressed := h largeGroup (by constructor <;> decide +kernel)
    (by constructor <;> decide +kernel)
  have hbehind := (haddressed.inTable 262145 ⟨by decide, by decide +kernel⟩).behind
  exact absurd hbehind (by decide +kernel)

end Yak.Ext2.SuperM
