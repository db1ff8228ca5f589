import Yak.Ext2

/-!
# Block bitmaps and their counters

`ext2_balloc` and `ext2_bfree` keep the block bitmaps, the counters of the
groups and the counter of the superblock together.  `ext2_bfree` computes the
group of a block without the first data block.  With `s_first_data_block = 1`
it takes the wrong group for the last block of every group, and then an offset
far behind the bitmap.
-/

namespace Yak.Ext2

open ByteBitmap

namespace Fs

/-- The bitmap block of a group. -/
def blockMap (fs : Fs) (g : ℕ) : Bytes := fs.blocks (fs.bgdTable g).bgBlockBitmap

/-- How many blocks of a group its bitmap describes. -/
def groupBlocks (fs : Fs) (g : ℕ) : ℕ :=
  min fs.sb.sBlocksPerGroup
    (min fs.bitsPerBlock (fs.sb.sBlocksCount - fs.sb.sFirstDataBlock - g * fs.sb.sBlocksPerGroup))

/-- The group in which a block lies. -/
def groupOf (fs : Fs) (b : ℕ) : ℕ := (b - fs.sb.sFirstDataBlock) / fs.sb.sBlocksPerGroup

/-- The bit which marks a block in the bitmap of its group. -/
def indexOf (fs : Fs) (b : ℕ) : ℕ := (b - fs.sb.sFirstDataBlock) % fs.sb.sBlocksPerGroup

/-- The block is described by some bitmap. -/
structure Described (fs : Fs) (b : ℕ) : Prop where
  first : fs.sb.sFirstDataBlock ≤ b
  group : fs.groupOf b < fs.nrBlkGroup
  index : fs.indexOf b < fs.groupBlocks (fs.groupOf b)

def Marked (fs : Fs) (b : ℕ) : Prop := getBit (fs.blockMap (fs.groupOf b)) (fs.indexOf b) = true

instance (fs : Fs) (b : ℕ) : Decidable (fs.Described b) :=
  decidable_of_iff (fs.sb.sFirstDataBlock ≤ b ∧ fs.groupOf b < fs.nrBlkGroup ∧
      fs.indexOf b < fs.groupBlocks (fs.groupOf b))
    ⟨fun ⟨h₁, h₂, h₃⟩ => ⟨h₁, h₂, h₃⟩, fun ⟨h₁, h₂, h₃⟩ => ⟨h₁, h₂, h₃⟩⟩

instance (fs : Fs) (b : ℕ) : Decidable (fs.Marked b) := inferInstanceAs (Decidable (_ = true))

/-- The counters are the numbers of clear bits. -/
def BlocksTallied (fs : Fs) : Prop :=
  Tallied fs.nrBlkGroup fs.groupBlocks fs.blockMap (fun g => (fs.bgdTable g).bgFreeBlocksCount)
    fs.sb.sFreeBlocksCount

/-- Nothing on the device changes but the bit of the block, which is cleared. -/
def ClearsExactly (fs fs' : Fs) (b : ℕ) : Prop :=
  fs'.blocks = Function.update fs.blocks (fs.bgdTable (fs.groupOf b)).bgBlockBitmap
    (clearBit (fs.blockMap (fs.groupOf b)) (fs.indexOf b))

/-- A file system which `ext2_init` accepts, with its block bitmaps in order. -/
structure SoundBlocks (fs : Fs) : Prop where
  accepted : fs.sb.ext2Init = .ok fs.nrBlkGroup
  count : fs.sb.sBlocksCount < 2 ^ 32
  first : fs.sb.sFirstDataBlock ≤ 1
  fields : ∀ g < fs.nrBlkGroup, (fs.bgdTable g).bgFreeBlocksCount < 2 ^ 16
  apart : ∀ g < fs.nrBlkGroup, ∀ h < fs.nrBlkGroup,
    (fs.bgdTable g).bgBlockBitmap = (fs.bgdTable h).bgBlockBitmap → g = h
  nonzero : ∀ g < fs.nrBlkGroup, (fs.bgdTable g).bgBlockBitmap ≠ 0
  reserved : ∀ g < fs.nrBlkGroup, fs.Described (fs.bgdTable g).bgBlockBitmap →
    fs.Marked (fs.bgdTable g).bgBlockBitmap
  zero : fs.Described 0 → fs.Marked 0
  tallied : fs.BlocksTallied

end Fs

/-- The file system, and the blocks which are handed out. -/
structure BlockUse where
  fs : Fs
  owned : List ℕ

inductive BlockOp where
  | balloc (ip : Inode)
  | bfree (b : ℕ)

namespace BlockUse

def step (s : BlockUse) : BlockOp → Except Halt BlockUse
  | .balloc ip => do
      let (block, fs, _) ← s.fs.balloc ip
      .ok ⟨fs, if block = 0 then s.owned else block :: s.owned⟩
  | .bfree b => do
      let fs ← s.fs.bfree b
      .ok ⟨fs, s.owned.erase b⟩

/-- The blocks in use by files are marked, and none of them is a bitmap. -/
structure Sound (s : BlockUse) : Prop where
  fs : s.fs.SoundBlocks
  nodup : s.owned.Nodup
  described : ∀ b ∈ s.owned, s.fs.Described b
  marked : ∀ b ∈ s.owned, s.fs.Marked b
  data : ∀ b ∈ s.owned, b ≠ 0 ∧ ∀ g < s.fs.nrBlkGroup, b ≠ (s.fs.bgdTable g).bgBlockBitmap

/-- Along the run every call returns, the counters stay right, no block is
handed out twice, and `ext2_bfree` clears the bit of its block and nothing
else. -/
def Keeps (s : BlockUse) : List BlockOp → Prop
  | [] => s.fs.BlocksTallied ∧ s.owned.Nodup
  | op :: ops =>
      (s.fs.BlocksTallied ∧ s.owned.Nodup) ∧
        ∃ s', s.step op = .ok s' ∧ (∀ b, op = .bfree b → s.fs.ClearsExactly s'.fs b) ∧ s'.Keeps ops

/-- The caller allocates for an inode of the file system, and frees a block in
use.  Its bit is found, and the counter of its group does not overflow. -/
def SafeStep (s : BlockUse) : BlockOp → Prop
  | .balloc ip => 1 ≤ ip.iNum ∧ ip.iNum ≤ s.fs.sb.sInodesCount
  | .bfree b => b ∈ s.owned ∧
      (s.fs.sb.sFirstDataBlock = 0 ∨ b % s.fs.sb.sBlocksPerGroup ≠ 0) ∧
      (s.fs.bgdTable (s.fs.groupOf b)).bgFreeBlocksCount ≠ 2 ^ 16 - 1

def SafeRun (s : BlockUse) : List BlockOp → Prop
  | [] => True
  | op :: ops =>
      s.SafeStep op ∧
        match s.step op with
        | .ok s' => s'.SafeRun ops
        | .error _ => True

instance (s : BlockUse) : (op : BlockOp) → Decidable (s.SafeStep op)
  | .balloc _ => inferInstanceAs (Decidable (_ ∧ _))
  | .bfree _ => inferInstanceAs (Decidable (_ ∧ _ ∧ _))

def decidableSafeRun : (ops : List BlockOp) → (s : BlockUse) → Decidable (s.SafeRun ops)
  | [], _ => isTrue trivial
  | op :: ops, s =>
      match h : s.step op with
      | .ok s' =>
          have := decidableSafeRun ops s'
          decidable_of_iff (s.SafeStep op ∧ s'.SafeRun ops) (by simp only [SafeRun, h])
      | .error _ => decidable_of_iff (s.SafeStep op ∧ True) (by simp only [SafeRun, h])

instance (s : BlockUse) (ops : List BlockOp) : Decidable (s.SafeRun ops) := decidableSafeRun ops s

end BlockUse

/-! ## Arithmetic of groups -/

/-- The parts of a count which lie in groups of a fixed size add up to at most
the count. -/
theorem sum_groups_le (n per k : ℕ) : ∑ g ∈ Finset.range k, min per (n - g * per) ≤ n := by
  have hboth : ∑ g ∈ Finset.range k, min per (n - g * per) ≤ min n (k * per) := by
    induction k with
    | zero => simp
    | succ k ih =>
        rw [Finset.sum_range_succ]
        have hmul : (k + 1) * per = k * per + per := Nat.succ_mul k per
        omega
  omega

theorem lt_groupsFor {count per i : ℕ} (hper : per ≠ 0) (hi : i < count) :
    i / per < Superblock.groupsFor count per := by
  have hpos : 0 < per := Nat.pos_of_ne_zero hper
  unfold Superblock.groupsFor
  split
  next hmod =>
    rw [Nat.div_lt_iff_lt_mul hpos, Nat.div_mul_cancel (Nat.dvd_of_mod_eq_zero hmod)]
    exact hi
  next =>
    have hle : i / per ≤ count / per := Nat.div_le_div_right hi.le
    omega

namespace Fs

variable {fs : Fs} {g b off : ℕ}

theorem decr_eq {bits x : ℕ} (hx : x ≠ 0) : decr bits x = x - 1 := if_neg hx

theorem incr_eq {bits x : ℕ} (hlt : x + 1 < 2 ^ bits) : incr bits x = x + 1 := if_neg hlt.ne

/-- What the checks of `ext2_init` guarantee. -/
theorem accepted_iff {sb : Superblock} {nr : ℕ} (h : sb.ext2Init = .ok nr) :
    sb.sInodesPerGroup ≠ 0 ∧ sb.sBlocksPerGroup ≠ 0 ∧
      nr = Superblock.groupsFor sb.sInodesCount sb.sInodesPerGroup ∧
      nr = Superblock.groupsFor sb.sBlocksCount sb.sBlocksPerGroup := by
  unfold Superblock.ext2Init at h
  split at h
  next => cases h
  next =>
    split at h
    next => cases h
    next =>
      split at h
      next => cases h
      next hper =>
        split at h
        next => cases h
        next hsame =>
          obtain rfl := Except.ok.inj h
          rw [not_or] at hper
          exact ⟨hper.1, hper.2, rfl, not_not.mp hsame⟩

/-! ## The place of a block -/

/-- The number of the block which a bit of a group marks. -/
def blockAt (fs : Fs) (g off : ℕ) : ℕ := off + g * fs.sb.sBlocksPerGroup + fs.sb.sFirstDataBlock

theorem groupOf_blockAt (hoff : off < fs.sb.sBlocksPerGroup) :
    fs.groupOf (fs.blockAt g off) = g := by
  unfold groupOf blockAt
  have hpos : 0 < fs.sb.sBlocksPerGroup := by omega
  rw [Nat.add_sub_cancel, Nat.add_mul_div_right _ _ hpos, Nat.div_eq_of_lt hoff, Nat.zero_add]

theorem indexOf_blockAt (hoff : off < fs.sb.sBlocksPerGroup) :
    fs.indexOf (fs.blockAt g off) = off := by
  unfold indexOf blockAt
  rw [Nat.add_sub_cancel, Nat.add_mul_mod_self_right, Nat.mod_eq_of_lt hoff]

theorem blockAt_of_described (h : fs.Described b) :
    fs.blockAt (fs.groupOf b) (fs.indexOf b) = b := by
  have hsplit := Nat.mod_add_div' (b - fs.sb.sFirstDataBlock) fs.sb.sBlocksPerGroup
  have hfirst := h.first
  unfold blockAt groupOf indexOf
  omega

theorem lt_blocksPerGroup (hoff : off < fs.groupBlocks g) : off < fs.sb.sBlocksPerGroup :=
  lt_of_lt_of_le hoff (min_le_left _ _)

theorem lt_bitsPerBlock (hoff : off < fs.groupBlocks g) : off < fs.bitsPerBlock :=
  lt_of_lt_of_le hoff ((min_le_right _ _).trans (min_le_left _ _))

theorem blockAt_lt (hoff : off < fs.groupBlocks g) : fs.blockAt g off < fs.sb.sBlocksCount := by
  have hlt : off < fs.sb.sBlocksCount - fs.sb.sFirstDataBlock - g * fs.sb.sBlocksPerGroup :=
    lt_of_lt_of_le hoff ((min_le_right _ _).trans (min_le_right _ _))
  unfold blockAt
  omega

theorem described_blockAt (hg : g < fs.nrBlkGroup) (hoff : off < fs.groupBlocks g) :
    fs.Described (fs.blockAt g off) := by
  have hper := lt_blocksPerGroup hoff
  refine ⟨Nat.le_add_left _ _, ?_, ?_⟩
  · rw [groupOf_blockAt hper]
    exact hg
  · rw [groupOf_blockAt hper, indexOf_blockAt hper]
    exact hoff

theorem not_marked_blockAt (hoff : off < fs.groupBlocks g)
    (hclear : getBit (fs.blockMap g) off = false) : ¬fs.Marked (fs.blockAt g off) := by
  have hper := lt_blocksPerGroup hoff
  unfold Marked
  rw [groupOf_blockAt hper, indexOf_blockAt hper, hclear]
  exact Bool.false_ne_true

theorem eq_of_place {b' : ℕ} (h : fs.Described b) (h' : fs.Described b')
    (hgroup : fs.groupOf b = fs.groupOf b') (hindex : fs.indexOf b = fs.indexOf b') : b = b' := by
  rw [← blockAt_of_described h, ← blockAt_of_described h', hgroup, hindex]

/-- There are fewer than `2 ^ 32` bits in use by all bitmaps together. -/
theorem SoundBlocks.sum_groupBlocks_lt (h : fs.SoundBlocks) :
    ∑ g ∈ Finset.range fs.nrBlkGroup, fs.groupBlocks g < 2 ^ 32 := by
  have hle : ∑ g ∈ Finset.range fs.nrBlkGroup, fs.groupBlocks g ≤
      ∑ g ∈ Finset.range fs.nrBlkGroup, min fs.sb.sBlocksPerGroup
        (fs.sb.sBlocksCount - fs.sb.sFirstDataBlock - g * fs.sb.sBlocksPerGroup) := by
    apply Finset.sum_le_sum
    intro g _
    unfold groupBlocks
    omega
  have hsum := sum_groups_le (fs.sb.sBlocksCount - fs.sb.sFirstDataBlock) fs.sb.sBlocksPerGroup
    fs.nrBlkGroup
  have hcount := h.count
  omega

/-! ## Changes of one bit -/

/-- The bitmaps, counters and blocks after one bit has changed. -/
structure BitChanged (fs fs' : Fs) (g : ℕ) (map : Bytes) (count total : ℕ) : Prop where
  geometry : fs'.sb = { fs.sb with sFreeBlocksCount := total }
  groups : fs'.nrBlkGroup = fs.nrBlkGroup
  desc : fs'.bgdTable = Function.update fs.bgdTable g
    { fs.bgdTable g with bgFreeBlocksCount := count }
  blocks : ∀ h < fs.nrBlkGroup, fs'.blocks (fs.bgdTable h).bgBlockBitmap =
    if h = g then map else fs.blocks (fs.bgdTable h).bgBlockBitmap

variable {fs' : Fs} {map : Bytes} {count total : ℕ}

theorem BitChanged.bitmap (h : BitChanged fs fs' g map count total) (k : ℕ) :
    (fs'.bgdTable k).bgBlockBitmap = (fs.bgdTable k).bgBlockBitmap := by
  rw [h.desc]
  by_cases hk : k = g
  · rw [hk, Function.update_self]
  · rw [Function.update_of_ne hk]

theorem BitChanged.blockMap (h : BitChanged fs fs' g map count total) {k : ℕ}
    (hk : k < fs.nrBlkGroup) : fs'.blockMap k = if k = g then map else fs.blockMap k := by
  unfold Fs.blockMap
  rw [h.bitmap k]
  exact h.blocks k hk

theorem BitChanged.groupOf (h : BitChanged fs fs' g map count total) (b : ℕ) :
    fs'.groupOf b = fs.groupOf b := by
  unfold Fs.groupOf
  rw [h.geometry]

theorem BitChanged.indexOf (h : BitChanged fs fs' g map count total) (b : ℕ) :
    fs'.indexOf b = fs.indexOf b := by
  unfold Fs.indexOf
  rw [h.geometry]

theorem BitChanged.groupBlocks (h : BitChanged fs fs' g map count total) (k : ℕ) :
    fs'.groupBlocks k = fs.groupBlocks k := by
  unfold Fs.groupBlocks Fs.bitsPerBlock Superblock.blocksize
  rw [h.geometry]

theorem BitChanged.described (h : BitChanged fs fs' g map count total) (b : ℕ) :
    fs'.Described b ↔ fs.Described b := by
  constructor
  · intro hb
    have hfirst := hb.first
    have hgroup := hb.group
    have hindex := hb.index
    rw [h.geometry] at hfirst
    rw [h.groupOf, h.groups] at hgroup
    rw [h.groupOf, h.indexOf, h.groupBlocks] at hindex
    exact ⟨hfirst, hgroup, hindex⟩
  · intro hb
    refine ⟨?_, ?_, ?_⟩
    · rw [h.geometry]
      exact hb.first
    · rw [h.groupOf, h.groups]
      exact hb.group
    · rw [h.groupOf, h.indexOf, h.groupBlocks]
      exact hb.index

/-- A block keeps its mark if the changed bitmap still has its bit. -/
theorem BitChanged.marked (h : BitChanged fs fs' g map count total) (hb : fs.Described b)
    (hmark : fs.Marked b) (hmap : fs.groupOf b = g → getBit map (fs.indexOf b) = true) :
    fs'.Marked b := by
  unfold Marked at hmark ⊢
  rw [h.groupOf, h.indexOf, h.blockMap hb.group]
  split
  next hg => exact hmap hg
  next => exact hmark

theorem SoundBlocks.changed (hs : fs.SoundBlocks) (h : BitChanged fs fs' g map count total)
    (hcount : count < 2 ^ 16) (htallied : fs'.BlocksTallied)
    (hreserved : ∀ k < fs.nrBlkGroup, fs.Described (fs.bgdTable k).bgBlockBitmap →
      fs'.Marked (fs.bgdTable k).bgBlockBitmap)
    (hzero : fs.Described 0 → fs'.Marked 0) : fs'.SoundBlocks := by
  constructor
  · rw [h.groups, ← hs.accepted, h.geometry]
    rfl
  · rw [h.geometry]
    exact hs.count
  · rw [h.geometry]
    exact hs.first
  · intro k hk
    rw [h.groups] at hk
    rw [h.desc]
    by_cases hkg : k = g
    · rw [hkg, Function.update_self]
      exact hcount
    · rw [Function.update_of_ne hkg]
      exact hs.fields k hk
  · intro j hj k hk
    rw [h.groups] at hj hk
    rw [h.bitmap, h.bitmap]
    exact hs.apart j hj k hk
  · intro k hk
    rw [h.groups] at hk
    rw [h.bitmap]
    exact hs.nonzero k hk
  · intro k hk
    rw [h.groups] at hk
    rw [h.bitmap, h.described]
    exact hreserved k hk
  · rw [h.described]
    exact hzero
  · exact htallied

/-! ## `ext2_balloc` -/

-- unfolding first keeps the checker from comparing the two file systems themselves
theorem takeBlock_nrBlkGroup (fs : Fs) (g off : ℕ) :
    (fs.takeBlock g off).nrBlkGroup = fs.nrBlkGroup := by
  unfold takeBlock
  rfl

theorem SoundBlocks.takeBlock (hs : fs.SoundBlocks) (hg : g < fs.nrBlkGroup)
    (hcount : (fs.bgdTable g).bgFreeBlocksCount ≠ 0) {fs' : Fs}
    (hblocks : ∀ n, (∃ k < fs.nrBlkGroup, n = (fs.bgdTable k).bgBlockBitmap) →
      fs'.blocks n = (fs.takeBlock g off).blocks n)
    (hrest : fs'.sb = (fs.takeBlock g off).sb ∧ fs'.bgdTable = (fs.takeBlock g off).bgdTable ∧
      fs'.nrBlkGroup = (fs.takeBlock g off).nrBlkGroup) :
    BitChanged fs fs' g (setBit (fs.blockMap g) off) ((fs.bgdTable g).bgFreeBlocksCount - 1)
      (fs.sb.sFreeBlocksCount - 1) := by
  have hle : (fs.bgdTable g).bgFreeBlocksCount ≤ fs.sb.sFreeBlocksCount :=
    hs.tallied.count_le hg
  have hdecr : decr 32 fs.sb.sFreeBlocksCount = fs.sb.sFreeBlocksCount - 1 :=
    decr_eq (by omega)
  have hdecr' : decr 16 (fs.bgdTable g).bgFreeBlocksCount =
      (fs.bgdTable g).bgFreeBlocksCount - 1 := decr_eq hcount
  have hsb : (fs.takeBlock g off).sb =
      { fs.sb with sFreeBlocksCount := decr 32 fs.sb.sFreeBlocksCount } := rfl
  have hdesc : (fs.takeBlock g off).bgdTable = Function.update fs.bgdTable g
      { fs.bgdTable g with bgFreeBlocksCount := decr 16 (fs.bgdTable g).bgFreeBlocksCount } := rfl
  constructor
  · rw [hrest.1, hsb, hdecr]
  · rw [hrest.2.2, takeBlock_nrBlkGroup]
  · rw [hrest.2.1, hdesc, hdecr']
  · intro k hk
    rw [hblocks _ ⟨k, hk, rfl⟩]
    have hstep : (fs.takeBlock g off).blocks = Function.update fs.blocks
        (fs.bgdTable g).bgBlockBitmap (setBit (fs.blockMap g) off) := rfl
    rw [hstep]
    by_cases hkg : k = g
    · rw [hkg, Function.update_self, if_pos rfl]
    · rw [Function.update_of_ne fun heq => hkg (hs.apart k hk g hg heq), if_neg hkg]

/-- What the search for a block rests on: the counters are the numbers of clear bits, and
block 0 is not free. -/
structure CountedBlocks (fs : Fs) : Prop where
  count : fs.sb.sBlocksCount < 2 ^ 32
  zero : fs.Described 0 → fs.Marked 0
  tallied : fs.BlocksTallied

theorem SoundBlocks.counted (hs : fs.SoundBlocks) : fs.CountedBlocks :=
  ⟨hs.count, hs.zero, hs.tallied⟩

/-- A group with a counter that is not zero gives its first clear bit. -/
theorem CountedBlocks.ballocBgd (hs : fs.CountedBlocks) (hg : g < fs.nrBlkGroup)
    (hcount : (fs.bgdTable g).bgFreeBlocksCount ≠ 0) :
    ∃ off, off < fs.groupBlocks g ∧ getBit (fs.blockMap g) off = false ∧
      fs.blockAt g off ≠ 0 ∧ fs.ballocBgd g = .ok (fs.blockAt g off, fs.takeBlock g off) := by
  have hclear : clearCount (fs.blockMap g) (fs.groupBlocks g) ≠ 0 := by
    rw [← hs.tallied.count g hg]
    exact hcount
  obtain ⟨k, hk, hbit⟩ := exists_clear hclear
  obtain ⟨off, hscan, hle⟩ := scan_of_clear (Nat.zero_le k)
    (by rw [Nat.zero_add]; exact lt_bitsPerBlock hk) hbit
  obtain ⟨hoffclear, _⟩ := scan_eq_some hscan
  have hoff : off < fs.groupBlocks g := lt_of_le_of_lt hle hk
  have hlt : fs.blockAt g off < 2 ^ 32 := (blockAt_lt hoff).trans hs.count
  refine ⟨off, hoff, hoffclear, ?_, ?_⟩
  · intro hzero
    have hdesc := described_blockAt hg hoff
    have hfree := not_marked_blockAt hoff hoffclear
    rw [hzero] at hdesc hfree
    exact hfree (hs.zero hdesc)
  · unfold Fs.ballocBgd
    rw [if_neg hcount, show fs.blocks (fs.bgdTable g).bgBlockBitmap = fs.blockMap g from rfl, hscan]
    dsimp only
    rw [show off + g * fs.sb.sBlocksPerGroup + fs.sb.sFirstDataBlock = fs.blockAt g off from rfl,
      Nat.mod_eq_of_lt hlt]

/-- The outcome of the search for a block. -/
def Allocates (fs : Fs) (r : ℕ × Fs) : Prop :=
  ∃ g off, g < fs.nrBlkGroup ∧ (fs.bgdTable g).bgFreeBlocksCount ≠ 0 ∧ off < fs.groupBlocks g ∧
    getBit (fs.blockMap g) off = false ∧ fs.blockAt g off ≠ 0 ∧
    r = (fs.blockAt g off, fs.takeBlock g off)

theorem CountedBlocks.ballocOthers (hs : fs.CountedBlocks) (skip : ℕ) (gs : List ℕ)
    (hgs : ∀ g ∈ gs, g < fs.nrBlkGroup) :
    ∃ r, fs.ballocOthers skip gs = .ok r ∧
      (fs.Allocates r ∨
        r = (0, fs) ∧ ∀ g ∈ gs, g ≠ skip → (fs.bgdTable g).bgFreeBlocksCount = 0) := by
  induction gs with
  | nil => exact ⟨(0, fs), rfl, Or.inr ⟨rfl, by simp⟩⟩
  | cons g gs ih =>
      obtain ⟨r, hrun, hr⟩ := ih fun g' hg' => hgs g' (List.mem_cons_of_mem g hg')
      have hg := hgs g List.mem_cons_self
      rw [Fs.ballocOthers]
      by_cases hskip : g = skip
      · rw [if_pos hskip]
        refine ⟨r, hrun, hr.imp_right ?_⟩
        rintro ⟨hr, hall⟩
        refine ⟨hr, ?_⟩
        intro g' hg' hne
        rcases List.mem_cons.mp hg' with rfl | hg'
        · exact (hne hskip).elim
        · exact hall g' hg' hne
      · rw [if_neg hskip]
        by_cases hcount : (fs.bgdTable g).bgFreeBlocksCount = 0
        · have hnone : fs.ballocBgd g = .ok (0, fs) := by
            unfold Fs.ballocBgd
            rw [if_pos hcount]
          rw [hnone]
          refine ⟨r, ?_, hr.imp_right ?_⟩
          · simp only [bind, Except.bind, ne_eq, not_true_eq_false, if_false]
            exact hrun
          · rintro ⟨hr, hall⟩
            refine ⟨hr, ?_⟩
            intro g' hg' hne
            rcases List.mem_cons.mp hg' with rfl | hg'
            · exact hcount
            · exact hall g' hg' hne
        · obtain ⟨off, hoff, hclear, hnz, hfound⟩ := hs.ballocBgd hg hcount
          rw [hfound]
          refine ⟨(fs.blockAt g off, fs.takeBlock g off), ?_,
            Or.inl ⟨g, off, hg, hcount, hoff, hclear, hnz, rfl⟩⟩
          simp [bind, Except.bind, hnz]

theorem ballocBgd_of_zero (hcount : (fs.bgdTable g).bgFreeBlocksCount = 0) :
    fs.ballocBgd g = .ok (0, fs) := by
  unfold Fs.ballocBgd
  rw [if_pos hcount]

theorem ballocGroups_of_hit {num block : ℕ} {fs' : Fs} (hfree : fs.sb.sFreeBlocksCount ≠ 0)
    (hnum : fs.inodeGroup num < fs.nrBlkGroup)
    (hfound : fs.ballocBgd (fs.inodeGroup num) = .ok (block, fs')) (hblock : block ≠ 0) :
    fs.ballocGroups num = .ok (block, fs') := by
  unfold Fs.ballocGroups
  rw [if_neg hfree, if_neg (Nat.not_le.mpr hnum), hfound, ok_bind]
  exact if_pos hblock

theorem ballocGroups_of_miss {num : ℕ} (hfree : fs.sb.sFreeBlocksCount ≠ 0)
    (hnum : fs.inodeGroup num < fs.nrBlkGroup)
    (hcount : (fs.bgdTable (fs.inodeGroup num)).bgFreeBlocksCount = 0) :
    fs.ballocGroups num =
      fs.ballocOthers (fs.inodeGroup num) (List.range fs.nrBlkGroup) := by
  unfold Fs.ballocGroups
  rw [if_neg hfree, if_neg (Nat.not_le.mpr hnum), ballocBgd_of_zero hcount, ok_bind]
  exact if_neg (not_not.mpr rfl)

theorem CountedBlocks.ballocGroups (hs : fs.CountedBlocks) {num : ℕ}
    (hnum : fs.inodeGroup num < fs.nrBlkGroup) :
    ∃ r, fs.ballocGroups num = .ok r ∧
      (fs.Allocates r ∨ r = (0, fs) ∧ fs.sb.sFreeBlocksCount = 0) := by
  by_cases hfree : fs.sb.sFreeBlocksCount = 0
  · refine ⟨(0, fs), ?_, Or.inr ⟨rfl, hfree⟩⟩
    unfold Fs.ballocGroups
    exact if_pos hfree
  · by_cases hcount : (fs.bgdTable (fs.inodeGroup num)).bgFreeBlocksCount = 0
    · obtain ⟨r, hrun, hr⟩ := hs.ballocOthers (fs.inodeGroup num) (List.range fs.nrBlkGroup)
        fun g hg => List.mem_range.mp hg
      refine ⟨r, (ballocGroups_of_miss hfree hnum hcount).trans hrun, Or.inl ?_⟩
      apply hr.resolve_right
      rintro ⟨_, hall⟩
      obtain ⟨g, hg, hne⟩ := hs.tallied.exists_count hfree
      by_cases hskip : g = fs.inodeGroup num
      · exact hne (hskip ▸ hcount)
      · exact hne (hall g (List.mem_range.mpr hg) hskip)
    · obtain ⟨off, hoff, hclear, hnz, hfound⟩ := hs.ballocBgd hnum hcount
      refine ⟨_, ballocGroups_of_hit hfree hnum hfound hnz, Or.inl ?_⟩
      exact ⟨fs.inodeGroup num, off, hnum, hcount, hoff, hclear, hnz, rfl⟩

theorem inodeGroup_lt {num : ℕ} (haccept : fs.sb.ext2Init = .ok fs.nrBlkGroup) (hpos : 1 ≤ num)
    (hle : num ≤ fs.sb.sInodesCount) :
    fs.inodeGroup num < fs.nrBlkGroup := by
  obtain ⟨hper, _, hnr, _⟩ := accepted_iff haccept
  unfold inodeGroup
  rw [decr_eq (by omega), hnr]
  exact lt_groupsFor hper (by omega)

theorem SoundBlocks.blockAt_ne_bitmap (hs : fs.SoundBlocks) (hg : g < fs.nrBlkGroup)
    (hoff : off < fs.groupBlocks g) (hclear : getBit (fs.blockMap g) off = false) {k : ℕ}
    (hk : k < fs.nrBlkGroup) : fs.blockAt g off ≠ (fs.bgdTable k).bgBlockBitmap := by
  intro heq
  have hdesc := described_blockAt hg hoff
  have hfree := not_marked_blockAt hoff hclear
  rw [heq] at hdesc hfree
  exact hfree (hs.reserved k hk hdesc)

theorem BitChanged.tallied (h : BitChanged fs fs' g map count total)
    (ht : Tallied fs.nrBlkGroup fs.groupBlocks fs'.blockMap
      (fun k => (fs'.bgdTable k).bgFreeBlocksCount) total) : fs'.BlocksTallied := by
  have hsize : fs'.groupBlocks = fs.groupBlocks := funext h.groupBlocks
  unfold BlocksTallied
  rw [h.groups, hsize, h.geometry]
  exact ht

theorem BitChanged.freeBlocksCount (h : BitChanged fs fs' g map count total) (k : ℕ) :
    (fs'.bgdTable k).bgFreeBlocksCount =
      if k = g then count else (fs.bgdTable k).bgFreeBlocksCount := by
  rw [h.desc]
  split
  next hk => rw [hk, Function.update_self]
  next hk => rw [Function.update_of_ne hk]

theorem SoundBlocks.tallied_set (hs : fs.SoundBlocks) (hg : g < fs.nrBlkGroup)
    (hoff : off < fs.groupBlocks g) (hclear : getBit (fs.blockMap g) off = false)
    (hcount : (fs.bgdTable g).bgFreeBlocksCount ≠ 0)
    (h : BitChanged fs fs' g (setBit (fs.blockMap g) off)
      ((fs.bgdTable g).bgFreeBlocksCount - 1) (fs.sb.sFreeBlocksCount - 1)) :
    fs'.BlocksTallied := by
  have hle : (fs.bgdTable g).bgFreeBlocksCount ≤ fs.sb.sFreeBlocksCount := hs.tallied.count_le hg
  refine h.tallied (hs.tallied.set hg hoff hclear ?_ ?_ ?_ ?_ ?_)
  · rw [h.blockMap hg, if_pos rfl]
  · intro k hk hne
    rw [h.blockMap hk, if_neg hne]
  · rw [h.freeBlocksCount, if_pos rfl]
    omega
  · intro k _ hne
    rw [h.freeBlocksCount, if_neg hne]
  · omega

theorem SoundBlocks.tallied_clear (hs : fs.SoundBlocks) (hg : g < fs.nrBlkGroup)
    (hoff : off < fs.groupBlocks g) (hset : getBit (fs.blockMap g) off = true)
    (h : BitChanged fs fs' g (clearBit (fs.blockMap g) off)
      ((fs.bgdTable g).bgFreeBlocksCount + 1) (fs.sb.sFreeBlocksCount + 1)) :
    fs'.BlocksTallied := by
  refine h.tallied (hs.tallied.clear hg hoff hset ?_ ?_ ?_ ?_ rfl)
  · rw [h.blockMap hg, if_pos rfl]
  · intro k hk hne
    rw [h.blockMap hk, if_neg hne]
  · rw [h.freeBlocksCount, if_pos rfl]
  · intro k _ hne
    rw [h.freeBlocksCount, if_neg hne]

end Fs

namespace BlockUse

open Fs

variable {s : BlockUse} {b : ℕ}

/-- One bit changes, and none of those which mark bitmaps or block 0. -/
theorem Sound.changed (hs : s.Sound) {fs' : Fs} {g count total : ℕ} {map : Bytes}
    {owned : List ℕ} (h : BitChanged s.fs fs' g map count total) (hcount : count < 2 ^ 16)
    (htallied : fs'.BlocksTallied)
    (hbits : ∀ b, s.fs.Described b → s.fs.Marked b →
      b ∈ owned ∨ b = 0 ∨ (∃ k < s.fs.nrBlkGroup, b = (s.fs.bgdTable k).bgBlockBitmap) →
      fs'.Marked b)
    (hnodup : owned.Nodup)
    (howned : ∀ b ∈ owned, s.fs.Described b ∧ (s.fs.Marked b ∨ fs'.Marked b) ∧ b ≠ 0 ∧
      ∀ k < s.fs.nrBlkGroup, b ≠ (s.fs.bgdTable k).bgBlockBitmap) :
    Sound ⟨fs', owned⟩ := by
  refine ⟨?_, hnodup, ?_, ?_, ?_⟩
  · apply hs.fs.changed h hcount htallied
    · intro k hk hdesc
      exact hbits _ hdesc (hs.fs.reserved k hk hdesc) (Or.inr (Or.inr ⟨k, hk, rfl⟩))
    · intro hdesc
      exact hbits 0 hdesc (hs.fs.zero hdesc) (Or.inr (Or.inl rfl))
  · intro b hb
    exact (h.described b).mpr (howned b hb).1
  · intro b hb
    obtain ⟨hdesc, hmark, _⟩ := howned b hb
    rcases hmark with hmark | hmark
    · exact hbits b hdesc hmark (Or.inl hb)
    · exact hmark
  · intro b hb
    obtain ⟨_, _, hzero, hmaps⟩ := howned b hb
    refine ⟨hzero, ?_⟩
    intro k hk
    rw [h.bitmap]
    rw [h.groups] at hk
    exact hmaps k hk

theorem Sound.owned_facts (hs : s.Sound) (hb : b ∈ s.owned) :
    s.fs.Described b ∧ s.fs.Marked b ∧ b ≠ 0 ∧
      ∀ k < s.fs.nrBlkGroup, b ≠ (s.fs.bgdTable k).bgBlockBitmap :=
  ⟨hs.described b hb, hs.marked b hb, hs.data b hb⟩

theorem Sound.allocates (hs : s.Sound) {r : ℕ × Fs} (hr : s.fs.Allocates r) :
    Sound ⟨r.2.handOut r.1, r.1 :: s.owned⟩ := by
  obtain ⟨g, off, hg, hcount, hoff, hclear, hzero, rfl⟩ := hr
  have hper := lt_blocksPerGroup hoff
  have hfree := not_marked_blockAt hoff hclear
  have hmaps := fun k hk => hs.fs.blockAt_ne_bitmap hg hoff hclear (k := k) hk
  have hchange : BitChanged s.fs
      ((s.fs.takeBlock g off).handOut (s.fs.blockAt g off)) g
      (setBit (s.fs.blockMap g) off) ((s.fs.bgdTable g).bgFreeBlocksCount - 1)
      (s.fs.sb.sFreeBlocksCount - 1) := by
    apply hs.fs.takeBlock hg hcount
    · rintro n ⟨k, hk, rfl⟩
      exact Function.update_of_ne (hmaps k hk).symm _ _
    · exact ⟨rfl, rfl, rfl⟩
  have hfield := hs.fs.fields g hg
  refine hs.changed hchange (by omega) (hs.fs.tallied_set hg hoff hclear hcount hchange) ?_ ?_ ?_
  · intro b hdesc hmark _
    apply hchange.marked hdesc hmark
    intro hgroup
    unfold Marked at hmark
    rw [getBit_setBit, ← hgroup, hmark, Bool.or_true]
  · refine List.nodup_cons.mpr ⟨?_, hs.nodup⟩
    intro hmem
    exact hfree (hs.marked _ hmem)
  · intro b hb
    rcases List.mem_cons.mp hb with rfl | hb
    · refine ⟨described_blockAt hg hoff, Or.inr ?_, hzero, hmaps⟩
      unfold Marked
      rw [hchange.groupOf, hchange.indexOf, groupOf_blockAt hper, indexOf_blockAt hper,
        hchange.blockMap hg, if_pos rfl, getBit_setBit, decide_eq_true rfl, Bool.true_or]
    · obtain ⟨hdesc, hmark, hrest⟩ := hs.owned_facts hb
      exact ⟨hdesc, Or.inl hmark, hrest⟩

theorem Sound.written (hs : s.Sound) {n : ℕ} (d : Bytes) (found : ℕ → Bytes)
    (hn : ∀ k < s.fs.nrBlkGroup, (s.fs.bgdTable k).bgBlockBitmap ≠ n) :
    Sound ⟨{ s.fs.setBlock n d with found := found }, s.owned⟩ := by
  have hmaps : ∀ k < s.fs.nrBlkGroup,
      ({ s.fs.setBlock n d with found := found } : Fs).blockMap k = s.fs.blockMap k := by
    intro k hk
    exact Function.update_of_ne (hn k hk) _ _
  have hmarks : ∀ b, s.fs.Described b → s.fs.Marked b →
      ({ s.fs.setBlock n d with found := found } : Fs).Marked b := by
    intro b hdesc hmark
    unfold Marked at hmark ⊢
    rw [← hmark, ← hmaps _ hdesc.group]
    rfl
  refine ⟨⟨hs.fs.accepted, hs.fs.count, hs.fs.first, hs.fs.fields, hs.fs.apart, hs.fs.nonzero,
    ?_, ?_, ?_⟩, hs.nodup, ?_, ?_, hs.data⟩
  · intro k hk hdesc
    have hdesc' : s.fs.Described (s.fs.bgdTable k).bgBlockBitmap :=
      ⟨hdesc.first, hdesc.group, hdesc.index⟩
    exact hmarks _ hdesc' (hs.fs.reserved k hk hdesc')
  · intro hdesc
    have hdesc' : s.fs.Described 0 := ⟨hdesc.first, hdesc.group, hdesc.index⟩
    exact hmarks 0 hdesc' (hs.fs.zero hdesc')
  · exact hs.fs.tallied.congr hmaps fun _ _ => rfl
  · intro b hb
    have hdesc := hs.described b hb
    exact ⟨hdesc.first, hdesc.group, hdesc.index⟩
  · intro b hb
    exact hmarks b (hs.described b hb) (hs.marked b hb)

theorem Sound.setBlock (hs : s.Sound) {n : ℕ} (d : Bytes)
    (hn : ∀ k < s.fs.nrBlkGroup, (s.fs.bgdTable k).bgBlockBitmap ≠ n) :
    Sound ⟨s.fs.setBlock n d, s.owned⟩ := hs.written d s.fs.found hn

theorem Sound.balloc (hs : s.Sound) {ip : Inode} (hsafe : s.SafeStep (.balloc ip)) :
    ∃ s', s.step (.balloc ip) = .ok s' ∧ s'.Sound := by
  obtain ⟨hpos, hle⟩ := hsafe
  obtain ⟨r, hrun, hr⟩ := hs.fs.counted.ballocGroups (inodeGroup_lt hs.fs.accepted hpos hle)
  have hstep : s.step (.balloc ip) = .ok ⟨r.2.handOut r.1,
      if r.1 = 0 then s.owned else r.1 :: s.owned⟩ := by
    unfold step Fs.balloc
    dsimp only
    rw [hrun, ok_bind]
    rfl
  refine ⟨_, hstep, ?_⟩
  rcases hr with hfound | ⟨rfl, _⟩
  · have hne : r.1 ≠ 0 := by
      obtain ⟨g, off, _, _, _, _, hne, rfl⟩ := hfound
      exact hne
    rw [if_neg hne]
    exact hs.allocates hfound
  · rw [if_pos rfl]
    exact hs.written _ _ hs.fs.nonzero

theorem Sound.bfree_group (hs : s.Sound)
    (hsafe : s.fs.sb.sFirstDataBlock = 0 ∨ b % s.fs.sb.sBlocksPerGroup ≠ 0) :
    b / s.fs.sb.sBlocksPerGroup = s.fs.groupOf b := by
  have hfirst := hs.fs.first
  unfold groupOf
  rcases Nat.le_one_iff_eq_zero_or_eq_one.mp hfirst with hzero | hone
  · rw [hzero, Nat.sub_zero]
  · rw [hone] at hsafe ⊢
    have hmod : b % s.fs.sb.sBlocksPerGroup ≠ 0 := hsafe.resolve_left Nat.one_ne_zero
    have hsplit := Nat.div_add_mod b s.fs.sb.sBlocksPerGroup
    have hlt : b % s.fs.sb.sBlocksPerGroup < s.fs.sb.sBlocksPerGroup :=
      Nat.mod_lt _ (Nat.pos_of_ne_zero (accepted_iff hs.fs.accepted).2.1)
    symm
    apply Nat.div_eq_of_lt_le
    · rw [Nat.mul_comm]
      omega
    · rw [Nat.succ_mul, Nat.mul_comm]
      omega

theorem Sound.bfreeBit_eq (hs : s.Sound) (hb : b ∈ s.owned)
    (hgroup : b / s.fs.sb.sBlocksPerGroup = s.fs.groupOf b) :
    s.fs.bfreeBit b = s.fs.indexOf b := by
  have hdesc := hs.described b hb
  have hplace := blockAt_of_described hdesc
  have hlt := blockAt_lt hdesc.index
  have hcount := hs.fs.count
  rw [hplace] at hlt
  unfold blockAt at hplace
  have hsmall : s.fs.sb.sFirstDataBlock + s.fs.groupOf b * s.fs.sb.sBlocksPerGroup < 2 ^ 32 := by
    omega
  unfold bfreeBit
  rw [hgroup, Nat.mod_eq_of_lt hsmall]
  have hsum : b + (2 ^ 32 - (s.fs.sb.sFirstDataBlock +
      s.fs.groupOf b * s.fs.sb.sBlocksPerGroup)) = 2 ^ 32 + s.fs.indexOf b := by omega
  rw [hsum, Nat.add_mod_left, Nat.mod_eq_of_lt (by omega)]

theorem Sound.giveBlock (hs : s.Sound) (hb : b ∈ s.owned)
    (hcount : (s.fs.bgdTable (s.fs.groupOf b)).bgFreeBlocksCount ≠ 2 ^ 16 - 1) :
    BitChanged s.fs (s.fs.giveBlock (s.fs.groupOf b) (s.fs.indexOf b)) (s.fs.groupOf b)
      (clearBit (s.fs.blockMap (s.fs.groupOf b)) (s.fs.indexOf b))
      ((s.fs.bgdTable (s.fs.groupOf b)).bgFreeBlocksCount + 1) (s.fs.sb.sFreeBlocksCount + 1) := by
  obtain ⟨hdesc, hmark, _⟩ := hs.owned_facts hb
  have htotal : s.fs.sb.sFreeBlocksCount < ∑ g ∈ Finset.range s.fs.nrBlkGroup, s.fs.groupBlocks g :=
    hs.fs.tallied.total_lt hdesc.group hdesc.index hmark
  have hsum := hs.fs.sum_groupBlocks_lt
  have hfield := hs.fs.fields _ hdesc.group
  have hincr : incr 32 s.fs.sb.sFreeBlocksCount = s.fs.sb.sFreeBlocksCount + 1 :=
    incr_eq (by omega)
  have hincr' : incr 16 (s.fs.bgdTable (s.fs.groupOf b)).bgFreeBlocksCount =
      (s.fs.bgdTable (s.fs.groupOf b)).bgFreeBlocksCount + 1 := incr_eq (by omega)
  constructor
  · rw [← hincr]
    rfl
  · rfl
  · rw [← hincr']
    rfl
  · intro k hk
    unfold Fs.giveBlock
    dsimp only
    by_cases hkg : k = s.fs.groupOf b
    · rw [hkg, Function.update_self, if_pos rfl]
      rfl
    · rw [Function.update_of_ne fun heq => hkg (hs.fs.apart k hk _ hdesc.group heq), if_neg hkg]

theorem Sound.bfree (hs : s.Sound) (hsafe : s.SafeStep (.bfree b)) :
    ∃ s', s.step (.bfree b) = .ok s' ∧ s.fs.ClearsExactly s'.fs b ∧ s'.Sound := by
  obtain ⟨hb, hplace, hcount⟩ := hsafe
  obtain ⟨hdesc, hmark, hzero, hmaps⟩ := hs.owned_facts hb
  have hgroup := hs.bfree_group hplace
  have hbit := hs.bfreeBit_eq hb hgroup
  have hfree : s.fs.bfree b = .ok (s.fs.giveBlock (s.fs.groupOf b) (s.fs.indexOf b)) := by
    unfold Fs.bfree
    dsimp only
    rw [if_neg hzero, hgroup, hbit, if_neg (Nat.not_le.mpr hdesc.group),
      if_neg (Nat.not_le.mpr (lt_bitsPerBlock hdesc.index)), if_neg]
    intro hclear
    unfold Marked blockMap at hmark
    rw [hclear] at hmark
    cases hmark
  have hstep : s.step (.bfree b) =
      .ok ⟨s.fs.giveBlock (s.fs.groupOf b) (s.fs.indexOf b), s.owned.erase b⟩ := by
    unfold step
    dsimp only
    rw [hfree, ok_bind]
  have hchange := hs.giveBlock hb hcount
  have hfield := hs.fs.fields _ hdesc.group
  refine ⟨_, hstep, rfl, ?_⟩
  refine hs.changed hchange (by omega)
    (hs.fs.tallied_clear hdesc.group hdesc.index hmark hchange) ?_ (hs.nodup.erase b) ?_
  · intro b' hdesc' hmark' hkind
    -- the other blocks have other bits
    have hne : b' ≠ b := by
      rintro rfl
      rcases hkind with hmem | h0 | ⟨k, hk, hmap⟩
      · exact (List.Nodup.mem_erase_iff hs.nodup).mp hmem |>.1 rfl
      · exact hzero h0
      · exact hmaps k hk hmap
    apply hchange.marked hdesc' hmark'
    intro hsame
    have hindex : s.fs.indexOf b' ≠ s.fs.indexOf b := by
      intro heq
      exact hne (eq_of_place hdesc' hdesc hsame heq)
    unfold Marked at hmark'
    rw [getBit_clearBit, ← hsame, hmark', decide_eq_true hindex, Bool.and_true]
  · intro b' hb'
    obtain ⟨hd, hm, hrest⟩ := hs.owned_facts (List.mem_of_mem_erase hb')
    exact ⟨hd, Or.inl hm, hrest⟩

/-- In every run of safe calls, the bitmaps and counters agree in every state,
no block is handed out twice, and `ext2_bfree` clears the bit of its block. -/
theorem keeps_of_safeRun (ops : List BlockOp) (hs : s.Sound) (hsafe : s.SafeRun ops) :
    s.Keeps ops := by
  induction ops generalizing s with
  | nil => exact ⟨hs.fs.tallied, hs.nodup⟩
  | cons op ops ih =>
      obtain ⟨hop, hrest⟩ := hsafe
      refine ⟨⟨hs.fs.tallied, hs.nodup⟩, ?_⟩
      cases op with
      | balloc ip =>
          obtain ⟨s', hstep, hs'⟩ := hs.balloc hop
          rw [hstep] at hrest
          exact ⟨s', hstep, nofun, ih hs' hrest⟩
      | bfree b =>
          obtain ⟨s', hstep, hclear, hs'⟩ := hs.bfree hop
          rw [hstep] at hrest
          refine ⟨s', hstep, ?_, ih hs' hrest⟩
          rintro b' heq
          obtain rfl := BlockOp.bfree.inj heq
          exact hclear

/-! ## A small file system -/

/-- Two groups of eight blocks which start at block 1, with their bitmaps in
blocks 2 and 3.  Block 4 belongs to a file, and the only free block of the first
group is its last. -/
def twoGroups : BlockUse where
  fs :=
    { sb :=
        { sInodesCount := 16, sBlocksCount := 16, sFreeBlocksCount := 8, sFreeInodesCount := 0,
          sFirstDataBlock := 1, sLogBlockSize := 0, sBlocksPerGroup := 8, sInodesPerGroup := 8,
          sMagic := Superblock.ext2Magic, sState := 1, sErrors := 1, sRevLevel := 0,
          sFirstIno := 11 }
      bgdTable := fun g =>
        { bgBlockBitmap := 2 + g, bgInodeBitmap := 4 + g,
          bgFreeBlocksCount := if g = 0 then 1 else 7, bgFreeInodesCount := 0 }
      nrBlkGroup := 2
      modified := false
      blocks := fun n i => if n = 2 ∧ i = 0 then 0x7F#8 else 0#8 }
  owned := [4]

theorem sound_twoGroups : twoGroups.Sound where
  fs :=
    { accepted := rfl
      count := by decide
      first := by decide
      fields := by decide
      apart := by decide
      nonzero := by decide
      reserved := by decide
      zero := by decide
      tallied := ⟨by decide, by decide⟩ }
  nodup := by decide
  described := by decide
  marked := by decide
  data := by decide

theorem keeps_of_safeRun_twoGroups :
    twoGroups.Keeps [.balloc ⟨9, 0, false⟩, .bfree 4, .balloc ⟨1, 0, false⟩] :=
  keeps_of_safeRun _ sound_twoGroups (by decide +kernel)

/-- How a run halts, if it does. -/
def halts (s : BlockUse) : List BlockOp → Option Halt
  | [] => none
  | op :: ops =>
      match s.step op with
      | .ok s' => s'.halts ops
      | .error e => some e

theorem Keeps.halts_eq {ops : List BlockOp} (h : s.Keeps ops) : s.halts ops = none := by
  induction ops generalizing s with
  | nil => rfl
  | cons op ops ih =>
      obtain ⟨_, s', hstep, _, hrest⟩ := h
      rw [halts, hstep]
      exact ih hrest

/-- The last free block of the first group is allocated and freed again. -/
theorem not_keeps_last_block : twoGroups.Sound ∧
    (∃ s, twoGroups.step (.balloc ⟨1, 0, false⟩) = .ok s ∧ s.owned = [8, 4]) ∧
    ¬twoGroups.Keeps [.balloc ⟨1, 0, false⟩, .bfree 8] := by
  refine ⟨sound_twoGroups, ⟨_, rfl, by decide +kernel⟩, ?_⟩
  intro hkeeps
  have hhalt : twoGroups.halts [.balloc ⟨1, 0, false⟩, .bfree 8] =
      some .outOfBounds := by decide +kernel
  rw [hkeeps.halts_eq] at hhalt
  cases hhalt

end BlockUse

end Yak.Ext2
