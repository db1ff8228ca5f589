import Yak.BlockBitmap
import Yak.Bmap

/-!
# What `ext2_balloc` finds

With counters that are the numbers of clear bits, `ext2_balloc` finds a block whenever there
is one, provided that block 0 and the bitmaps are not among the free blocks.  When nothing is
found, `ext2_balloc` goes on with block 0 as if it had been found.
-/

namespace Yak.Ext2.Fs

open ByteBitmap

variable {fs fs' : Fs} {inode inode' : Inode} {b g k off : ℕ}

/-! ## A block is found -/

/-- The counters are the numbers of clear bits of the bitmap blocks, in which the bits behind
the last block of the group are set. -/
structure CountsClear (fs : Fs) : Prop where
  accepted : fs.sb.ext2Init = .ok fs.nrBlkGroup
  count : fs.sb.sBlocksCount < 2 ^ 32
  padding : ∀ g < fs.nrBlkGroup, ∀ k, fs.groupBlocks g ≤ k → k < fs.bitsPerBlock →
    getBit (fs.blockMap g) k = true
  tallied : Tallied fs.nrBlkGroup (fun _ => fs.bitsPerBlock) fs.blockMap
    (fun g => (fs.bgdTable g).bgFreeBlocksCount) fs.sb.sFreeBlocksCount

/-- Block 0 and the bitmaps are marked where a bitmap describes them. -/
structure Reserves (fs : Fs) : Prop where
  zero : fs.Described 0 → fs.Marked 0
  bitmaps : ∀ g < fs.nrBlkGroup, fs.Described (fs.bgdTable g).bgBlockBitmap →
    fs.Marked (fs.bgdTable g).bgBlockBitmap

/-- Some bitmap has a clear bit. -/
def SomeClear (fs : Fs) : Prop :=
  ∃ g < fs.nrBlkGroup, ∃ k < fs.bitsPerBlock, getBit (fs.blockMap g) k = false

/-- Bit `off` of group `g` was clear, it is the only one that is set now, and the two counters
which cover it are lower by one. -/
structure TakesExactly (fs : Fs) (g off : ℕ) (fs' : Fs) : Prop where
  group : g < fs.nrBlkGroup
  inside : off < fs.bitsPerBlock
  clear : getBit (fs.blockMap g) off = false
  bits : ∀ h < fs.nrBlkGroup, ∀ k, getBit (fs'.blockMap h) k =
    (decide ((fs.bgdTable h).bgBlockBitmap = (fs.bgdTable g).bgBlockBitmap ∧ k = off) ||
      getBit (fs.blockMap h) k)
  total : fs.sb.sFreeBlocksCount ≠ 0 ∧
    fs'.sb = { fs.sb with sFreeBlocksCount := fs.sb.sFreeBlocksCount - 1 }
  counter : (fs.bgdTable g).bgFreeBlocksCount ≠ 0 ∧
    fs'.bgdTable = Function.update fs.bgdTable g
      { fs.bgdTable g with bgFreeBlocksCount := (fs.bgdTable g).bgFreeBlocksCount - 1 }

/-- `ext2_balloc` returns, with a block exactly if there is a clear bit. -/
def FindsBlock (fs : Fs) (inode : Inode) : Prop :=
  ∃ b fs' inode', fs.balloc inode = .ok (b, fs', inode') ∧ (b ≠ 0 ↔ fs.SomeClear) ∧
    (b ≠ 0 → ∃ g off, b = fs.blockAt g off ∧ fs.TakesExactly g off fs')

theorem clearCount_of_padding {map : Bytes} {m n : ℕ} (hle : m ≤ n)
    (h : ∀ k, m ≤ k → k < n → getBit map k = true) : clearCount map n = clearCount map m := by
  have hsame : clearBits map n = clearBits map m := by
    ext k
    rw [mem_clearBits, mem_clearBits]
    constructor
    · rintro ⟨hk, hclear⟩
      refine ⟨?_, hclear⟩
      by_contra hge
      rw [h k (Nat.not_lt.mp hge) hk] at hclear
      cases hclear
    · rintro ⟨hk, hclear⟩
      exact ⟨hk.trans_le hle, hclear⟩
  unfold clearCount
  rw [hsame]

theorem groupBlocks_le (fs : Fs) (g : ℕ) : fs.groupBlocks g ≤ fs.bitsPerBlock :=
  (min_le_right _ _).trans (min_le_left _ _)

theorem CountsClear.counted (h : fs.CountsClear) (hzero : fs.Described 0 → fs.Marked 0) :
    fs.CountedBlocks where
  count := h.count
  zero := hzero
  tallied := by
    refine ⟨?_, h.tallied.total⟩
    intro g hg
    rw [h.tallied.count g hg]
    exact clearCount_of_padding (fs.groupBlocks_le g) (h.padding g hg)

theorem CountsClear.total_ne_zero (h : fs.CountsClear) (hclear : fs.SomeClear) :
    fs.sb.sFreeBlocksCount ≠ 0 := by
  obtain ⟨g, hg, k, hk, hbit⟩ := hclear
  have hcount : (fs.bgdTable g).bgFreeBlocksCount ≠ 0 := by
    rw [h.tallied.count g hg]
    exact Finset.card_ne_zero.mpr ⟨k, mem_clearBits.mpr ⟨hk, hbit⟩⟩
  have hle := h.tallied.count_le hg
  omega

theorem Reserves.blockAt_ne_bitmap (h : fs.Reserves) (hg : g < fs.nrBlkGroup)
    (hoff : off < fs.groupBlocks g) (hclear : getBit (fs.blockMap g) off = false) {k : ℕ}
    (hk : k < fs.nrBlkGroup) : (fs.bgdTable k).bgBlockBitmap ≠ fs.blockAt g off := by
  intro heq
  have hdesc := described_blockAt hg hoff
  have hfree := not_marked_blockAt hoff hclear
  rw [← heq] at hdesc hfree
  exact hfree (h.bitmaps k hk hdesc)

/-- What is set and counted when a block of a group is taken. -/
theorem takesExactly (h : fs.CountsClear) (hres : fs.Reserves) (hg : g < fs.nrBlkGroup)
    (hcount : (fs.bgdTable g).bgFreeBlocksCount ≠ 0) (hoff : off < fs.groupBlocks g)
    (hclear : getBit (fs.blockMap g) off = false) :
    fs.TakesExactly g off ((fs.takeBlock g off).handOut (fs.blockAt g off)) where
  group := hg
  inside := lt_bitsPerBlock hoff
  clear := hclear
  bits := by
    intro k hk j
    have hmap : ((fs.takeBlock g off).bgdTable k).bgBlockBitmap =
        (fs.bgdTable k).bgBlockBitmap := by
      unfold takeBlock
      dsimp only
      by_cases hkg : k = g
      · rw [hkg, Function.update_self]
      · rw [Function.update_of_ne hkg]
    have hblock : ((fs.takeBlock g off).handOut (fs.blockAt g off)).blockMap k =
        (fs.takeBlock g off).blocks (fs.bgdTable k).bgBlockBitmap := by
      unfold blockMap
      rw [handOut_bgdTable, hmap]
      exact Function.update_of_ne (hres.blockAt_ne_bitmap hg hoff hclear hk) _ _
    rw [hblock]
    unfold takeBlock
    dsimp only
    by_cases hsame : (fs.bgdTable k).bgBlockBitmap = (fs.bgdTable g).bgBlockBitmap
    · rw [hsame, Function.update_self, getBit_setBit]
      simp [blockMap, hsame]
    · rw [Function.update_of_ne hsame]
      simp [blockMap, hsame]
  total := by
    have hle := h.tallied.count_le hg
    have hne : fs.sb.sFreeBlocksCount ≠ 0 := by omega
    refine ⟨hne, ?_⟩
    rw [← decr_eq hne]
    rfl
  counter := by
    refine ⟨hcount, ?_⟩
    rw [← decr_eq hcount]
    rfl

/-- `ext2_balloc` finds a block where there is one, if block 0 and the bitmaps are in use. -/
theorem findsBlock (h : fs.CountsClear) (hres : fs.Reserves) (inode : Inode)
    (hnum : 1 ≤ inode.iNum ∧ inode.iNum ≤ fs.sb.sInodesCount) : fs.FindsBlock inode := by
  obtain ⟨r, hrun, hr⟩ := (h.counted hres.zero).ballocGroups
    (inodeGroup_lt h.accepted hnum.1 hnum.2)
  unfold FindsBlock balloc
  rw [hrun, ok_bind]
  refine ⟨_, _, _, rfl, ?_⟩
  rcases hr with ⟨g, off, hg, hcount, hoff, hclear, hzero, rfl⟩ | ⟨rfl, hnone⟩
  · have hsome : fs.SomeClear := ⟨g, hg, off, lt_bitsPerBlock hoff, hclear⟩
    exact ⟨iff_of_true hzero hsome, fun _ => ⟨g, off, rfl, takesExactly h hres hg hcount hoff hclear⟩⟩
  · refine ⟨iff_of_false (fun hne => hne rfl) fun hclear => h.total_ne_zero hclear hnone, ?_⟩
    exact fun hne => (hne rfl).elim

/-- The superblock of a device of one group of eight blocks, of which one is free. -/
def oneGroupSb : Superblock where
  sInodesCount := 8
  sBlocksCount := 8
  sFreeBlocksCount := 1
  sFreeInodesCount := 0
  sFirstDataBlock := 0
  sLogBlockSize := 0
  sBlocksPerGroup := 8
  sInodesPerGroup := 8
  sMagic := Superblock.ext2Magic
  sState := 1
  sErrors := 1
  sRevLevel := 0
  sFirstIno := 11

/-- The device, with the bitmap in block 3.  The bitmap starts with the given byte. -/
def oneGroup (map : BitVec 8) : Fs where
  sb := oneGroupSb
  bgdTable _ :=
    { bgBlockBitmap := 3, bgInodeBitmap := 4, bgFreeBlocksCount := 1, bgFreeInodesCount := 0 }
  nrBlkGroup := 1
  modified := false
  blocks _ i := if i = 0 then map else 0xFF#8

theorem countsClear_oneGroup {map : BitVec 8}
    (hone : clearCount (fun i => if i = 0 then map else 0xFF#8) 8 = 1) :
    (oneGroup map).CountsClear := by
  have hpad : ∀ k, 8 ≤ k → k < 8192 →
      getBit (fun i => if i = 0 then map else 0xFF#8) k = true := by
    intro k hk _
    have hbyte : k / 8 ≠ 0 := by omega
    have hbit : k % 8 < 8 := Nat.mod_lt _ (by omega)
    unfold getBit
    dsimp only
    rw [if_neg hbyte]
    interval_cases k % 8 <;> rfl
  have haccepted : oneGroupSb.ext2Init = .ok 1 := by decide
  have hcount : oneGroupSb.sBlocksCount < 2 ^ 32 := by decide
  refine ⟨haccepted, hcount, fun g hg => ?_, fun g _ => ?_, rfl⟩
  · obtain rfl : g = 0 := Nat.lt_one_iff.mp hg
    exact hpad
  · exact hone.symm.trans (clearCount_of_padding (by decide) hpad).symm

/-- Block 7 is free. -/
theorem findsBlock_oneGroup : (oneGroup 0x7F#8).FindsBlock ⟨1, 0, false⟩ :=
  findsBlock (countsClear_oneGroup (by decide)) ⟨by decide +kernel, by decide +kernel⟩ _ (by decide)

/-- A free block 0 is not found, and a free bitmap is zeroed when it is found. -/
theorem not_findsBlock_reserved :
    ((oneGroup 0xFE#8).CountsClear ∧ ¬(oneGroup 0xFE#8).FindsBlock ⟨1, 0, false⟩) ∧
      (oneGroup 0xF7#8).CountsClear ∧ ¬(oneGroup 0xF7#8).FindsBlock ⟨1, 0, false⟩ := by
  refine ⟨⟨countsClear_oneGroup (by decide), ?_⟩, countsClear_oneGroup (by decide), ?_⟩
  · rintro ⟨b, fs', inode', hrun, hfound, -⟩
    have hzero : ((oneGroup 0xFE#8).balloc ⟨1, 0, false⟩).map Prod.fst = .ok 0 := by
      decide +kernel
    rw [hrun] at hzero
    have hne : b ≠ 0 := hfound.mpr ⟨0, by decide, 0, by decide, by decide⟩
    exact hne (Except.ok.inj hzero)
  · rintro ⟨b, fs', inode', hrun, hfound, htakes⟩
    have hne : b ≠ 0 := hfound.mpr ⟨0, by decide, 3, by decide, by decide⟩
    obtain ⟨g, off, -, htaken⟩ := htakes hne
    have hbit : ((oneGroup 0xF7#8).balloc ⟨1, 0, false⟩).map
        (fun r => getBit (r.2.1.blockMap 0) 0) = .ok false := by decide +kernel
    rw [hrun] at hbit
    have hclear : getBit (fs'.blockMap 0) 0 = false := Except.ok.inj hbit
    have hset : getBit ((oneGroup 0xF7#8).blockMap 0) 0 = true := by decide
    have hbits := htaken.bits 0 (by decide) 0
    rw [hclear, hset, Bool.or_true] at hbits
    cases hbits

/-! ## Nothing is found -/

/-- No block is free, by the counter of the superblock or by those of all groups. -/
def NoneFree (fs : Fs) : Prop :=
  fs.sb.sFreeBlocksCount = 0 ∨ ∀ g < fs.nrBlkGroup, (fs.bgdTable g).bgFreeBlocksCount = 0

/-- `ext2_balloc` returns 0 and leaves the device, the counters and `i_blocks` as they were,
and `ext2_create_block` returns 0 for what is not mapped and leaves `i_block` as it was. -/
structure Harmless (fs : Fs) (ip : InodeM) : Prop where
  balloc : ∃ fs' inode', fs.balloc ip.toInode = .ok (0, fs', inode') ∧ fs'.blocks = fs.blocks ∧
    fs'.sb = fs.sb ∧ fs'.bgdTable = fs.bgdTable ∧ inode'.iBlocks = ip.iBlocks
  create : ∀ off, fs.bmap ip off = .ok (0, fs, ip) →
    ∃ fs' ip', fs.createBlock ip off = .ok (0, fs', ip') ∧ ip'.iBlock = ip.iBlock

theorem ballocOthers_of_zero {skip : ℕ} {gs : List ℕ}
    (h : ∀ g ∈ gs, (fs.bgdTable g).bgFreeBlocksCount = 0) :
    fs.ballocOthers skip gs = .ok (0, fs) := by
  induction gs with
  | nil => rfl
  | cons g gs ih =>
      obtain ⟨hg, hgs⟩ := List.forall_mem_cons.mp h
      rw [Fs.ballocOthers, ballocBgd_of_zero hg, ok_bind]
      split
      next => exact ih hgs
      next =>
        dsimp only
        rw [if_neg (not_not.mpr rfl)]
        exact ih hgs

theorem NoneFree.ballocGroups (h : fs.NoneFree) {num : ℕ} {r : ℕ × Fs}
    (hrun : fs.ballocGroups num = .ok r) : r = (0, fs) := by
  unfold Fs.ballocGroups at hrun
  split at hrun
  next => exact (Except.ok.inj hrun).symm
  next hfree =>
    have hcounts := h.resolve_left hfree
    split at hrun
    next => cases hrun
    next hnum =>
      rw [ballocBgd_of_zero (hcounts _ (Nat.not_le.mp hnum)), ok_bind] at hrun
      dsimp only at hrun
      rw [if_neg (not_not.mpr rfl),
        ballocOthers_of_zero fun g hg => hcounts g (List.mem_range.mp hg)] at hrun
      exact (Except.ok.inj hrun).symm

/-- On a full device, block 0 is handed out and `i_blocks` grows. -/
theorem NoneFree.balloc (h : fs.NoneFree) {r : ℕ × Fs × Inode} (hrun : fs.balloc inode = .ok r) :
    r = (0, fs.handOut 0,
      { inode with
        iBlocks := (inode.iBlocks + fs.sb.blocksize / sectorSize) % 2 ^ 32, modified := true }) := by
  unfold Fs.balloc at hrun
  obtain ⟨found, hgroups, hrest⟩ := bind_eq_ok.mp hrun
  obtain rfl := h.ballocGroups hgroups
  exact (Except.ok.inj hrest).symm

/-- An increment by less than the range of a counter is seen. -/
theorem add_mod_ne {n k m : ℕ} (hk : 0 < k) (hkm : k < m) : (n + k) % m ≠ n := by
  intro heq
  have hlt : n < m := heq ▸ Nat.mod_lt _ (by omega)
  rcases Nat.lt_or_ge (n + k) m with hsmall | hlarge
  · rw [Nat.mod_eq_of_lt hsmall] at heq
    omega
  · rw [Nat.mod_eq_sub_mod hlarge, Nat.mod_eq_of_lt (by omega)] at heq
    omega

/-- On a full device of any block size, `ext2_balloc` does harm. -/
theorem not_harmless (h : fs.NoneFree) (hsize : fs.sb.blocksize ≠ 0) (ip : InodeM) :
    ¬fs.Harmless ip := by
  intro hharmless
  obtain ⟨fs', inode', hrun, -, -, -, hblocks⟩ := hharmless.balloc
  obtain ⟨-, -, rfl⟩ := h.balloc hrun
  have hge := Superblock.blocksize_ge hsize
  have hlt := fs.sb.blocksize_lt
  refine add_mod_ne ?_ ?_ hblocks
  · exact Nat.div_pos (le_trans (by decide) hge) (by decide)
  · exact (Nat.div_le_self _ _).trans_lt hlt

/-- The device of one group with its last block taken. -/
def fullGroup : Fs where
  sb := { oneGroupSb with sFreeBlocksCount := 0 }
  bgdTable _ :=
    { bgBlockBitmap := 3, bgInodeBitmap := 4, bgFreeBlocksCount := 0, bgFreeInodesCount := 0 }
  nrBlkGroup := 1
  modified := false
  blocks _ _ := 0xFF#8

theorem not_harmless_fullGroup : ¬fullGroup.Harmless (newFile 128 1 0x81A4 0) :=
  not_harmless (Or.inl rfl) (by decide) _

/-- A file of the full device grows by two sectors, and the byte at the start of block 0 is
lost. -/
theorem not_harmless_of_noneFree :
    ¬∀ (fs : Fs) (ip : InodeM), fs.NoneFree → fs.Harmless ip := by
  intro hall
  obtain ⟨fs', inode', hrun, hblocks, -⟩ :=
    (hall fullGroup (newFile 128 1 0x81A4 0) (Or.inl rfl)).balloc
  have hbyte : (fullGroup.balloc (newFile 128 1 0x81A4 0).toInode).map
      (fun r => (r.2.1.blocks 0 0, r.2.2.iBlocks)) = .ok (0#8, 2) := by decide +kernel
  rw [hrun] at hbyte
  have hzero : fs'.blocks 0 0 = 0#8 := (Prod.mk.inj (Except.ok.inj hbyte)).1
  rw [hblocks] at hzero
  exact absurd hzero (by decide)

end Yak.Ext2.Fs
