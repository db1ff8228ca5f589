import Yak.Truncation

/-!
# An inode from its creation to its last reference

`ext2_new_file` puts a device number into `i_block`, and `ext2_symlink` a short text.  As long
as `i_block` starts out empty and blocks come into it through `ext2_create_block`, the last
`ext2_iput` frees the blocks of the inode and no others.
-/

namespace Yak.Ext2

open ByteBitmap WordMemory IndexTree

/-- What `ext2_new_file` and `ext2_symlink` are called with. -/
inductive NewInode where
  | file (mode dev : ℕ)
  | symlink (text : List (BitVec 8))

namespace NewInode

def inode (size num : ℕ) : NewInode → InodeM
  | .file mode dev => newFile size num mode dev
  | .symlink text => newSymlink size num text

/-- Nothing is put into `i_block`. -/
def Plain : NewInode → Prop
  | .file mode dev => isDevice mode → dev = 0
  | .symlink text => text = [] ∨ fastSymlinkLen ≤ text.length

instance : (new : NewInode) → Decidable new.Plain
  | .file mode dev => inferInstanceAs (Decidable (isDevice mode → dev = 0))
  | .symlink text => inferInstanceAs (Decidable (text = [] ∨ fastSymlinkLen ≤ text.length))

theorem Plain.iBlock {new : NewInode} (h : new.Plain) (size num i : ℕ) :
    (new.inode size num).iBlock i = 0 := by
  cases new with
  | file mode dev =>
      have hblock : ((NewInode.file mode dev).inode size num).iBlock i =
          if isDevice mode ∧ i = 0 then dev else 0 := rfl
      rw [hblock]
      split
      next hdevice => exact h hdevice.1
      next => rfl
  | symlink text =>
      have hblock : ((NewInode.symlink text).inode size num).iBlock i =
          if text.length < fastSymlinkLen ∧ i < 15 then
            load32 (fun j => text.getD j 0#8) (4 * i)
          else 0 := rfl
      rw [hblock]
      rcases h with rfl | hlong
      · split <;> rfl
      · rw [if_neg fun hshort => Nat.not_le.mpr hshort.1 hlong]

theorem allocated_inode (new : NewInode) (size num : ℕ) :
    (new.inode size num).allocated = [] := by
  cases new <;> rfl

/-- Inodes which do not reach behind `i_dev` on the disk keep their number. -/
theorem iNum_inode (new : NewInode) {size : ℕ} (hsize : size ≤ 136) (num : ℕ) :
    (new.inode size num).iNum = num := by
  have hclear : clearLow (size - 140) num = num := by
    rw [Nat.sub_eq_zero_of_le (by omega), clearLow, pow_zero, Nat.div_one, Nat.mul_one]
  cases new <;> exact hclear

end NewInode

/-! ## The life of an inode -/

/-- The file system, one inode of it, and the blocks in use by the others. -/
structure FileUse where
  fs : Fs
  ip : InodeM
  others : List ℕ

inductive FileOp where
  /-- `ext2_create_block`, and what is put into the block. -/
  | write (off : ℕ) (data : Bytes)
  /-- `ext2_itrunc`, called by `ext2_open`. -/
  | trunc
  | count (iLinksCount iCount : ℕ)
  /-- `ext2_balloc` for another inode. -/
  | balloc (inode : Inode)
  /-- `ext2_bfree` of a block of another inode. -/
  | bfree (b : ℕ)
  | store (b : ℕ) (data : Bytes)

namespace FileUse

/-- `size` is `EXT2_INODE_SIZE`. -/
def start (fs : Fs) (others : List ℕ) (size num : ℕ) (new : NewInode) : FileUse :=
  ⟨fs, new.inode size num, others⟩

def step (s : FileUse) : FileOp → Except Halt FileUse
  | .write off data => do
      let (r, fs, ip) ← s.fs.createBlock s.ip off
      .ok ⟨if r = 0 then fs else fs.setBlock r data, ip, s.others⟩
  | .trunc => do
      let (fs, ip) ← s.fs.itrunc s.ip
      .ok ⟨fs, { ip with allocated := [] }, s.others⟩
  | .count iLinksCount iCount =>
      .ok { s with ip := { s.ip with iLinksCount := iLinksCount, iCount := iCount } }
  | .balloc inode => do
      let (b, fs, _) ← s.fs.balloc inode
      .ok ⟨fs, s.ip, if b = 0 then s.others else b :: s.others⟩
  | .bfree b => do
      let fs ← s.fs.bfree b
      .ok ⟨fs, s.ip, s.others.erase b⟩
  | .store b data => .ok { s with fs := s.fs.setBlock b data }

/-- The offset is not in the indirect range nor beyond the second index, new index blocks are found
as zeros, blocks are freed only where `ext2_bfree` finds them, and what concerns the other inodes
stays with their blocks.  A long symbolic link is stored in block 0. -/
def SafeStep (s : FileUse) : FileOp → Prop
  | .write off _ => s.fs.Mapped off ∧ s.fs.IndexWiped s.ip off
  | .trunc => ∀ b ∈ s.ip.allocated, s.fs.Placed b
  | .count _ _ => True
  | .balloc inode => 1 ≤ inode.iNum ∧ inode.iNum ≤ s.fs.sb.sInodesCount
  | .bfree b => b ∈ s.others ∧ s.fs.Placed b
  | .store b _ => b = 0 ∨ b ∈ s.others

/-- Should `ext2_iput` be called now for the last reference, `ext2_bfree` finds the blocks. -/
def SafePut (s : FileUse) : Prop :=
  s.ip.iCount = 1 → s.ip.iLinksCount = 0 → ∀ b ∈ s.ip.allocated, s.fs.Placed b

def SafeRun (s : FileUse) : List FileOp → Prop
  | [] => s.SafePut
  | op :: ops =>
      s.SafePut ∧ s.SafeStep op ∧
        match s.step op with
        | .ok s' => s'.SafeRun ops
        | .error _ => True

/-- Should `ext2_iput` be called now for the last reference, it frees the blocks of the inode. -/
def Releases (s : FileUse) : Prop :=
  s.ip.iCount = 1 → s.ip.iLinksCount = 0 → s.fs.FreesExactly s.ip

/-- Every call of the run returns, and this is so in every state of it. -/
def ReleasesRun (s : FileUse) : List FileOp → Prop
  | [] => s.Releases
  | op :: ops => s.Releases ∧ ∃ s', s.step op = .ok s' ∧ s'.ReleasesRun ops

instance (s : FileUse) : Decidable s.SafePut := inferInstanceAs (Decidable (_ → _ → _))

end FileUse

/-! ## What a step keeps -/

namespace Fs

variable {fs fs' : Fs} {ip : InodeM} {others others' : List ℕ} {b slot : ℕ} {ks : List ℕ}

/-- The tree of a file hangs on its inner blocks. -/
theorem Owns.of_data (h : Owns fs ip others) (hgeometry : SameGeometry fs fs')
    (hdata : ∀ c ∈ fileIndex fs ip, fs'.blocks c = fs.blocks c)
    (huse : BlockUse.Sound ⟨fs', ip.allocated ++ others'⟩) : Owns fs' ip others' where
  held := by
    refine ⟨huse, ?_⟩
    rw [hgeometry.sInodesCount]
    exact h.held.number
  tree := by
    have hsame : fileBlocks fs' ip = fileBlocks fs ip := by
      unfold fileBlocks
      rw [hgeometry.indirBlocks]
      apply List.flatMap_congr
      intro i hi
      apply nodes_congr
      intro c hc k _
      unfold Fs.pointer
      rw [hdata c (List.mem_flatMap.mpr ⟨i, hi, hc⟩)]
    rw [hsame]
    exact h.tree

theorem Owns.setBlock (h : Owns fs ip others) (data : Bytes)
    (hmaps : ∀ g < fs.nrBlkGroup, (fs.bgdTable g).bgBlockBitmap ≠ b)
    (hindex : b ∉ fileIndex fs ip) : Owns (fs.setBlock b data) ip others := by
  apply h.of_data (SameGeometry.setBlock fs b data)
  · intro c hc
    have hne : c ≠ b := fun heq => hindex (heq ▸ hc)
    exact Function.update_of_ne hne _ _
  · exact h.held.use.setBlock data hmaps

theorem Owns.leaf_not_mem_fileIndex (h : Owns fs ip others) (hslot : slot < 15)
    (hlen : ks.length = levelsOf slot) (hks : ∀ k ∈ ks, k < fs.indirBlocks)
    (hne : walk fs.pointer (ip.iBlock slot) ks ≠ 0) :
    walk fs.pointer (ip.iBlock slot) ks ∉ fileIndex fs ip := by
  intro hin
  obtain ⟨i, hi, hin⟩ := List.mem_flatMap.mp hin
  by_cases his : i = slot
  · subst his
    exact walk_not_mem_index hlen hks (h.nodup_slot hslot) hne hin
  · exact disjoint_of_nodup_flatMap
      (f := fun m => nodes fs.pointer fs.indirBlocks (levelsOf m) (ip.iBlock m)) h.nodup_fileBlocks
      hi (List.mem_range.mpr hslot) his (index_subset hin) (walk_mem_nodes hlen hks hne)

/-- The block which `ext2_create_block` returns belongs to the inode and is no index block. -/
theorem SlotGrown.reached_leaf {off r : ℕ} {ip' : InodeM} {news : List ℕ} (h : Owns fs ip others)
    (hoff : fs.Mapped off)
    (hgrown : SlotGrown fs ip others (fs.slotPath off).1 (fs.slotPath off).2 r fs' ip' news)
    (hr : r ≠ 0) : r ∈ ip'.allocated ∧ r ∉ fileIndex fs' ip' := by
  have howns := hgrown.owns h slotPath_slot
  have hks : ∀ k ∈ (fs.slotPath off).2, k < fs'.indirBlocks := by
    rw [hgrown.grown.geometry.indirBlocks]
    exact slotPath_lt hoff
  have hreached := hgrown.reached
  have hne : walk fs'.pointer (ip'.iBlock (fs.slotPath off).1) (fs.slotPath off).2 ≠ 0 := by
    rw [hreached]
    exact hr
  have hmem := walk_mem_nodes slotPath_length hks hne
  have hleaf := howns.leaf_not_mem_fileIndex slotPath_slot slotPath_length hks hne
  rw [hreached] at hmem hleaf
  exact ⟨howns.slot_allocated slotPath_slot hmem, hleaf⟩

theorem Owns.not_mem_others (h : Owns fs ip others) (hb : b ∈ ip.allocated) : b ∉ others :=
  fun hin => (List.nodup_append.mp h.held.use.nodup).2.2 b hb b hin rfl

end Fs

theorem BlockUse.Sound.perm {fs : Fs} {owned owned' : List ℕ} (h : BlockUse.Sound ⟨fs, owned⟩)
    (hperm : owned'.Perm owned) : BlockUse.Sound ⟨fs, owned'⟩ where
  fs := h.fs
  nodup := hperm.nodup_iff.mpr h.nodup
  described b hb := h.described b (hperm.subset hb)
  marked b hb := h.marked b (hperm.subset hb)
  data b hb := h.data b (hperm.subset hb)

namespace FileUse

open Fs

variable {s s' : FileUse} {ops : List FileOp} {others : List ℕ} {size num : ℕ} {new : NewInode}

structure Sound (s : FileUse) : Prop where
  owns : Owns s.fs s.ip s.others
  perGroup : s.fs.sb.sBlocksPerGroup < 2 ^ 16
  apart : s.fs.MapsApart

theorem Sound.of_owns {fs : Fs} {ip : InodeM} (hs : s.Sound) (hgeometry : SameGeometry s.fs fs)
    (howns : Owns fs ip others) : Sound ⟨fs, ip, others⟩ where
  owns := howns
  perGroup := by
    dsimp only
    rw [hgeometry.sb]
    exact hs.perGroup
  apart := hgeometry.mapsApart hs.apart

theorem Sound.write (hs : s.Sound) {off : ℕ} {data : Bytes} (hsafe : s.fs.Mapped off)
    (hwiped : s.fs.IndexWiped s.ip off) :
    ∃ s', s.step (.write off data) = .ok s' ∧ s'.Sound := by
  obtain ⟨r, fs, ip, news, hrun, hgrown⟩ := hs.owns.createBlock hsafe hwiped
  have howns := hgrown.owns hs.owns slotPath_slot
  have hgeometry := hgrown.grown.geometry
  refine ⟨⟨if r = 0 then fs else fs.setBlock r data, ip, s.others⟩, ?_, ?_⟩
  · unfold step
    dsimp only
    rw [hrun, ok_bind]
  · by_cases hr : r = 0
    · rw [if_pos hr]
      exact hs.of_owns hgeometry howns
    · rw [if_neg hr]
      obtain ⟨hown, hleaf⟩ := hgrown.reached_leaf hs.owns hsafe hr
      exact hs.of_owns (hgeometry.trans (SameGeometry.setBlock fs r data))
        (howns.setBlock data
          (fun g hg => howns.held.owned_ne_bitmap (List.mem_append_left _ hown) hg) hleaf)

theorem Sound.trunc (hs : s.Sound) (hsafe : ∀ b ∈ s.ip.allocated, s.fs.Placed b) :
    ∃ s', s.step .trunc = .ok s' ∧ s'.Sound := by
  obtain ⟨fs, hrun, huse, hfree, -⟩ := hs.owns.itrunc hs.perGroup hsafe
  refine ⟨⟨fs, { s.ip with
    iBlock := fun _ => 0, iBlocks := 0, iSize := 0, modified := true, allocated := [] },
    s.others⟩, ?_, ?_⟩
  · unfold step
    dsimp only
    rw [hrun, ok_bind]
  · apply hs.of_owns hfree.geometry
    refine ⟨⟨huse, ?_⟩, ?_⟩
    · rw [hfree.geometry.sInodesCount]
      exact hs.owns.held.number
    · simp [fileBlocks]

theorem Sound.balloc (hs : s.Sound) {inode : Inode}
    (hsafe : 1 ≤ inode.iNum ∧ inode.iNum ≤ s.fs.sb.sInodesCount) :
    ∃ s', s.step (.balloc inode) = .ok s' ∧ s'.Sound := by
  obtain ⟨b, fs, inode', hrun, -, huse, hgeometry, hdata, -, -⟩ :=
    balloc_gives hs.owns.held.use hsafe
  refine ⟨⟨fs, s.ip, if b = 0 then s.others else b :: s.others⟩, ?_, ?_⟩
  · unfold step
    dsimp only
    rw [hrun, ok_bind]
  · have hlist : (if b = 0 then s.others else b :: s.others) =
        (if b = 0 then [] else [b]) ++ s.others := by split <;> rfl
    rw [hlist]
    apply hs.of_owns hgeometry
    apply hs.owns.of_data hgeometry
    · intro c hc
      exact hdata c (List.mem_append_left _ (hs.owns.fileIndex_allocated hc))
    · exact huse.perm (List.perm_append_comm_assoc _ _ _)

theorem Sound.bfree (hs : s.Sound) {b : ℕ} (hb : b ∈ s.others) (hplaced : s.fs.Placed b) :
    ∃ s', s.step (.bfree b) = .ok s' ∧ s'.Sound := by
  obtain ⟨fs, hrun, huse, -⟩ :=
    bfree_owned hs.owns.held.use hs.perGroup (List.mem_append_right _ hb) hplaced
  have hfree := Freeing.bfree hrun
  have hnot : b ∉ s.ip.allocated := fun hin => hs.owns.not_mem_others hin hb
  rw [List.erase_append_right _ hnot] at huse
  refine ⟨⟨fs, s.ip, s.others.erase b⟩, ?_, ?_⟩
  · unfold step
    dsimp only
    rw [hrun, ok_bind]
  · apply hs.of_owns hfree.geometry
    apply hs.owns.of_data hfree.geometry _ huse
    intro c hc
    exact hfree.data c fun g hg => hs.owns.fileIndex_ne_bitmap hc hg

theorem Sound.store (hs : s.Sound) {b : ℕ} {data : Bytes} (hb : b = 0 ∨ b ∈ s.others) :
    ∃ s', s.step (.store b data) = .ok s' ∧ s'.Sound := by
  refine ⟨_, rfl, hs.of_owns (SameGeometry.setBlock s.fs b data) (hs.owns.setBlock data ?_ ?_)⟩
  · intro g hg
    rcases hb with rfl | hb
    · exact hs.owns.held.use.fs.nonzero g hg
    · exact hs.owns.held.owned_ne_bitmap (List.mem_append_right _ hb) hg
  · intro hin
    have hmem := hs.owns.fileIndex_allocated hin
    rcases hb with rfl | hb
    · exact hs.owns.held.owned_ne_zero (List.mem_append_left _ hmem) rfl
    · exact hs.owns.not_mem_others hmem hb

theorem Sound.step {op : FileOp} (hs : s.Sound) (hsafe : s.SafeStep op) :
    ∃ s', s.step op = .ok s' ∧ s'.Sound := by
  cases op with
  | write off data => exact hs.write hsafe.1 hsafe.2
  | trunc => exact hs.trunc hsafe
  | count iLinksCount iCount =>
      exact ⟨_, rfl, ⟨⟨hs.owns.held.use, hs.owns.held.number⟩, hs.owns.tree⟩, hs.perGroup, hs.apart⟩
  | balloc inode => exact hs.balloc hsafe
  | bfree b => exact hs.bfree hsafe.1 hsafe.2
  | store b data => exact hs.store hsafe

theorem Sound.releases (hs : s.Sound) (hput : s.SafePut) : s.Releases :=
  fun hcount hlinks =>
    hs.owns.freesExactly hs.perGroup hs.apart (hput hcount hlinks) hcount hlinks

theorem Sound.releasesRun (hs : s.Sound) (hsafe : s.SafeRun ops) : s.ReleasesRun ops := by
  induction ops generalizing s with
  | nil => exact hs.releases hsafe
  | cons op ops ih =>
      obtain ⟨hput, hstep, hrest⟩ := hsafe
      obtain ⟨s', hrun, hs'⟩ := hs.step hstep
      rw [hrun] at hrest
      exact ⟨hs.releases hput, s', hrun, ih hs' hrest⟩

theorem sound_start {fs : Fs} (huse : BlockUse.Sound ⟨fs, others⟩)
    (hper : fs.sb.sBlocksPerGroup < 2 ^ 16) (hmaps : fs.MapsApart) (hsize : size ≤ 136)
    (hnum : 1 ≤ num ∧ num ≤ fs.sb.sInodesCount) (hplain : new.Plain) :
    (start fs others size num new).Sound := by
  refine ⟨⟨⟨?_, ?_⟩, ?_⟩, hper, hmaps⟩
  · unfold start
    dsimp only
    rw [new.allocated_inode]
    exact huse
  · unfold start
    dsimp only
    rw [new.iNum_inode hsize]
    exact hnum
  · unfold start fileBlocks
    dsimp only
    rw [new.allocated_inode]
    simp [hplain.iBlock]

/-- In every run which starts from an inode with an empty `i_block`, of which `memset` clears the
inode of the disk only, and which keeps off the indirect range, the last `ext2_iput` frees exactly
the blocks which the inode was given. -/
theorem releasesRun_of_safeRun (fs : Fs) (others : List ℕ) (size num : ℕ) (new : NewInode)
    (ops : List FileOp) (huse : BlockUse.Sound ⟨fs, others⟩)
    (hper : fs.sb.sBlocksPerGroup < 2 ^ 16) (hmaps : fs.MapsApart) (hsize : size ≤ 136)
    (hnum : 1 ≤ num ∧ num ≤ fs.sb.sInodesCount) (hplain : new.Plain)
    (hsafe : (start fs others size num new).SafeRun ops) :
    (start fs others size num new).ReleasesRun ops :=
  (sound_start huse hper hmaps hsize hnum hplain).releasesRun hsafe

/-! ## A device node -/

/-- One group of 15 blocks from block 1 on.  Block 3 is the block bitmap, block 4 the bitmap of
the inodes, of which 12 are in use, and block 8 belongs to a file. -/
def mounted : Fs where
  sb :=
    { sInodesCount := 16, sBlocksCount := 16, sFreeBlocksCount := 7, sFreeInodesCount := 4,
      sFirstDataBlock := 1, sLogBlockSize := 0, sBlocksPerGroup := 16, sInodesPerGroup := 16,
      sMagic := Superblock.ext2Magic, sState := 1, sErrors := 1, sRevLevel := 0,
      sFirstIno := 11 }
  bgdTable _ :=
    { bgBlockBitmap := 3, bgInodeBitmap := 4, bgFreeBlocksCount := 7, bgFreeInodesCount := 4 }
  nrBlkGroup := 1
  modified := false
  blocks n i :=
    if n = 3 ∧ i = 0 then 0xFF#8
    else if n = 4 ∧ i = 0 then 0xFF#8
    else if n = 4 ∧ i = 1 then 0x0F#8
    else 0#8

theorem sound_mounted : BlockUse.Sound ⟨mounted, [8]⟩ where
  fs :=
    { accepted := rfl
      count := by decide
      first := by decide
      fields := by decide
      apart := by decide
      nonzero := by decide
      reserved := by decide
      zero := by decide
      tallied := ⟨by decide, by decide⟩ }
  nodup := by decide
  described := by decide
  marked := by decide
  data := by decide

theorem mapsApart_mounted : mounted.MapsApart := by
  unfold MapsApart
  decide

theorem safeRun_regular :
    (start mounted [8] 128 12 (.file 0x81A4 0)).SafeRun [.write 0 fun _ => 0x41#8, .count 0 1] := by
  refine ⟨by decide, ⟨by decide, indexWiped_of_direct (by decide)⟩, ?_⟩
  have hrest : ((start mounted [8] 128 12 (.file 0x81A4 0)).step (.write 0 fun _ => 0x41#8)).map
      (fun s => decide (s.SafePut ∧
        { s with ip := { s.ip with iLinksCount := 0, iCount := 1 } }.SafePut)) = .ok true := by
    decide +kernel
  obtain ⟨s, hs, hput, hlast⟩ := exists_of_map_decide hrest
  rw [hs]
  exact ⟨hput, trivial, hlast⟩

/-- A regular file of one block. -/
theorem releasesRun_of_safeRun_regular :
    (start mounted [8] 128 12 (.file 0x81A4 0)).ReleasesRun [.write 0 fun _ => 0x41#8, .count 0 1] :=
  releasesRun_of_safeRun mounted [8] 128 12 (.file 0x81A4 0) _ sound_mounted (by decide)
    mapsApart_mounted (by decide) (by decide) (by decide) safeRun_regular

/-- The node of character device 8 is removed: the block of the file is freed. -/
theorem not_releasesRun_device :
    ¬∀ (fs : Fs) (others : List ℕ) (num : ℕ) (new : NewInode), BlockUse.Sound ⟨fs, others⟩ →
      fs.sb.sBlocksPerGroup < 2 ^ 16 → fs.MapsApart → 1 ≤ num ∧ num ≤ fs.sb.sInodesCount →
      (start fs others 128 num new).ReleasesRun [.count 0 1] := by
  intro h
  obtain ⟨-, s', hstep, hlast⟩ := h mounted [8] 12 (.file 0x21B6 8) sound_mounted (by decide)
    mapsApart_mounted (by decide)
  obtain rfl := Except.ok.inj hstep
  obtain ⟨fs₁, ip₁, htrunc, hclear, -⟩ := hlast rfl rfl
  have hfreed : (mounted.itrunc { newFile 128 12 0x21B6 8 with iLinksCount := 0, iCount := 0 }).map
      (fun r => getBit (r.1.blockMap 0) 7) = .ok false := by decide +kernel
  have hset : getBit (mounted.blockMap 0) 7 = true := by decide +kernel
  have hbit := hclear 0 (by decide) 7
  have hrun : mounted.itrunc { newFile 128 12 0x21B6 8 with iLinksCount := 0, iCount := 0 } =
      .ok (fs₁, ip₁) := htrunc
  rw [hrun] at hfreed
  have hclearBit : getBit (fs₁.blockMap 0) 7 = false := Except.ok.inj hfreed
  have hkept : getBit (fs₁.blockMap 0) 7 = getBit (mounted.blockMap 0) 7 := by
    rw [hbit]
    simp [BitOf, start, NewInode.inode, newFile]
  rw [hclearBit, hset] at hkept
  cases hkept

end FileUse

end Yak.Ext2
