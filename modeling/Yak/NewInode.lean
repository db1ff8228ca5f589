import Yak.DirGrowth
import Yak.InodeBitmap

/-!
# What the allocation of an inode leaves alone

`ext2_ialloc` writes an inode bitmap and counts.  A file keeps its blocks, provided that the inode
bitmaps are blocks of their own.
-/

namespace Yak.Ext2

open ByteBitmap

namespace Fs

variable {fs fs' : Fs} {dir : InodeM} {others gs : List ℕ} {b g off num len : ℕ}

theorem iallocGroups_takes (h : fs.iallocGroups gs = .ok (num, fs')) :
    num = 0 ∧ fs' = fs ∨ ∃ g ∈ gs, ∃ off, fs' = fs.takeInode g off := by
  induction gs with
  | nil =>
      obtain ⟨rfl, rfl⟩ := Prod.mk.inj (Except.ok.inj h)
      exact Or.inl ⟨rfl, rfl⟩
  | cons g gs ih =>
      rw [iallocGroups] at h
      obtain ⟨⟨n, fs₁⟩, hbgd, hrest⟩ := bind_eq_ok.mp h
      unfold iallocBgd at hbgd
      split at hbgd
      next =>
        obtain ⟨rfl, rfl⟩ := Prod.mk.inj (Except.ok.inj hbgd)
        refine (ih hrest).imp_right ?_
        rintro ⟨k, hk, hfound⟩
        exact ⟨k, List.mem_cons_of_mem g hk, hfound⟩
      next =>
        split at hbgd
        next => cases hbgd
        next off _ =>
          obtain ⟨rfl, rfl⟩ := Prod.mk.inj (Except.ok.inj hbgd)
          dsimp only at hrest
          rw [if_pos (Nat.succ_ne_zero off)] at hrest
          obtain ⟨rfl, rfl⟩ := Prod.mk.inj (Except.ok.inj hrest)
          exact Or.inr ⟨g, List.mem_cons_self, off, rfl⟩

theorem ialloc_takes (h : fs.ialloc = .ok (num, fs')) :
    num = 0 ∧ fs' = fs ∨ ∃ g < fs.nrBlkGroup, ∃ off, fs' = fs.takeInode g off := by
  unfold ialloc at h
  split at h
  next =>
    obtain ⟨rfl, rfl⟩ := Prod.mk.inj (Except.ok.inj h)
    exact Or.inl ⟨rfl, rfl⟩
  next =>
    exact (iallocGroups_takes h).imp_right fun ⟨g, hg, hfound⟩ => ⟨g, List.mem_range.mp hg, hfound⟩

/-! ## The counters -/

/-- The free inodes of a group, and those of all groups, are counted anew. -/
def recount (fs : Fs) (g count total : ℕ) : Fs :=
  { fs with
    sb := { fs.sb with sFreeInodesCount := total }
    bgdTable := Function.update fs.bgdTable g { fs.bgdTable g with bgFreeInodesCount := count }
    modified := true }

variable {count total : ℕ}

theorem recount_desc (k : ℕ) :
    ((fs.recount g count total).bgdTable k).bgBlockBitmap = (fs.bgdTable k).bgBlockBitmap ∧
    ((fs.recount g count total).bgdTable k).bgInodeBitmap = (fs.bgdTable k).bgInodeBitmap ∧
    ((fs.recount g count total).bgdTable k).bgFreeBlocksCount =
      (fs.bgdTable k).bgFreeBlocksCount := by
  unfold recount
  dsimp only
  by_cases hk : k = g
  · rw [hk, Function.update_self]
    exact ⟨rfl, rfl, rfl⟩
  · rw [Function.update_of_ne hk]
    exact ⟨rfl, rfl, rfl⟩

theorem blockMap_recount (k : ℕ) : (fs.recount g count total).blockMap k = fs.blockMap k := by
  unfold blockMap
  rw [(recount_desc k).1]
  rfl

theorem marked_recount : (fs.recount g count total).Marked b ↔ fs.Marked b := by
  unfold Marked
  rw [blockMap_recount]
  rfl

theorem described_recount : (fs.recount g count total).Described b ↔ fs.Described b :=
  ⟨fun h => ⟨h.first, h.group, h.index⟩, fun h => ⟨h.first, h.group, h.index⟩⟩

theorem SoundBlocks.recount (h : fs.SoundBlocks) : (fs.recount g count total).SoundBlocks where
  accepted := h.accepted
  count := h.count
  first := h.first
  fields k hk := by
    rw [(recount_desc k).2.2]
    exact h.fields k hk
  apart j hj k hk := by
    rw [(recount_desc j).1, (recount_desc k).1]
    exact h.apart j hj k hk
  nonzero k hk := by
    rw [(recount_desc k).1]
    exact h.nonzero k hk
  reserved k hk := by
    rw [(recount_desc k).1, described_recount, marked_recount]
    exact h.reserved k hk
  zero := by
    rw [described_recount, marked_recount]
    exact h.zero
  tallied := h.tallied.congr (fun k _ => blockMap_recount k) fun k _ => (recount_desc k).2.2

theorem Owns.recount (h : Owns fs dir others) : Owns (fs.recount g count total) dir others where
  held :=
    { use :=
        { fs := h.held.use.fs.recount
          nodup := h.held.use.nodup
          described := fun b hb => described_recount.mpr (h.held.use.described b hb)
          marked := fun b hb => marked_recount.mpr (h.held.use.marked b hb)
          data := by
            intro b hb
            refine ⟨(h.held.use.data b hb).1, ?_⟩
            intro k hk
            rw [(recount_desc k).1]
            exact (h.held.use.data b hb).2 k hk }
      number := h.held.number }
  tree := h.tree

/-! ## The bitmap -/

/-- The inode bitmaps are blocks of their own, and none of them is a block of the directory. -/
structure InodeMapsApart (fs : Fs) (dir : InodeM) : Prop where
  nonzero : ∀ g < fs.nrBlkGroup, (fs.bgdTable g).bgInodeBitmap ≠ 0
  apart : ∀ g < fs.nrBlkGroup, ∀ k < fs.nrBlkGroup,
    (fs.bgdTable k).bgBlockBitmap ≠ (fs.bgdTable g).bgInodeBitmap
  unowned : ∀ g < fs.nrBlkGroup, (fs.bgdTable g).bgInodeBitmap ∉ dir.allocated

theorem takeInode_eq : fs.takeInode g off =
    (fs.recount g (decr 16 (fs.bgdTable g).bgFreeInodesCount)
      (decr 32 fs.sb.sFreeInodesCount)).setBlock (fs.bgdTable g).bgInodeBitmap
        (setBit (fs.blocks (fs.bgdTable g).bgInodeBitmap) off) := rfl

theorem takeInode_blocks (hb : b ≠ (fs.bgdTable g).bgInodeBitmap) :
    (fs.takeInode g off).blocks b = fs.blocks b := Function.update_of_ne hb _ _

theorem takeInode_owned (hapart : InodeMapsApart fs dir) (hg : g < fs.nrBlkGroup)
    (hb : b ∈ dir.allocated) : (fs.takeInode g off).blocks b = fs.blocks b :=
  takeInode_blocks fun heq => hapart.unowned g hg (heq ▸ hb)

section Take

variable (hown : Owns fs dir others) (hapart : InodeMapsApart fs dir) (hg : g < fs.nrBlkGroup)

include hown hapart hg

theorem Owns.takeInode : Owns (fs.takeInode g off) dir others := by
  rw [takeInode_eq]
  apply hown.recount.setBlock
  · intro k hk
    rw [(recount_desc k).1]
    exact hapart.apart g hg k hk
  · exact fun hin => hapart.unowned g hg (hown.recount.fileIndex_allocated hin)

theorem dataBlocks_takeInode : (fs.takeInode g off).dataBlocks dir = fs.dataBlocks dir := by
  unfold dataBlocks
  apply List.flatMap_congr
  intro i hi
  apply IndexTree.leaves_congr
  intro c hc k _
  have hmem := hown.slot_allocated (List.mem_range.mp hi) (IndexTree.index_subset hc)
  unfold pointer
  rw [takeInode_owned hapart hg hmem]

theorem WellFormedDir.takeInode (hwf : fs.WellFormedDir dir) :
    (fs.takeInode g off).WellFormedDir dir := by
  intro b hb
  rw [dataBlocks_takeInode hown hapart hg] at hb
  rw [takeInode_owned hapart hg (hown.dataBlocks_allocated hb)]
  exact hwf b hb

theorem takeInode_direct : ∀ i < 12, dir.iBlock i ≠ 0 →
    (fs.takeInode g off).blocks (dir.iBlock i) = fs.blocks (dir.iBlock i) := by
  intro i hi hb
  exact takeInode_owned hapart hg (hown.slot_allocated (by omega) (IndexTree.self_mem_nodes hb))

theorem findsBlank_takeInode (h : FindsBlank fs dir len) :
    FindsBlank (fs.takeInode g off) dir len := by
  rintro (hfirst | ⟨i, hstop, hb⟩)
  · exact h (Or.inl hfirst)
  · have hold : StopsAt fs dir len i :=
      hstop.congr rfl fun j hj hne => (takeInode_direct hown hapart hg j hj hne).symm
    exact h (Or.inr ⟨i, hold, hb⟩)

theorem searchLeaves_takeInode :
    SearchLeaves (fs.takeInode g off) dir len ↔ SearchLeaves fs dir len := by
  have hsize : (fs.takeInode g off).sb.blocksize = fs.sb.blocksize := rfl
  have hblock : ∀ i < 12, dir.iBlock i ≠ 0 →
      (fs.takeInode g off).blocks (dir.iBlock i) = fs.blocks (dir.iBlock i) :=
    takeInode_direct hown hapart hg
  unfold SearchLeaves
  rw [hsize]
  constructor
  · intro h i hi hwithin
    obtain ⟨hb, hfull⟩ := h i hi hwithin
    rw [hblock i hi hb] at hfull
    exact ⟨hb, hfull⟩
  · intro h i hi hwithin
    obtain ⟨hb, hfull⟩ := h i hi hwithin
    rw [hblock i hi hb]
    exact ⟨hb, hfull⟩

end Take

/-- The directory is the old one, and only inode bitmaps have changed. -/
structure Kept (fs : Fs) (dir : InodeM) (others : List ℕ) (fs' : Fs) : Prop where
  owns : Owns fs' dir others
  wellFormed : fs'.WellFormedDir dir
  leaves : ∀ len, SearchLeaves fs' dir len ↔ SearchLeaves fs dir len
  blank : ∀ len, FindsBlank fs dir len → FindsBlank fs' dir len
  size : fs'.sb.blocksize = fs.sb.blocksize
  groups : fs'.nrBlkGroup = fs.nrBlkGroup
  bitmap : ∀ g, (fs'.bgdTable g).bgBlockBitmap = (fs.bgdTable g).bgBlockBitmap
  changed : ∀ b, fs'.blocks b ≠ fs.blocks b →
    ∃ g < fs.nrBlkGroup, b = (fs.bgdTable g).bgInodeBitmap

theorem kept_of_ialloc (hown : Owns fs dir others) (hwf : fs.WellFormedDir dir)
    (hapart : InodeMapsApart fs dir) (h : fs.ialloc = .ok (num, fs')) :
    Kept fs dir others fs' := by
  obtain ⟨-, rfl⟩ | ⟨g, hg, off, rfl⟩ := ialloc_takes h
  · exact ⟨hown, hwf, fun _ => Iff.rfl, fun _ => id, rfl, rfl, fun _ => rfl, fun _ hb => (hb rfl).elim⟩
  · refine ⟨hown.takeInode hapart hg, WellFormedDir.takeInode hown hapart hg hwf,
      fun _ => searchLeaves_takeInode hown hapart hg,
      fun _ => findsBlank_takeInode hown hapart hg, rfl, rfl, ?_, ?_⟩
    · intro k
      have hdesc : ((fs.recount g (decr 16 (fs.bgdTable g).bgFreeInodesCount)
          (decr 32 fs.sb.sFreeInodesCount)).bgdTable k).bgBlockBitmap = _ := (recount_desc k).1
      exact hdesc
    · intro b hb
      by_contra hnone
      exact hb (takeInode_blocks fun heq => hnone ⟨g, hg, heq⟩)

/-! ## The number -/

/-- The number which `ext2_ialloc` returns is another one. -/
def OtherInode (fs : Fs) (num : ℕ) : Prop := ∀ new fs', fs.ialloc = .ok (new, fs') → new ≠ num

/-- So it is if the inode is marked and the first group has a free one. -/
theorem otherInode_of_first (hs : fs.SoundInodes) (hfree : fs.sb.sFreeInodesCount ≠ 0)
    (hcount : (fs.bgdTable 0).bgFreeInodesCount ≠ 0) (hmarked : fs.InodeMarked num) :
    fs.OtherInode num := by
  intro new fs' hrun heq
  obtain ⟨off, hoff, hclear, hialloc⟩ := hs.ialloc hfree hcount
  rw [hialloc] at hrun
  obtain rfl : off + 1 = num := (Prod.mk.inj (Except.ok.inj hrun)).1.trans heq
  unfold InodeMarked at hmarked
  rw [groupOfIno_succ hoff, indexOfIno_succ hoff, hclear] at hmarked
  cases hmarked

end Fs

end Yak.Ext2
