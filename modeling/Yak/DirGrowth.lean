import Yak.BlockSearch
import Yak.DirPlaces
import Yak.LastReference

/-!
# What an added entry does to its directory

A directory whose first block is missing gets a new block, which becomes one record if it is found
blank or the directory has no size.  When the first record is blank, its whole block becomes one record.  Otherwise the place is searched.
-/

namespace Yak.Ext2

open ByteBitmap WordMemory RecordChain IndexTree BoundedLoop

variable {fs fs' : Fs} {dir dir' : InodeM} {ip : Linked} {name : Name} {blk : Bytes}
  {size b i new fuel : ℕ} {others : List ℕ} {e : Name × ℕ}

/-! ## The three ways of `ext2_add_dir_entry` -/

/-- The first block is searched: its first record is in use, and the directory has a size. -/
def Searched (fs : Fs) (dir : InodeM) : Prop :=
  dInode (fs.blocks (dir.iBlock 0)) 0 ≠ 0 ∧ dir.iSize ≠ 0

instance (fs : Fs) (dir : InodeM) : Decidable (Searched fs dir) :=
  inferInstanceAs (Decidable (_ ∧ _))

theorem not_searched_iff :
    ¬Searched fs dir ↔ dInode (fs.blocks (dir.iBlock 0)) 0 = 0 ∨ dir.iSize = 0 := by
  unfold Searched
  tauto

/-- A new first block becomes one record. -/
def FirstFills (fs : Fs) (dir : InodeM) : Prop := dInode (fs.found 0) 0 = 0 ∨ dir.iSize = 0

theorem NameOk.ne_nil (h : NameOk name) : name ≠ [] := by
  rintro rfl
  exact absurd h.1 (by decide)

theorem NameOk.take (h : NameOk name) : name.take maxNameLen = name := List.take_of_length_le h.2

/-- The first block is new. -/
structure FirstBlock (fs : Fs) (dir : InodeM) (others : List ℕ) (new : ℕ) (fs' : Fs)
    (dir' : InodeM) : Prop where
  ne_zero : new ≠ 0
  grown : Fs.Grown fs dir others [new] [] fs' dir'
  iBlock : dir'.iBlock = dir.iBlock
  iSize : dir'.iSize = dir.iSize
  changed : ∀ b, b ≠ new → fs'.blocks b ≠ fs.blocks b →
    ∃ g < fs.nrBlkGroup, b = (fs.bgdTable g).bgBlockBitmap

theorem FirstBlock.blocksize_ge (h : FirstBlock fs dir others new fs' dir') :
    1024 ≤ fs.sb.blocksize := by
  have hmem : new ∈ dir'.allocated := by
    rw [h.grown.allocated]
    exact List.mem_cons_self
  rw [← h.grown.geometry.blocksize]
  exact h.grown.held.blocksize_ge hmem

section First

variable (hname : NameOk name)

include hname

theorem addDirEntry_of_create (hcreate : fs.createBlock dir 0 = .ok (b, fs', dir')) :
    addDirEntry fuel fs dir ip name =
      if b = 0 then .ok ⟨-enospc, fs', dir', [], []⟩
      else if fs'.sb.blocksize < headerSize then .error .outOfBounds
      else if dInode (fs'.blocks b) 0 = 0 ∨ dir'.iSize = 0 then do
        let blk ← fillBlock fs'.sb.blocksize (fs'.blocks b) ip name
        .ok ⟨0, fs'.setBlock b blk, dir', [b], []⟩
      else run .endless (addStep ip name) fuel ⟨fs', dir', b, 0, 0⟩ := by
  unfold addDirEntry
  rw [if_neg hname.ne_nil, hname.take, hcreate]
  rfl

variable (hown : Fs.Owns fs dir others)

include hown

theorem addDirEntry_of_present (hb : dir.iBlock 0 ≠ 0) :
    addDirEntry fuel fs dir ip name =
      if Searched fs dir then run .endless (addStep ip name) fuel ⟨fs, dir, dir.iBlock 0, 0, 0⟩
      else .ok ⟨0, fs.setBlock (dir.iBlock 0)
        (putRecord (fs.blocks (dir.iBlock 0)) 0 fs.sb.blocksize ip name), dir, [dir.iBlock 0],
        []⟩ := by
  have hsize := hown.blocksize_ge (by decide) hb
  have hcreate := Fs.createBlock_present (Nat.zero_div fs.sb.blocksize) (Nat.zero_le 11) hb
  rw [addDirEntry_of_create hname hcreate, if_neg hb, if_neg (by unfold headerSize; omega),
    fillBlock_eq hname hsize, ok_bind]
  by_cases hsearched : Searched fs dir
  · rw [if_neg (not_or.mpr hsearched), if_pos hsearched]
  · rw [if_pos (not_searched_iff.mp hsearched), if_neg hsearched]

theorem addDirEntry_of_none (ip : Linked) (hb : dir.iBlock 0 = 0)
    (hfree : fs.sb.sFreeBlocksCount = 0) :
    ∃ fs' dir', ∀ fuel, addDirEntry fuel fs dir ip name = .ok ⟨-enospc, fs', dir', [], []⟩ := by
  obtain ⟨new, fs', dir', hballoc, -⟩ := hown.held.ballocFor
  obtain rfl := (hown.held.ballocFor_zero_iff hballoc).mpr hfree
  have hcreate :=
    Fs.createBlock_missing (Nat.zero_div fs.sb.blocksize) (Nat.zero_le 11) hb hballoc
  exact ⟨_, _, fun fuel => addDirEntry_of_create hname hcreate⟩

/-- The first block is missing, and a new one becomes one record. -/
theorem addDirEntry_of_new (ip : Linked) (hb : dir.iBlock 0 = 0)
    (hfree : fs.sb.sFreeBlocksCount ≠ 0) (hfills : FirstFills fs dir) :
    ∃ new fs' dir', FirstBlock fs dir others new fs' dir' ∧ ∀ fuel,
      addDirEntry fuel fs dir ip name =
        .ok ⟨0, fs'.setBlock new (putRecord (fs'.blocks new) 0 fs.sb.blocksize ip name),
          dir'.setBlock 0 new, [new], []⟩ := by
  obtain ⟨new, fs', dir', hballoc, hgrown, hiBlock, -, hblock, -⟩ := hown.held.ballocFor
  have hne : new ≠ 0 := mt (hown.held.ballocFor_zero_iff hballoc).mp hfree
  rw [if_neg hne] at hgrown
  have hcreate :=
    Fs.createBlock_missing (Nat.zero_div fs.sb.blocksize) (Nat.zero_le 11) hb hballoc
  have hnew : FirstBlock fs dir others new fs' dir' :=
    ⟨hne, hgrown, hiBlock, Fs.ballocFor_iSize hballoc,
      fun b hb hchange => hown.held.ballocFor_changed hballoc hb hchange⟩
  refine ⟨new, fs', dir', hnew, ?_⟩
  intro fuel
  have hsize := hnew.blocksize_ge
  have hblank : dInode (fs'.blocks new) 0 = 0 ∨ (dir'.setBlock 0 new).iSize = 0 := by
    have hsame : (dir'.setBlock 0 new).iSize = dir.iSize := hnew.iSize
    rw [hblock, hsame]
    exact hfills
  rw [addDirEntry_of_create hname hcreate, if_neg hne, hgrown.geometry.blocksize,
    if_neg (by unfold headerSize; omega),
    if_pos hblank, fillBlock_eq hname hsize]
  rfl

end First

/-! ## One block is written -/

section Written

variable (hown : Fs.Owns fs dir others) (hb : b ∈ fs.dataBlocks dir)

include hown hb

/-- The data blocks are not on the way to data blocks. -/
theorem data_not_mem_index : b ∉ fs.fileIndex dir := by
  obtain ⟨slot, hslot, hleaf⟩ := List.mem_flatMap.mp hb
  obtain ⟨hne, ks, hlen, hks, rfl⟩ := exists_walk_of_mem_leaves hleaf
  exact hown.leaf_not_mem_fileIndex (List.mem_range.mp hslot) hlen hks hne

theorem dataBlocks_setBlock (blk : Bytes) :
    (fs.setBlock b blk).dataBlocks dir = fs.dataBlocks dir := by
  apply Fs.dataBlocks_congr (Fs.SameGeometry.setBlock _ _ _) rfl
  intro c hc
  have hne : c ≠ b := by
    rintro rfl
    exact data_not_mem_index hown hb hc
  exact Function.update_of_ne hne _ _

theorem wellFormedDir_setBlock (hwf : fs.WellFormedDir dir)
    (hblk : WellFormed fs.sb.blocksize blk) : (fs.setBlock b blk).WellFormedDir dir := by
  intro c hc
  rw [dataBlocks_setBlock hown hb] at hc
  unfold Fs.setBlock
  dsimp only
  by_cases heq : c = b
  · rw [heq, Function.update_self]
    exact hblk
  · rw [Function.update_of_ne heq]
    exact hwf c hc

theorem dirEntries_setBlock (hentries : entries fs.sb.blocksize blk =
    entries fs.sb.blocksize (fs.blocks b) ++ [e]) :
    ((fs.setBlock b blk).dirEntries dir).Perm (e :: fs.dirEntries dir) := by
  unfold Fs.dirEntries
  rw [dataBlocks_setBlock hown hb, ← List.singleton_append]
  refine flatMap_perm_append hown.nodup_dataBlocks hb ?_ ?_
  · unfold Fs.setBlock
    dsimp only
    rw [Function.update_self, hentries]
    exact List.perm_append_comm
  · intro c _ hne
    unfold Fs.setBlock
    dsimp only
    rw [Function.update_of_ne hne]

end Written

/-! ## A first block is there -/

theorem FirstBlock.not_mem (h : FirstBlock fs dir others new fs' dir') : new ∉ dir.allocated :=
  fun hin => h.grown.fresh (List.mem_singleton_self new) (List.mem_append_left _ hin)

section Planted

variable (hown : Fs.Owns fs dir others) (hnew : FirstBlock fs dir others new fs' dir')

include hown hnew

theorem blocks_planted (blk : Bytes) {c : ℕ} (hc : c ∈ fs.dataBlocks dir) :
    (fs'.setBlock new blk).blocks c = fs.blocks c := by
  have hmem := hown.dataBlocks_allocated hc
  have hne : c ≠ new := fun heq => hnew.not_mem (heq ▸ hmem)
  have hset : (fs'.setBlock new blk).blocks c = fs'.blocks c := Function.update_of_ne hne _ _
  rw [hset, hnew.grown.data c (List.mem_append_left _ hmem) List.not_mem_nil]

variable (hb : dir.iBlock 0 = 0)

include hb

theorem dataBlocks_planted (blk : Bytes) :
    (fs'.setBlock new blk).dataBlocks (dir'.setBlock 0 new) = new :: fs.dataBlocks dir := by
  have hrange : List.range 15 = 0 :: (List.range 14).map Nat.succ := List.range_succ_eq_map
  have hfirst :
      leaves (fs'.setBlock new blk).pointer (fs'.setBlock new blk).indirBlocks (Fs.levelsOf 0)
      ((dir'.setBlock 0 new).iBlock 0) = [new] := if_neg hnew.ne_zero
  have hindir : (fs'.setBlock new blk).indirBlocks = fs.indirBlocks :=
    (hnew.grown.geometry.trans (Fs.SameGeometry.setBlock _ _ _)).indirBlocks
  unfold Fs.dataBlocks
  rw [hrange, List.flatMap_cons, List.flatMap_cons, hfirst, hb, leaves_zero, hindir]
  rw [List.singleton_append, List.nil_append]
  congr 1
  apply List.flatMap_congr
  intro i hi
  obtain ⟨j, hj, rfl⟩ := List.mem_map.mp hi
  have hslot : (dir'.setBlock 0 new).iBlock j.succ = dir.iBlock j.succ := by
    rw [Fs.setBlock_iBlock_of_ne j.succ_ne_zero, hnew.iBlock]
  rw [hslot]
  apply leaves_congr
  intro c hc k _
  have hlt : j.succ < 15 := Nat.succ_lt_succ (List.mem_range.mp hj)
  have hmem : c ∈ dir.allocated := hown.slot_allocated hlt (index_subset hc)
  have hne : c ≠ new := fun heq => hnew.not_mem (heq ▸ hmem)
  have hset : (fs'.setBlock new blk).blocks c = fs'.blocks c := Function.update_of_ne hne _ _
  unfold Fs.pointer
  rw [hset, hnew.grown.data c (List.mem_append_left _ hmem) List.not_mem_nil]

theorem wellFormedDir_planted_iff (hwf : fs.WellFormedDir dir) :
    (fs'.setBlock new blk).WellFormedDir (dir'.setBlock 0 new) ↔
      WellFormed fs.sb.blocksize blk := by
  have hself : (fs'.setBlock new blk).blocks new = blk := Function.update_self _ _ _
  unfold Fs.WellFormedDir
  rw [dataBlocks_planted hown hnew hb, Fs.setBlock_sb, hnew.grown.geometry.blocksize,
    List.forall_mem_cons, hself]
  constructor
  · exact fun hboth => hboth.1
  · intro hblk
    refine ⟨hblk, ?_⟩
    intro c hc
    rw [blocks_planted hown hnew blk hc]
    exact hwf c hc

theorem dirEntries_planted (hentries : entries fs.sb.blocksize blk = [e]) :
    (fs'.setBlock new blk).dirEntries (dir'.setBlock 0 new) = e :: fs.dirEntries dir := by
  have hself : (fs'.setBlock new blk).blocks new = blk := Function.update_self _ _ _
  unfold Fs.dirEntries
  rw [dataBlocks_planted hown hnew hb, Fs.setBlock_sb, hnew.grown.geometry.blocksize,
    List.flatMap_cons, hself, hentries, List.singleton_append]
  congr 1
  apply List.flatMap_congr
  intro c hc
  rw [blocks_planted hown hnew blk hc]

end Planted

/-! ## The directory stays in order -/

/-- The directory is in order with the new entry, and what has changed is its own.  Allocation
writes a bitmap, and it marks the new block itself. -/
structure AddsOnly (fs : Fs) (dir : InodeM) (name : Name) (ino : ℕ) (r : Added) : Prop where
  wellFormed : r.fs.WellFormedDir r.dir
  entries : (r.fs.dirEntries r.dir).Perm ((name, ino) :: fs.dirEntries dir)
  inside : ∀ b, r.fs.blocks b ≠ fs.blocks b → b ∈ r.fs.dataBlocks r.dir ∨
    ∃ g < fs.nrBlkGroup, b = (fs.bgdTable g).bgBlockBitmap
  marked : ∀ b ∈ r.fs.dataBlocks r.dir, r.fs.blocks b ≠ fs.blocks b →
    b ∈ r.marked ∨ b ∉ dir.allocated

/-- However long the loop may run, nothing outside of the block is written, and what is returned
with code 0 is the directory with the entry. -/
def AddKeepsOrder (fs : Fs) (dir : InodeM) (ip : Linked) (name : Name) : Prop :=
  ∀ fuel, InBounds (fun r => r.ret = 0 → AddsOnly fs dir name ip.iNum r)
    (addDirEntry fuel fs dir ip name)

/-- A new first block becomes one record, and can be one.  Where the search stops at a block which
is there, its last record has room, and where it adds a block, this is found with a first record of
length 0. -/
def PlaceFits (fs : Fs) (dir : InodeM) (len : ℕ) : Prop :=
  if dir.iBlock 0 = 0 then
    fs.sb.sFreeBlocksCount = 0 ∨ fs.sb.blocksize < 2 ^ 16 ∧ FirstFills fs dir
  else Searched fs dir ∧ ∃ i, StopsAt fs dir len i ∧
    if dir.iBlock i = 0 then dRecLen (fs.found 0) 0 = 0
    else Roomy fs.sb.blocksize (fs.blocks (dir.iBlock i)) len

theorem not_addsOnly_filled (hown : Fs.Owns fs dir others) (hb : dir.iBlock 0 ≠ 0) (ino : ℕ)
    (blk : Bytes) :
    ¬AddsOnly fs dir name ino ⟨0, fs.setBlock (dir.iBlock 0) blk, dir, [dir.iBlock 0], []⟩ := by
  intro h
  have hmem : dir.iBlock 0 ∈ fs.dataBlocks dir := Fs.direct_mem_dataBlocks (by decide) hb
  have hsame : blk = fs.blocks (dir.iBlock 0) := by
    by_contra hne
    have hself : (fs.setBlock (dir.iBlock 0) blk).blocks (dir.iBlock 0) = blk :=
      Function.update_self _ _ _
    have hmarked := h.marked (dir.iBlock 0)
      (by dsimp only; rw [dataBlocks_setBlock hown hmem]; exact hmem)
      (by dsimp only; rw [hself]; exact hne)
    exact hmarked.elim List.not_mem_nil fun hnot => hnot (hown.dataBlocks_allocated hmem)
  -- the block is as before, and there is no new entry
  have hset : fs.setBlock (dir.iBlock 0) blk = fs := by
    rw [hsame]
    unfold Fs.setBlock
    rw [Function.update_eq_self]
  have hlength := h.entries.length_eq
  dsimp only at hlength
  rw [hset, List.length_cons] at hlength
  omega

/-! ## Directories of one block on a full device -/

/-- All blocks of the device are in use. -/
def fullFs : Fs where
  sb := kibSb
  bgdTable _ :=
    { bgBlockBitmap := 3, bgInodeBitmap := 4, bgFreeBlocksCount := 0, bgFreeInodesCount := 0 }
  nrBlkGroup := 1
  modified := false
  blocks n := fun _ => if n = 3 then 0xFF#8 else 0#8

/-- The device with the directory in block 8. -/
def addFs (first : Bytes) : Fs := fullFs.setBlock 8 first

def addDir : InodeM :=
  { newFile 128 12 0x41ED 0 with
    iBlock := fun i => if i = 0 then 8 else 0
    iSize := 1024
    allocated := [8] }

theorem owns_addDir (first : Bytes) : Fs.Owns (addFs first) addDir [] := by
  have hsound : BlockUse.Sound ⟨fullFs, addDir.allocated ++ []⟩ :=
    { fs :=
        { accepted := rfl
          count := by decide
          first := by decide
          fields := by decide
          apart := by decide
          nonzero := by decide
          reserved := by decide
          zero := by decide
          tallied := ⟨by decide, by decide⟩ }
      nodup := by decide
      described := by decide
      marked := by decide
      data := by decide }
  have hown : Fs.Owns fullFs addDir [] :=
    ⟨⟨hsound, by decide⟩, (show Fs.fileBlocks fullFs addDir = [8] from rfl) ▸ List.Perm.refl _⟩
  exact hown.setBlock first (by decide) (show 8 ∉ ([] : List ℕ) from List.not_mem_nil)

theorem wellFormedDir_addDir {first : Bytes} (h : WellFormed 1024 first) :
    (addFs first).WellFormedDir addDir := by
  intro b hb
  have hblocks : (addFs first).dataBlocks addDir = [8] := rfl
  rw [hblocks] at hb
  obtain rfl := List.mem_singleton.mp hb
  exact h

/-- A regular file. -/
def someFile : Linked := ⟨14, 0x81A4⟩

theorem stopsAt_dotsBlock : StopsAt (addFs dotsBlock) addDir 1 0 := by
  refine ⟨by decide, by decide, ?_, Or.inr (by decide)⟩
  exact fun j hj => (Nat.not_lt_zero j hj).elim

theorem roomy_dotsBlock : Roomy 1024 dotsBlock 1 := by decide

theorem settles_present (hown : Fs.Owns fs dir others) (hwf : fs.WellFormedDir dir)
    (hname : NameOk name) (hstop : StopsAt fs dir name.length i) (hb : dir.iBlock i ≠ 0) :
    (Roomy fs.sb.blocksize (fs.blocks (dir.iBlock i)) name.length →
      Settles .endless (addStep ip name) ⟨fs, dir, dir.iBlock 0, 0, 0⟩
        (.ok ⟨0, fs.setBlock (dir.iBlock i)
          (placedBlock fs.sb.blocksize (fs.blocks (dir.iBlock i)) ip name), dir, [dir.iBlock i],
          [dir.iBlock i]⟩)) ∧
    (¬Roomy fs.sb.blocksize (fs.blocks (dir.iBlock i)) name.length →
      Settles .endless (addStep ip name) ⟨fs, dir, dir.iBlock 0, 0, 0⟩ (.error .outOfBounds)) := by
  have hi := hstop.direct
  have hblock := hwf _ (Fs.direct_mem_dataBlocks hi hb)
  have hsize := hown.blocksize_ge (by omega) hb
  have hfull := hstop.stop.resolve_left hb
  obtain ⟨off, hoff, hleads⟩ := leads_to_present hown hwf hname hstop ip hb
  constructor
  · intro hroom
    exact Settles.of_leads hleads
      (settles_of_roomy hblock (by omega) hoff hfull hroom)
  · intro hroom
    exact Settles.of_leads hleads (settles_of_not_roomy hblock (by omega) hoff hfull hroom)

section Order

variable (hown : Fs.Owns fs dir others) (hwf : fs.WellFormedDir dir) (hname : NameOk name)
  (hip : ip.Numbered)

include hown hwf hname hip

theorem addsOnly_placed (hstop : StopsAt fs dir name.length i) (hb : dir.iBlock i ≠ 0)
    (hroom : Roomy fs.sb.blocksize (fs.blocks (dir.iBlock i)) name.length) :
    AddsOnly fs dir name ip.iNum ⟨0, fs.setBlock (dir.iBlock i)
      (placedBlock fs.sb.blocksize (fs.blocks (dir.iBlock i)) ip name), dir, [dir.iBlock i],
      [dir.iBlock i]⟩ := by
  have hi := hstop.direct
  have hmem : dir.iBlock i ∈ fs.dataBlocks dir := Fs.direct_mem_dataBlocks hi hb
  have hblock := hwf _ hmem
  have hsize := hown.blocksize_ge (by omega) hb
  obtain ⟨xs, hxs⟩ := hblock.last (by omega)
  have hchain := hblock.1
  have hall := hblock.2
  rw [hxs] at hchain hall
  obtain ⟨hplaced, hentries⟩ := splitBlock_room hchain hall hname hip hroom
  have honly : ∀ b, (fs.setBlock (dir.iBlock i) (placedBlock fs.sb.blocksize
      (fs.blocks (dir.iBlock i)) ip name)).blocks b ≠ fs.blocks b → b = dir.iBlock i := by
    intro b hchange
    by_contra hne
    exact hchange (Function.update_of_ne hne _ _)
  refine ⟨wellFormedDir_setBlock hown hmem hwf hplaced, dirEntries_setBlock hown hmem hentries,
    ?_, ?_⟩
  · intro b hchange
    left
    dsimp only
    rw [dataBlocks_setBlock hown hmem, honly b hchange]
    exact hmem
  · intro b _ hchange
    exact Or.inl (List.mem_singleton.mpr (honly b hchange))

theorem addsOnly_planted_iff (hb : dir.iBlock 0 = 0)
    (hnew : FirstBlock fs dir others new fs' dir') :
    AddsOnly fs dir name ip.iNum ⟨0, fs'.setBlock new (putRecord (fs'.blocks new) 0 fs.sb.blocksize
      ip name), dir'.setBlock 0 new, [new], []⟩ ↔ fs.sb.blocksize < 2 ^ 16 := by
  have hsize := hnew.blocksize_ge
  constructor
  · intro h
    by_contra hlarge
    have hmod := Superblock.blocksize_mod (Nat.not_lt.mp hlarge)
    exact not_wellFormed_filled hname hip (by omega) hmod
      ((wellFormedDir_planted_iff hown hnew hb hwf).mp h.wellFormed)
  · intro hsmall
    obtain ⟨hfilled, hentries⟩ :=
      putRecord_filled hname hip fs.sb.blocksize_mod_four hsize hsmall
    refine ⟨(wellFormedDir_planted_iff hown hnew hb hwf).mpr hfilled, ?_, ?_, ?_⟩
    · dsimp only
      rw [dirEntries_planted hown hnew hb hentries]
    · intro b hchange
      dsimp only at hchange ⊢
      rw [dataBlocks_planted hown hnew hb]
      by_cases heq : b = new
      · exact Or.inl (heq ▸ List.mem_cons_self)
      · have hset : (fs'.setBlock new (putRecord (fs'.blocks new) 0 fs.sb.blocksize ip name)).blocks
            b = fs'.blocks b := Function.update_of_ne heq _ _
        rw [hset] at hchange
        exact Or.inr (hnew.changed b heq hchange)
    · intro b hin hchange
      dsimp only at hin hchange
      rw [dataBlocks_planted hown hnew hb] at hin
      rcases List.mem_cons.mp hin with rfl | hin
      · exact Or.inr hnew.not_mem
      · exact (hchange (blocks_planted hown hnew _ hin)).elim

theorem addKeepsOrder_of_placeFits (h : PlaceFits fs dir name.length) :
    AddKeepsOrder fs dir ip name := by
  intro fuel
  unfold PlaceFits at h
  by_cases hb : dir.iBlock 0 = 0
  · rw [if_pos hb] at h
    by_cases hfree : fs.sb.sFreeBlocksCount = 0
    · obtain ⟨fs', dir', hrun⟩ := addDirEntry_of_none hname hown ip hb hfree
      rw [hrun fuel]
      intro hret
      exact absurd hret (show -enospc ≠ 0 by decide)
    · obtain ⟨hsmall, hfills⟩ := h.resolve_left hfree
      obtain ⟨new, fs', dir', hnew, hrun⟩ := addDirEntry_of_new hname hown ip hb hfree hfills
      rw [hrun fuel]
      exact fun _ => (addsOnly_planted_iff hown hwf hname hip hb hnew).mpr hsmall
  · rw [if_neg hb] at h
    obtain ⟨hsearched, i, hstop, hroom⟩ := h
    rw [addDirEntry_of_present hname hown hb, if_pos hsearched]
    by_cases hi : dir.iBlock i = 0
    · rw [if_pos hi] at hroom
      rw [endless_of_missing hown hwf hname hstop hb hi hroom fuel]
      exact fun heq => Halt.noConfusion heq
    · rw [if_neg hi] at hroom
      have hplaced := addsOnly_placed hown hwf hname hip hstop hi hroom
      rcases ((settles_present hown hwf hname hstop hi).1 hroom).run_eq fuel
        with hlate | hdone
      · rw [hlate]
        exact fun heq => Halt.noConfusion heq
      · rw [hdone]
        exact fun _ => hplaced

theorem placeFits_of_addKeepsOrder (h : AddKeepsOrder fs dir ip name)
    (hleaves : ¬SearchLeaves fs dir name.length) (hblank : FindsBlank fs dir name.length) :
    PlaceFits fs dir name.length := by
  unfold PlaceFits
  by_cases hb : dir.iBlock 0 = 0
  · rw [if_pos hb]
    by_contra hnot
    obtain ⟨hfree, hlarge⟩ := not_or.mp hnot
    have hfills : FirstFills fs dir := Or.inl (hblank (Or.inl hb)).1
    obtain ⟨new, fs', dir', hnew, hrun⟩ := addDirEntry_of_new hname hown ip hb hfree hfills
    have honce := h 0
    rw [hrun 0] at honce
    exact hlarge ⟨(addsOnly_planted_iff hown hwf hname hip hb hnew).mp (honce rfl), hfills⟩
  · rw [if_neg hb]
    by_cases hsearched : Searched fs dir
    · obtain ⟨i, hstop⟩ := exists_stopsAt hleaves
      refine ⟨hsearched, i, hstop, ?_⟩
      by_cases hi : dir.iBlock i = 0
      · rw [if_pos hi]
        exact (hblank (Or.inr ⟨i, hstop, hi⟩)).2
      rw [if_neg hi]
      by_contra hroom
      obtain ⟨turns, hrun⟩ :=
        ((settles_present hown hwf hname hstop hi).2 hroom).exists_run
      have hbounds := h turns
      rw [addDirEntry_of_present hname hown hb, if_pos hsearched, hrun] at hbounds
      exact hbounds rfl
    · have honce := h 0
      rw [addDirEntry_of_present hname hown hb, if_neg hsearched] at honce
      exact (not_addsOnly_filled hown hb ip.iNum _ (honce rfl)).elim

/-- The directory stays in order exactly if the place fits, unless the search leaves the direct
blocks or comes to a block which is found with records. -/
theorem addKeepsOrder_iff : (PlaceFits fs dir name.length → AddKeepsOrder fs dir ip name) ∧
    (¬SearchLeaves fs dir name.length → FindsBlank fs dir name.length →
      AddKeepsOrder fs dir ip name → PlaceFits fs dir name.length) :=
  ⟨addKeepsOrder_of_placeFits hown hwf hname hip,
    fun hleaves hblank h => placeFits_of_addKeepsOrder hown hwf hname hip h hleaves hblank⟩

end Order

/-- The name `x` goes behind the two entries. -/
theorem addKeepsOrder_dotsBlock : AddKeepsOrder (addFs dotsBlock) addDir someFile [0x78#8] :=
  (addKeepsOrder_iff (owns_addDir dotsBlock) (wellFormedDir_addDir (by decide +kernel))
    ⟨by decide, by decide⟩ ⟨by decide, by decide⟩).1
    ((if_neg (by decide)).mpr ⟨by decide +kernel, 0, stopsAt_dotsBlock,
      (if_neg (by decide)).mpr roomy_dotsBlock⟩)

/-- A blank record, and the name `c` behind it. -/
def blankFirst : Bytes :=
  blockOf [(0, recordBytes 0 12 0#8 [0x61#8]), (12, recordBytes 20 1012 1#8 [0x63#8])]

/-- With the name `x`, the name `c` is lost. -/
theorem not_addKeepsOrder_blankFirst :
    ¬∀ (fs : Fs) (dir : InodeM) (others : List ℕ) (ip : Linked) (name : Name),
      Fs.Owns fs dir others → fs.WellFormedDir dir → NameOk name → ip.Numbered →
        AddKeepsOrder fs dir ip name := by
  intro hall
  have hname : NameOk [0x78#8] := ⟨by decide, by decide⟩
  have hown := owns_addDir blankFirst
  have hb : addDir.iBlock 0 ≠ 0 := by decide
  have honce := hall _ _ [] someFile [0x78#8] hown
    (wellFormedDir_addDir (by decide +kernel)) hname ⟨by decide, by decide⟩ 0
  rw [addDirEntry_of_present hname hown hb, if_neg (by decide +kernel)] at honce
  exact not_addsOnly_filled hown hb someFile.iNum _ (honce rfl)

/-! ## The loop ends -/

/-- The new record lies in the block. -/
def HoldsEntry (size : ℕ) (blk : Bytes) (e : Name × ℕ) : Prop :=
  ∃ p, Inside size blk p ∧ entryAt blk p = some e

/-- The entry is in a block which was there, or it is in one new block, by which `i_size` has
grown. -/
def PlacedOnce (fs : Fs) (dir : InodeM) (e : Name × ℕ) (r : Added) : Prop :=
  ∃ b, r.written = [b] ∧ HoldsEntry r.fs.sb.blocksize (r.fs.blocks b) e ∧
    (b ∈ fs.dataBlocks dir ∧ r.dir.iSize = dir.iSize ∨
      b ∉ dir.allocated ∧ b ∈ r.dir.allocated ∧
        r.dir.iSize = (dir.iSize + fs.sb.blocksize) % 2 ^ 32)

/-- After finitely many turns there is an error code, or the entry is placed. -/
def AddEnds (fs : Fs) (dir : InodeM) (ip : Linked) (name : Name) : Prop :=
  ∃ fuel r, addDirEntry fuel fs dir ip name = .ok r ∧
    (r.ret < 0 ∨ r.ret = 0 ∧ PlacedOnce fs dir (name, ip.iNum) r)

/-- There is no first block and none to be had, the first block is not searched, or the search
stops at a block which is there and has room. -/
def PlaceFound (fs : Fs) (dir : InodeM) (len : ℕ) : Prop :=
  if dir.iBlock 0 = 0 then fs.sb.sFreeBlocksCount = 0
  else ¬Searched fs dir ∨ ∃ i, StopsAt fs dir len i ∧ dir.iBlock i ≠ 0 ∧
    Roomy fs.sb.blocksize (fs.blocks (dir.iBlock i)) len

theorem Placed.holdsEntry {p recLen : ℕ} (h : Placed blk p recLen ip name)
    (hinside : p + headerSize + name.length ≤ size) : HoldsEntry size blk (name, ip.iNum) := by
  refine ⟨p, ?_, h.entry⟩
  unfold Inside
  rw [h.nameLen]
  omega

theorem addEnds_of_existing {marked : List ℕ}
    (hrun : addDirEntry fuel fs dir ip name = .ok ⟨0, fs.setBlock b blk, dir, [b], marked⟩)
    (hb : b ∈ fs.dataBlocks dir) (hholds : HoldsEntry fs.sb.blocksize blk (name, ip.iNum)) :
    AddEnds fs dir ip name := by
  have hself : (fs.setBlock b blk).blocks b = blk := Function.update_self _ _ _
  refine ⟨fuel, _, hrun, Or.inr ⟨rfl, b, rfl, ?_, Or.inl ⟨hb, rfl⟩⟩⟩
  dsimp only
  rw [hself]
  exact hholds

section Ends

variable (hown : Fs.Owns fs dir others) (hwf : fs.WellFormedDir dir) (hname : NameOk name)
  (hip : ip.Numbered)

include hown hwf hname hip

theorem holdsEntry_placedBlock (hi : i < 12) (hb : dir.iBlock i ≠ 0)
    (hroom : Roomy fs.sb.blocksize (fs.blocks (dir.iBlock i)) name.length) :
    HoldsEntry fs.sb.blocksize (placedBlock fs.sb.blocksize (fs.blocks (dir.iBlock i)) ip name)
      (name, ip.iNum) := by
  have hsize := hown.blocksize_ge (by omega) hb
  obtain ⟨-, hend⟩ := (hwf _ (Fs.direct_mem_dataBlocks hi hb)).last_bounds (by omega)
  have hneed := newRecLen_bounds name.length
  have hplaced : Placed (placedBlock fs.sb.blocksize (fs.blocks (dir.iBlock i)) ip name) _ _ ip
      name := placed_putRecord hname hip _
  apply hplaced.holdsEntry
  unfold Roomy HasRoom at hroom
  unfold headerSize
  omega

theorem addEnds_of_placeFound (h : PlaceFound fs dir name.length) : AddEnds fs dir ip name := by
  unfold PlaceFound at h
  by_cases hb : dir.iBlock 0 = 0
  · rw [if_pos hb] at h
    obtain ⟨fs', dir', hrun⟩ := addDirEntry_of_none hname hown ip hb h
    exact ⟨0, _, hrun 0, Or.inl (show -enospc < 0 by decide)⟩
  · rw [if_neg hb] at h
    by_cases hsearched : Searched fs dir
    · obtain ⟨i, hstop, hi, hroom⟩ := h.resolve_left (not_not.mpr hsearched)
      obtain ⟨turns, hdone⟩ := ((settles_present hown hwf hname hstop hi).1 hroom).exists_run
      have hadd : addDirEntry turns fs dir ip name = _ :=
        (addDirEntry_of_present hname hown hb).trans ((if_pos hsearched).trans hdone)
      exact addEnds_of_existing hadd (Fs.direct_mem_dataBlocks hstop.direct hi)
        (holdsEntry_placedBlock hown hwf hname hip hstop.direct hi hroom)
    · have hadd : addDirEntry 0 fs dir ip name = _ :=
        (addDirEntry_of_present hname hown hb).trans (if_neg hsearched)
      have hsize := hown.blocksize_ge (by decide) hb
      have hmax := hname.2
      unfold maxNameLen at hmax
      have hinside : 0 + headerSize + name.length ≤ fs.sb.blocksize := by
        unfold headerSize
        omega
      exact addEnds_of_existing hadd (Fs.direct_mem_dataBlocks (by decide) hb)
        ((placed_putRecord hname hip _).holdsEntry hinside)

omit hip in
theorem placeFound_of_addEnds (h : AddEnds fs dir ip name)
    (hleaves : ¬SearchLeaves fs dir name.length) (hblank : FindsBlank fs dir name.length) :
    PlaceFound fs dir name.length := by
  obtain ⟨fuel, r, hrun, hr⟩ := h
  unfold PlaceFound
  by_cases hb : dir.iBlock 0 = 0
  · rw [if_pos hb]
    by_contra hfree
    obtain ⟨new, fs', dir', hnew, hadd⟩ :=
      addDirEntry_of_new hname hown ip hb hfree (Or.inl (hblank (Or.inl hb)).1)
    rw [hadd fuel] at hrun
    obtain rfl := Except.ok.inj hrun
    rcases hr with hneg | ⟨-, b, hwritten, -, hplace⟩
    · exact absurd hneg (Int.lt_irrefl 0)
    · obtain rfl : new = b := List.singleton_inj.mp hwritten
      rcases hplace with ⟨hin, -⟩ | ⟨-, -, hgrown⟩
      · exact hnew.not_mem (hown.dataBlocks_allocated hin)
      · -- the size of the directory is left as it was
        have hsame : dir'.iSize = (dir.iSize + fs.sb.blocksize) % 2 ^ 32 := hgrown
        rw [hnew.iSize] at hsame
        have hsize := hnew.blocksize_ge
        exact Fs.add_mod_ne (by omega) fs.sb.blocksize_lt hsame.symm
  · rw [if_neg hb]
    by_cases hsearched : Searched fs dir
    · obtain ⟨i, hstop⟩ := exists_stopsAt hleaves
      rw [addDirEntry_of_present hname hown hb, if_pos hsearched] at hrun
      by_cases hi : dir.iBlock i = 0
      · rw [endless_of_missing hown hwf hname hstop hb hi (hblank (Or.inr ⟨i, hstop, hi⟩)).2
          fuel] at hrun
        cases hrun
      · refine Or.inr ⟨i, hstop, hi, ?_⟩
        by_contra hroom
        have hout := ((settles_present hown hwf hname hstop hi).2 hroom).eq_of_run hrun
        cases hout
    · exact Or.inl hsearched

/-- The loop ends as it should exactly if the place is found, unless the search leaves the direct
blocks or comes to a block which is found with records. -/
theorem addEnds_iff : (PlaceFound fs dir name.length → AddEnds fs dir ip name) ∧
    (¬SearchLeaves fs dir name.length → FindsBlank fs dir name.length →
      AddEnds fs dir ip name → PlaceFound fs dir name.length) :=
  ⟨addEnds_of_placeFound hown hwf hname hip,
    fun hleaves hblank h => placeFound_of_addEnds hown hwf hname h hleaves hblank⟩

end Ends

/-- The name `x` goes into the block which is there. -/
theorem addEnds_dotsBlock : AddEnds (addFs dotsBlock) addDir someFile [0x78#8] :=
  (addEnds_iff (owns_addDir dotsBlock) (wellFormedDir_addDir (by decide +kernel))
    ⟨by decide, by decide⟩ ⟨by decide, by decide⟩).1
    ((if_neg (by decide)).mpr (Or.inr ⟨0, stopsAt_dotsBlock, by decide, roomy_dotsBlock⟩))

/-- A block whose last record has 12 bytes. -/
def shortLast : Bytes :=
  blockOf [(0, recordBytes 12 12 2#8 dot), (12, recordBytes 20 1000 1#8 [0x63#8]),
    (1012, recordBytes 21 12 1#8 [0x64#8])]

/-- For a name of five bytes another block is needed. -/
theorem stopsAt_shortLast : StopsAt (addFs shortLast) addDir 5 1 := by
  refine ⟨by decide, by decide, ?_, Or.inl rfl⟩
  intro j hj
  obtain rfl := Nat.lt_one_iff.mp hj
  exact ⟨by decide, by decide⟩

/-- The loop goes on in block 0, which is all zeros. -/
theorem not_addEnds_shortLast :
    ¬∀ (fs : Fs) (dir : InodeM) (others : List ℕ) (ip : Linked) (name : Name),
      Fs.Owns fs dir others → fs.WellFormedDir dir → NameOk name → ip.Numbered →
        AddEnds fs dir ip name := by
  intro hall
  have hname : NameOk (List.replicate 5 0x65#8) := ⟨by decide, by decide⟩
  have hown := owns_addDir shortLast
  have hwf : (addFs shortLast).WellFormedDir addDir := wellFormedDir_addDir (by decide +kernel)
  have hb : addDir.iBlock 0 ≠ 0 := by decide
  obtain ⟨fuel, r, hrun, -⟩ := hall _ _ [] someFile _ hown hwf hname ⟨by decide, by decide⟩
  rw [addDirEntry_of_present hname hown hb, if_pos (by decide +kernel),
    endless_of_missing hown hwf hname stopsAt_shortLast hb rfl rfl fuel] at hrun
  cases hrun

end Yak.Ext2
