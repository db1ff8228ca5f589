import Yak.BlockLookup
import Yak.DirGrowth

/-!
# Which blocks a new entry changes

The entry goes to a block of the directory, as long as its place is searched in the direct blocks.
-/

namespace Yak.Ext2

open ByteBitmap BoundedLoop

variable {fs fs' : Fs} {dir dir' : InodeM} {ip : Linked} {name : Name} {others : List ℕ}
  {b fuel : ℕ} {r : Added}

/-! ## Names of any length -/

theorem addDirEntry_take (hname : name ≠ []) :
    addDirEntry fuel fs dir ip name = addDirEntry fuel fs dir ip (name.take maxNameLen) := by
  have hne : name.take maxNameLen ≠ [] := by
    rw [Ne, List.take_eq_nil_iff, not_or]
    exact ⟨by decide, hname⟩
  unfold addDirEntry
  rw [if_neg hname, if_neg hne, List.take_take, min_self]

theorem nameOk_take (hname : name ≠ []) : NameOk (name.take maxNameLen) := by
  have hpos := List.length_pos_iff.mpr hname
  unfold NameOk
  rw [List.length_take]
  unfold maxNameLen
  omega

/-! ## The blocks which are changed -/

/-- A change by one store lies in its block. -/
theorem eq_of_setBlock_changed {c : ℕ} {blk : Bytes}
    (h : (fs.setBlock c blk).blocks b ≠ fs.blocks b) : b = c := by
  by_contra hne
  exact h (Function.update_of_ne hne _ _)

theorem addDirEntry_changed (hown : Fs.Owns fs dir others) (hwf : fs.WellFormedDir dir)
    (hname : name ≠ []) (hleaves : ¬SearchLeaves fs dir (name.take maxNameLen).length)
    (hblank : FindsBlank fs dir (name.take maxNameLen).length)
    (hrun : addDirEntry fuel fs dir ip name = .ok r) (hret : 0 ≤ r.ret)
    (hb : r.fs.blocks b ≠ fs.blocks b) :
    b ∈ r.dir.allocated ∨ ∃ g < fs.nrBlkGroup, b = (fs.bgdTable g).bgBlockBitmap := by
  have hok := nameOk_take hname
  rw [addDirEntry_take hname] at hrun
  generalize name.take maxNameLen = short at hok hleaves hblank hrun
  by_cases hfirst : dir.iBlock 0 = 0
  · by_cases hfree : fs.sb.sFreeBlocksCount = 0
    · obtain ⟨fs', dir', hnone⟩ := addDirEntry_of_none hok hown ip hfirst hfree
      rw [hnone fuel] at hrun
      obtain rfl := Except.ok.inj hrun
      exact absurd hret (show ¬0 ≤ -enospc by decide)
    · obtain ⟨new, fs', dir', hnew, hadd⟩ :=
        addDirEntry_of_new hok hown ip hfirst hfree (Or.inl (hblank (Or.inl hfirst)).1)
      rw [hadd fuel] at hrun
      obtain rfl := Except.ok.inj hrun
      dsimp only at hb ⊢
      by_cases heq : b = new
      · left
        have hallocated : (dir'.setBlock 0 new).allocated = [new] ++ dir.allocated :=
          hnew.grown.allocated
        rw [hallocated, heq]
        exact List.mem_cons_self
      · right
        have hset :
            (fs'.setBlock new (putRecord (fs'.blocks new) 0 fs.sb.blocksize ip short)).blocks b =
              fs'.blocks b := Function.update_of_ne heq _ _
        rw [hset] at hb
        exact hnew.changed b heq hb
  · left
    rw [addDirEntry_of_present hok hown hfirst] at hrun
    split at hrun
    next =>
      obtain ⟨i, hstop⟩ := exists_stopsAt hleaves
      by_cases hi : dir.iBlock i = 0
      · rw [endless_of_missing hown hwf hok hstop hfirst hi (hblank (Or.inr ⟨i, hstop, hi⟩)).2
          fuel] at hrun
        cases hrun
      · by_cases hroom : Roomy fs.sb.blocksize (fs.blocks (dir.iBlock i)) short.length
        · obtain rfl :=
            Except.ok.inj (((settles_present hown hwf hok hstop hi).1 hroom).eq_of_run hrun)
          obtain rfl := eq_of_setBlock_changed hb
          exact hown.dataBlocks_allocated (Fs.direct_mem_dataBlocks hstop.direct hi)
        · cases ((settles_present hown hwf hok hstop hi).2 hroom).eq_of_run hrun
    next =>
      obtain rfl := Except.ok.inj hrun
      obtain rfl := eq_of_setBlock_changed hb
      exact hown.dataBlocks_allocated (Fs.direct_mem_dataBlocks (by decide) hfirst)

/-! ## What every step keeps -/

/-- The block size and the mode are the old ones, and block 0 is not among the blocks handed
out. -/
structure Plain (size mode : ℕ) (fs : Fs) (dir : InodeM) : Prop where
  size : fs.sb.blocksize = size
  mode : dir.iMode = mode
  nonzero : 0 ∉ dir.allocated

namespace Fs

variable {size mode : ℕ}

theorem plain_ballocFor (h : Plain size mode fs dir) :
    Yields (fun r => Plain size mode r.2.1 r.2.2) (fs.ballocFor dir) := by
  rintro ⟨new, fs', dir'⟩ hrun
  have hsize := (ballocFor_blocksize hrun).trans h.size
  unfold ballocFor at hrun
  obtain ⟨⟨c, fs₁, inode⟩, -, hrest⟩ := bind_eq_ok.mp hrun
  obtain ⟨rfl, rfl, rfl⟩ : c = new ∧ fs₁ = fs' ∧ _ = dir' := by simpa using hrest
  refine ⟨hsize, h.mode, ?_⟩
  dsimp only
  split
  next => exact h.nonzero
  next hne => exact fun hin => (List.mem_cons.mp hin).elim (fun heq => hne heq.symm) h.nonzero

theorem plain_bmapLevels {create : Bool} {ks : List ℕ} (h : Plain size mode fs dir) :
    Yields (fun r => Plain size mode r.2.1 r.2.2) (fs.bmapLevels dir create b ks) := by
  induction ks generalizing fs dir b with
  | nil => exact Yields.ok h
  | cons k ks ih =>
      rw [bmapLevels]
      split
      next => exact Yields.ok h
      next =>
        split
        next => exact Yields.error _
        next =>
          split
          next =>
            exact (plain_ballocFor h).bind fun _ hnew =>
              ih ⟨hnew.size, hnew.mode, hnew.nonzero⟩
          next => exact ih h

theorem plain_bmapFrom {create : Bool} {slot : ℕ} {ks : List ℕ} (h : Plain size mode fs dir) :
    Yields (fun r => Plain size mode r.2.1 r.2.2) (fs.bmapFrom dir create slot ks) := by
  unfold bmapFrom
  split
  next =>
    exact (plain_ballocFor h).bind fun _ hnew =>
      plain_bmapLevels ⟨hnew.size, hnew.mode, hnew.nonzero⟩
  next => exact plain_bmapLevels h

/-- `ext2_bmap_create_indirect` behind the index block. -/
theorem plain_indirectEntry {create : Bool} {lblk : ℕ} (x : ℕ × Fs × InodeM)
    (hx : Plain size mode x.2.1 x.2.2) : Yields (fun r => Plain size mode r.2.1 r.2.2)
      (if x.1 = 0 then .ok (0, x.2.1, x.2.2)
      else if create then
        if charAddr (x.2.1.blocks x.1 (lblk - 12)) = 0 then do
          let (new, fs, ip) ← x.2.1.ballocFor x.2.2
          let c := BitVec.ofNat 8 new
          .ok (charAddr c, fs.setBlock x.1 (Function.update (fs.blocks x.1) (lblk - 12) c), ip)
        else .ok (charAddr (x.2.1.blocks x.1 (lblk - 12)), x.2.1, x.2.2)
      else .ok (0, x.2.1, x.2.2)) := by
  split
  next => exact Yields.ok hx
  next =>
    split
    next =>
      split
      next =>
        exact (plain_ballocFor hx).bind fun _ hnew =>
          Yields.ok ⟨hnew.size, hnew.mode, hnew.nonzero⟩
      next => exact Yields.ok hx
    next => exact Yields.ok hx

theorem plain_bmapCreateIndirect {create : Bool} {lblk : ℕ} (h : Plain size mode fs dir) :
    Yields (fun r => Plain size mode r.2.1 r.2.2) (fs.bmapCreateIndirect dir lblk create) := by
  unfold bmapCreateIndirect
  dsimp only
  split
  next =>
    exact (plain_ballocFor h).bind fun x hx =>
      plain_indirectEntry (x.1, x.2.1, x.2.2.setBlock _ x.1) ⟨hx.size, hx.mode, hx.nonzero⟩
  next => exact plain_indirectEntry (_, fs, dir) h

theorem plain_createBlock {off : ℕ} (h : Plain size mode fs dir) :
    Yields (fun r => Plain size mode r.2.1 r.2.2) (fs.createBlock dir off) := by
  unfold createBlock bmapCreate
  dsimp only
  split
  next => exact plain_bmapFrom h
  next =>
    split
    next => exact plain_bmapCreateIndirect h
    next =>
      split
      next => exact plain_bmapFrom h
      next =>
        unfold bmapCreateTindirect
        dsimp only
        split
        next =>
          refine (plain_bmapFrom h).bind ?_
          rintro ⟨c, fs', dir'⟩ hdir'
          dsimp only
          split
          next => exact Yields.ok hdir'
          next => exact Yields.error _
        next => exact plain_bmapFrom h

end Fs

/-- What holds when the loop of `ext2_add_dir_entry` ends, or goes on. -/
def PlainTurn (size mode : ℕ) : Added ⊕ AddState → Prop
  | .inl r => Plain size mode r.fs r.dir
  | .inr s => Plain size mode s.fs s.dir

/-- A turn behind the test for the end of the block. -/
theorem plain_addStep_rest {size mode : ℕ} (s s' : AddState) (hs' : Plain size mode s'.fs s'.dir) :
    Yields (PlainTurn size mode)
      (if s.fs.sb.blocksize < s'.p + headerSize then .error .outOfBounds
      else if s.fs.sb.blocksize ≤ s'.p + dRecLen (s'.fs.blocks s'.block) s'.p ∧
          newRecLen name.length ≤ dRecLen (s'.fs.blocks s'.block) s'.p then do
        let blk ← splitRecord s.fs.sb.blocksize (s'.fs.blocks s'.block) s'.p ip name
        .ok (.inl ⟨0, s'.fs.setBlock s'.block blk, s'.dir, [s'.block], [s'.block]⟩)
      else if s.fs.sb.blocksize ≤ s'.p + dRecLen (s'.fs.blocks s'.block) s'.p then do
        let (block, fs, dir) ← s'.fs.createBlock s'.dir (offT s.fs.sb.blocksize s'.off)
        .ok (.inr ⟨fs, dir, block, s'.off, 0⟩)
      else .ok (.inr { s' with
        off := (s'.off + dRecLen (s'.fs.blocks s'.block) s'.p) % 2 ^ 32
        p := s'.p + dRecLen (s'.fs.blocks s'.block) s'.p })) := by
  split
  next => exact Yields.error _
  next =>
    split
    next =>
      exact Yields.of_forall fun _ =>
        Yields.ok (P := PlainTurn size mode) ⟨hs'.size, hs'.mode, hs'.nonzero⟩
    next =>
      split
      next =>
        exact (Fs.plain_createBlock hs').bind fun _ hnew =>
          Yields.ok (P := PlainTurn size mode) ⟨hnew.size, hnew.mode, hnew.nonzero⟩
      next => exact Yields.ok (P := PlainTurn size mode) ⟨hs'.size, hs'.mode, hs'.nonzero⟩

theorem plain_addStep {size mode : ℕ} {s : AddState} (h : Plain size mode s.fs s.dir) :
    Yields (PlainTurn size mode) (addStep ip name s) := by
  unfold addStep
  dsimp only
  split
  next =>
    exact (Fs.plain_createBlock h).bind fun x hx =>
      plain_addStep_rest s ⟨_, _, x.1, s.off, 0⟩ ⟨hx.size, hx.mode, hx.nonzero⟩
  next => exact plain_addStep_rest s s h

theorem plain_addDirEntry {size mode : ℕ} (h : Plain size mode fs dir) :
    Yields (fun r => Plain size mode r.fs r.dir) (addDirEntry fuel fs dir ip name) := by
  unfold addDirEntry
  split
  next => exact Yields.ok h
  next =>
    refine (Fs.plain_createBlock h).bind ?_
    rintro ⟨c, fs', dir'⟩ hdir'
    dsimp only
    split
    next => exact Yields.ok hdir'
    next =>
      split
      next => exact Yields.error _
      next =>
        split
        next => exact Yields.of_forall fun _ => Yields.ok ⟨hdir'.size, hdir'.mode, hdir'.nonzero⟩
        next =>
          intro r hrun
          have hbegin : PlainTurn size mode (.inr (AddState.mk fs' dir' c 0 0)) := hdir'
          refine run_invariant (fun s => PlainTurn size mode (.inr s))
            (fun r => PlainTurn size mode (.inl r)) ?_ hbegin hrun
          intro s y hs hy
          have hturn := plain_addStep hs y hy
          cases y with
          | inl r => exact hturn
          | inr s' => exact hturn

end Yak.Ext2
