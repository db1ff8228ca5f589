import Yak.BlockLookup
import Yak.LastReference

/-!
# The blocks of all files

Any number of inodes in memory, for which `ext2_create_block` and `ext2_itrunc` are called in any
order.  What a block of a file holds is what was put there last, whatever is done to the other
files.
-/

namespace Yak.Ext2

open ByteBitmap WordMemory IndexTree

/-- What the blocks of the files hold, by the number of the file and the offset. -/
abbrev Contents := ℕ → ℕ → Option Bytes

inductive BlockCall where
  /-- `ext2_create_block` for the file `i`, and what is put into the block. -/
  | write (i off : ℕ) (data : Bytes)
  /-- `ext2_itrunc`, by itself or in the last `ext2_iput`. -/
  | trunc (i : ℕ)

/-- The contents behind a call which has returned `r`, with this block size.  Without a block,
nothing is put anywhere. -/
def Contents.after (size : ℕ) (v : Contents) : BlockCall × ℕ → Contents
  | (.write i off data, r) => fun j x =>
      if r ≠ 0 ∧ j = i ∧ x / size = off / size then some data else v j x
  | (.trunc i, _) => fun j x => if j = i then none else v j x

/-- A call without a block behind it has found none free. -/
def BlockCall.Refused (r : ℕ) (fs : Fs) : BlockCall → Prop
  | .write _ _ _ => r = 0 → fs.Full
  | .trunc _ => True

/-- The block which `ext2_bmap` finds, outside of the range where it takes bytes for addresses. -/
def Fs.lookup (fs : Fs) (ip : InodeM) (x : ℕ) : Option Bytes :=
  if fs.Mapped x then
    match fs.bmap ip x with
    | .ok (b, fs, _) => if b = 0 then none else some (fs.blocks b)
    | .error _ => none
  else none

structure LiveFiles where
  fs : Fs
  inodes : List InodeM
  /-- The blocks of files which are not in memory. -/
  loose : List ℕ

namespace LiveFiles

def contents (s : LiveFiles) : Contents := fun i x => s.inodes[i]?.bind fun ip => s.fs.lookup ip x

def others (s : LiveFiles) (i : ℕ) : List ℕ :=
  (s.inodes.eraseIdx i).flatMap InodeM.allocated ++ s.loose

def step (s : LiveFiles) : BlockCall → Except Halt (ℕ × LiveFiles)
  | .write i off data =>
      match s.inodes[i]? with
      | none => .error .outOfBounds
      | some ip => do
          let (r, fs, ip) ← s.fs.createBlock ip off
          .ok (r, ⟨if r = 0 then fs else fs.setBlock r data, s.inodes.set i ip, s.loose⟩)
  | .trunc i =>
      match s.inodes[i]? with
      | none => .error .outOfBounds
      | some ip => do
          let (fs, ip) ← s.fs.itrunc ip
          .ok (0, ⟨fs, s.inodes.set i { ip with allocated := [] }, s.loose⟩)

/-- The results of the calls, and the state behind them. -/
def run (s : LiveFiles) : List BlockCall → Except Halt (List ℕ × LiveFiles)
  | [] => .ok ([], s)
  | call :: calls => do
      let (r, s) ← s.step call
      let (rs, s) ← run s calls
      .ok (r :: rs, s)

/-- The offset is not in the indirect range nor beyond the second index, new index blocks are found
as zeros, and `ext2_bfree` finds the blocks of a file which is emptied. -/
def SafeStep (s : LiveFiles) : BlockCall → Prop
  | .write i off _ => ∃ ip, s.inodes[i]? = some ip ∧ s.fs.Mapped off ∧ s.fs.IndexWiped ip off
  | .trunc i => ∃ ip, s.inodes[i]? = some ip ∧ ∀ b ∈ ip.allocated, s.fs.Placed b

def SafeRun (s : LiveFiles) : List BlockCall → Prop
  | [] => True
  | call :: calls => s.SafeStep call ∧ ∀ r s', s.step call = .ok (r, s') → s'.SafeRun calls

/-- Blocks are missing on a full volume only. -/
def ServedRun (s : LiveFiles) : List BlockCall → Prop
  | [] => True
  | call :: calls => ∀ r s', s.step call = .ok (r, s') → call.Refused r s'.fs ∧ s'.ServedRun calls

/-- Each block in use belongs to one file, and hangs in it where `i_block` says. -/
structure Sound (s : LiveFiles) : Prop where
  use : BlockUse.Sound ⟨s.fs, s.inodes.flatMap InodeM.allocated ++ s.loose⟩
  number : ∀ ip ∈ s.inodes, 1 ≤ ip.iNum ∧ ip.iNum ≤ s.fs.sb.sInodesCount
  tree : ∀ ip ∈ s.inodes, (Fs.fileBlocks s.fs ip).Perm ip.allocated
  perGroup : s.fs.sb.sBlocksPerGroup < 2 ^ 16

end LiveFiles

/-! ## A block of one file -/

namespace Fs

variable {fs fs' : Fs} {ip ip' : InodeM} {others news : List ℕ} {x y off r : ℕ}

theorem lookup_eq (h : fs.Mapped x) : fs.lookup ip x =
    if walk fs.pointer (ip.iBlock (fs.slotPath x).1) (fs.slotPath x).2 = 0 then none
    else some (fs.blocks (walk fs.pointer (ip.iBlock (fs.slotPath x).1) (fs.slotPath x).2)) := by
  unfold lookup
  rw [if_pos h, bmap_of_mapped h]

theorem mapped_congr (h : x / fs.sb.blocksize = y / fs.sb.blocksize) :
    fs.Mapped x ↔ fs.Mapped y := by
  unfold Mapped
  rw [h]

theorem slotPath_congr (h : x / fs.sb.blocksize = y / fs.sb.blocksize) :
    fs.slotPath x = fs.slotPath y := by
  unfold slotPath
  rw [h]

theorem walk_slot_congr (hindex : ∀ c ∈ fileIndex fs ip, fs'.blocks c = fs.blocks c)
    (hx : fs.Mapped x) : walk fs'.pointer (ip.iBlock (fs.slotPath x).1) (fs.slotPath x).2 =
      walk fs.pointer (ip.iBlock (fs.slotPath x).1) (fs.slotPath x).2 := by
  apply walk_congr slotPath_length (slotPath_lt hx)
  intro c hc k _
  unfold Fs.pointer
  rw [hindex c (List.mem_flatMap.mpr ⟨_, List.mem_range.mpr slotPath_slot, hc⟩)]

/-- A file whose blocks stay as they are has the contents it had. -/
theorem Owns.lookup_congr (h : Owns fs ip others) (hgeometry : SameGeometry fs fs')
    (hdata : ∀ c ∈ ip.allocated, fs'.blocks c = fs.blocks c) (x : ℕ) :
    fs'.lookup ip x = fs.lookup ip x := by
  by_cases hx : fs.Mapped x
  · rw [lookup_eq hx, lookup_eq (hgeometry.mapped_iff.mpr hx), hgeometry.slotPath,
      walk_slot_congr (fun c hc => hdata c (h.fileIndex_allocated hc)) hx]
    split
    next => rfl
    next hne =>
      have hmem := walk_mem_nodes slotPath_length (slotPath_lt hx) hne
      rw [hdata _ (h.slot_allocated slotPath_slot hmem)]
  · unfold lookup
    rw [if_neg hx, if_neg (mt hgeometry.mapped_iff.mp hx)]

/-- Data is found where its block is. -/
theorem lookup_setBlock (hr : r ≠ 0) (hleaf : r ∉ fileIndex fs ip) (data : Bytes)
    (hx : fs.Mapped x) : (fs.setBlock r data).lookup ip x =
      if walk fs.pointer (ip.iBlock (fs.slotPath x).1) (fs.slotPath x).2 = r then some data
      else fs.lookup ip x := by
  have hgeometry := SameGeometry.setBlock fs r data
  have hindex : ∀ c ∈ fileIndex fs ip, (fs.setBlock r data).blocks c = fs.blocks c :=
    fun c hc => Function.update_of_ne (fun heq => hleaf (by rwa [← heq])) _ _
  rw [lookup_eq hx, lookup_eq (hgeometry.mapped_iff.mpr hx), hgeometry.slotPath,
    walk_slot_congr hindex hx]
  split
  next hzero => rw [if_neg (hzero ▸ hr.symm)]
  next hne =>
    split
    next heq =>
      rw [heq]
      exact congrArg some (Function.update_self ..)
    next hother => exact congrArg some (Function.update_of_ne hother ..)

/-- A block is found in one logical block of a file. -/
theorem Owns.walk_injective (h : Owns fs ip others) (hx : fs.Mapped x) (hy : fs.Mapped y)
    (hne : walk fs.pointer (ip.iBlock (fs.slotPath x).1) (fs.slotPath x).2 ≠ 0)
    (heq : walk fs.pointer (ip.iBlock (fs.slotPath x).1) (fs.slotPath x).2 =
      walk fs.pointer (ip.iBlock (fs.slotPath y).1) (fs.slotPath y).2) :
    x / fs.sb.blocksize = y / fs.sb.blocksize := by
  have hlt := slotPath_lt hx
  have hlt' := slotPath_lt hy
  have hlen : (fs.slotPath y).2.length = levelsOf (fs.slotPath y).1 := slotPath_length
  by_cases hslot : (fs.slotPath y).1 = (fs.slotPath x).1
  · rw [hslot] at heq hlen
    have hpath := IndexTree.walk_injective slotPath_length hlen hlt hlt' (h.nodup_slot slotPath_slot)
      hne heq
    apply tablePath_injective (tablePath_of_mapped hx)
    rw [tablePath_of_mapped hy, hslot, hpath]
  · have hmem := walk_mem_nodes slotPath_length hlt hne
    have hmem' := walk_mem_nodes hlen hlt' (heq ▸ hne)
    rw [← heq] at hmem'
    exact (disjoint_of_nodup_flatMap
      (f := fun m => nodes fs.pointer fs.indirBlocks (levelsOf m) (ip.iBlock m)) h.nodup_fileBlocks
      (List.mem_range.mpr slotPath_slot) (List.mem_range.mpr slotPath_slot) hslot hmem' hmem).elim

section Written

variable (h : Owns fs ip others) (hoff : fs.Mapped off)
  (hgrown : SlotGrown fs ip others (fs.slotPath off).1 (fs.slotPath off).2 r fs' ip' news)
include h hoff hgrown

theorem SlotGrown.lookup_other (hne : x / fs.sb.blocksize ≠ off / fs.sb.blocksize) :
    fs'.lookup ip' x = fs.lookup ip x := by
  have hgeometry := hgrown.grown.geometry
  by_cases hx : fs.Mapped x
  · have hwalk := hgrown.walk_other h hoff hx hne
    rw [lookup_eq hx, lookup_eq (hgeometry.mapped_iff.mpr hx), hgeometry.slotPath, hwalk]
    split
    next => rfl
    next hwalk_ne =>
      have hleaf := h.leaf_not_mem_fileIndex slotPath_slot slotPath_length (slotPath_lt hx) hwalk_ne
      have hmem := walk_mem_nodes slotPath_length (slotPath_lt hx) hwalk_ne
      rw [hgrown.grown.data _ (List.mem_append_left _ (h.slot_allocated slotPath_slot hmem))
        fun hin => hleaf (List.mem_flatMap.mpr ⟨_, List.mem_range.mpr slotPath_slot, hin⟩)]
  · unfold lookup
    rw [if_neg hx, if_neg (mt hgeometry.mapped_iff.mp hx)]

/-- Without a free block nothing is there that was not there before. -/
theorem SlotGrown.lookup_full (hrun : fs.createBlock ip off = .ok (0, fs', ip')) (hr : r = 0)
    (x : ℕ) : fs'.lookup ip' x = fs.lookup ip x := by
  by_cases hx : x / fs.sb.blocksize = off / fs.sb.blocksize
  · have hmapped := (mapped_congr hx).mpr hoff
    have hgeometry := hgrown.grown.geometry
    have hnone : walk fs.pointer (ip.iBlock (fs.slotPath off).1) (fs.slotPath off).2 = 0 := by
      by_contra hne
      have hfound : fs.createBlock ip off = _ :=
        (bmapCreate_eq hoff).trans (bmapFrom_walk (slotPath_lt hoff) (Or.inr hne))
      exact hne (Prod.mk.inj (Except.ok.inj (hfound.symm.trans hrun))).1
    rw [lookup_eq hmapped, lookup_eq (hgeometry.mapped_iff.mpr hmapped), hgeometry.slotPath,
      slotPath_congr hx, hgrown.reached, hnone, if_pos hr, if_pos rfl]
  · exact hgrown.lookup_other h hoff hx

/-- Behind the data which is put into the block. -/
theorem SlotGrown.lookup_stored (hr : r ≠ 0) (data : Bytes) (x : ℕ) :
    (fs'.setBlock r data).lookup ip' x =
      if x / fs.sb.blocksize = off / fs.sb.blocksize then some data else fs.lookup ip x := by
  have hgeometry := hgrown.grown.geometry
  have hleaf := (hgrown.reached_leaf h hoff hr).2
  have hreached : walk fs'.pointer (ip'.iBlock (fs'.slotPath off).1) (fs'.slotPath off).2 = r := by
    rw [hgeometry.slotPath]
    exact hgrown.reached
  split
  next hx =>
    have hmapped := hgeometry.mapped_iff.mpr ((mapped_congr hx).mpr hoff)
    rw [← hgeometry.blocksize] at hx
    rw [lookup_setBlock hr hleaf data hmapped, slotPath_congr hx, if_pos hreached]
  next hx =>
    rw [← hgrown.lookup_other h hoff hx]
    by_cases hmapped : fs'.Mapped x
    · rw [lookup_setBlock hr hleaf data hmapped, if_neg]
      intro hsame
      apply hx
      have heq := (hgrown.owns h slotPath_slot).walk_injective hmapped
        (hgeometry.mapped_iff.mpr hoff) (hsame ▸ hr) (hsame.trans hreached.symm)
      rwa [hgeometry.blocksize] at heq
    · unfold lookup
      rw [if_neg hmapped, if_neg (mt (SameGeometry.setBlock fs' r data).mapped_iff.mp hmapped)]

end Written

end Fs

/-! ## What a call keeps -/

/-- A list of blocks without the part of one inode. -/
theorem flatMap_perm_eraseIdx {α β : Type*} {l : List α} {a : α} {i : ℕ} (h : l[i]? = some a)
    (f : α → List β) : (l.flatMap f).Perm (f a ++ (l.eraseIdx i).flatMap f) := by
  obtain ⟨hi, rfl⟩ := List.getElem?_eq_some_iff.mp h
  exact (List.getElem_cons_eraseIdx_perm hi).symm.flatMap_right f

namespace LiveFiles

open Fs

variable {s s' : LiveFiles} {fs : Fs} {ip ip' jp : InodeM} {i j r : ℕ}

theorem Sound.owns (hs : s.Sound) (hi : s.inodes[i]? = some ip) : Owns s.fs ip (s.others i) where
  held := by
    have hmem := List.mem_of_getElem? hi
    refine ⟨hs.use.perm ?_, hs.number ip hmem⟩
    rw [others, ← List.append_assoc]
    exact ((flatMap_perm_eraseIdx hi _).append_right _).symm
  tree := hs.tree ip (List.mem_of_getElem? hi)

theorem allocated_others (hj : s.inodes[j]? = some jp) (hne : j ≠ i) {c : ℕ}
    (hc : c ∈ jp.allocated) : c ∈ s.others i :=
  List.mem_append_left _ (List.mem_flatMap.mpr
    ⟨jp, List.mem_eraseIdx_iff_getElem?.mpr ⟨j, hne, hj⟩, hc⟩)

/-- The file `i` has changed, and the blocks of the others have not. -/
structure Replaced (s : LiveFiles) (i : ℕ) (fs : Fs) (ip : InodeM) : Prop where
  geometry : SameGeometry s.fs fs
  owns : Owns fs ip (s.others i)
  data : ∀ c ∈ s.others i, fs.blocks c = s.fs.blocks c

theorem Replaced.lookup_other (h : s.Replaced i fs ip') (hs : s.Sound)
    (hj : s.inodes[j]? = some jp) (hne : j ≠ i) (x : ℕ) : fs.lookup jp x = s.fs.lookup jp x :=
  (hs.owns hj).lookup_congr h.geometry (fun c hc => h.data c (allocated_others hj hne hc)) x

theorem Replaced.sound (h : s.Replaced i fs ip') (hs : s.Sound) (hi : s.inodes[i]? = some ip) :
    Sound ⟨fs, s.inodes.set i ip', s.loose⟩ := by
  obtain ⟨hlt, -⟩ := List.getElem?_eq_some_iff.mp hi
  have hself : (s.inodes.set i ip')[i]? = some ip' := List.getElem?_set_self hlt
  have hcases : ∀ jp ∈ s.inodes.set i ip', jp = ip' ∨ ∃ j ≠ i, s.inodes[j]? = some jp := by
    intro jp hjp
    obtain ⟨j, hj⟩ := List.mem_iff_getElem?.mp hjp
    by_cases hne : i = j
    · rw [← hne, hself] at hj
      exact Or.inl (Option.some.inj hj).symm
    · rw [List.getElem?_set_ne hne] at hj
      exact Or.inr ⟨j, Ne.symm hne, hj⟩
  constructor
  · have hperm := (flatMap_perm_eraseIdx hself InodeM.allocated).append_right s.loose
    rw [List.eraseIdx_set_eq, List.append_assoc] at hperm
    exact h.owns.held.use.perm hperm
  · intro jp hjp
    rcases hcases jp hjp with rfl | ⟨j, -, hj⟩
    · exact h.owns.held.number
    · have hnumber := hs.number jp (List.mem_of_getElem? hj)
      dsimp only
      rwa [h.geometry.sInodesCount]
  · intro jp hjp
    rcases hcases jp hjp with rfl | ⟨j, hne, hj⟩
    · exact h.owns.tree
    · have howns := hs.owns hj
      have hsame : fileBlocks fs jp = fileBlocks s.fs jp := by
        unfold fileBlocks
        rw [h.geometry.indirBlocks]
        refine List.flatMap_congr fun k hk => nodes_congr fun c hc _ _ => ?_
        unfold Fs.pointer
        rw [h.data c (allocated_others hj hne (howns.fileIndex_allocated
          (List.mem_flatMap.mpr ⟨k, hk, hc⟩)))]
      dsimp only
      rw [hsame]
      exact howns.tree
  · dsimp only
    rw [h.geometry.sb]
    exact hs.perGroup

theorem Replaced.contents (h : s.Replaced i fs ip') (hs : s.Sound) (hi : s.inodes[i]? = some ip)
    (x : ℕ) : LiveFiles.contents ⟨fs, s.inodes.set i ip', s.loose⟩ j x =
      if j = i then fs.lookup ip' x else s.contents j x := by
  obtain ⟨hlt, -⟩ := List.getElem?_eq_some_iff.mp hi
  unfold LiveFiles.contents
  dsimp only
  split
  next hj =>
    rw [hj, List.getElem?_set_self hlt]
    rfl
  next hj =>
    rw [List.getElem?_set_ne (Ne.symm hj)]
    cases hget : s.inodes[j]? with
    | none => rfl
    | some jp => exact h.lookup_other hs hget hj x

/-- What a call keeps, and what it does to the contents. -/
structure Kept (s : LiveFiles) (call : BlockCall) (r : ℕ) (s' : LiveFiles) : Prop where
  sound : s'.Sound
  geometry : SameGeometry s.fs s'.fs
  loose : s'.loose = s.loose
  data : ∀ c ∈ s.loose, s'.fs.blocks c = s.fs.blocks c
  contents : s'.contents = Contents.after s.fs.sb.blocksize s.contents (call, r)
  refused : call.Refused r s'.fs

theorem Replaced.kept {call : BlockCall} (h : s.Replaced i fs ip') (hs : s.Sound)
    (hi : s.inodes[i]? = some ip)
    (hcontents : ∀ j x, (if j = i then fs.lookup ip' x else s.contents j x) =
      Contents.after s.fs.sb.blocksize s.contents (call, r) j x) (hrefused : call.Refused r fs) :
    s.Kept call r ⟨fs, s.inodes.set i ip', s.loose⟩ where
  sound := h.sound hs hi
  geometry := h.geometry
  loose := rfl
  data c hc := h.data c (List.mem_append_right _ hc)
  contents := funext fun j => funext fun x => (h.contents hs hi x).trans (hcontents j x)
  refused := hrefused

theorem Sound.write (hs : s.Sound) (hi : s.inodes[i]? = some ip) {off : ℕ} (data : Bytes)
    (hoff : s.fs.Mapped off) (hwiped : s.fs.IndexWiped ip off) :
    ∃ r s', s.step (.write i off data) = .ok (r, s') ∧ s.Kept (.write i off data) r s' := by
  have howns := hs.owns hi
  obtain ⟨r, fs, ip', news, hrun, hgrown⟩ := howns.createBlock hoff hwiped
  have howns' := hgrown.owns howns slotPath_slot
  have hgeometry := hgrown.grown.geometry
  have hothers : ∀ c ∈ s.others i, fs.blocks c = s.fs.blocks c := by
    intro c hc
    apply hgrown.grown.data c (List.mem_append_right _ hc)
    intro hin
    have hindex : c ∈ fileIndex s.fs ip :=
      List.mem_flatMap.mpr ⟨_, List.mem_range.mpr slotPath_slot, hin⟩
    exact howns.not_mem_others (howns.fileIndex_allocated hindex) hc
  have hcontents : ∀ x, s.contents i x = s.fs.lookup ip x := by
    intro x
    unfold LiveFiles.contents
    rw [hi]
    rfl
  refine ⟨r, ⟨if r = 0 then fs else fs.setBlock r data, s.inodes.set i ip', s.loose⟩, ?_, ?_⟩
  · unfold LiveFiles.step
    dsimp only
    rw [hi]
    dsimp only
    rw [hrun, ok_bind]
  by_cases hr : r = 0
  · rw [if_pos hr]
    refine Replaced.kept ⟨hgeometry, howns', hothers⟩ hs hi (fun j x => ?_) hgrown.full
    have hkeep : Contents.after s.fs.sb.blocksize s.contents (.write i off data, r) j x =
        s.contents j x := if_neg fun h => h.1 hr
    rw [hkeep]
    split
    next hj =>
      rw [hj, hcontents]
      exact hgrown.lookup_full howns hoff (hr ▸ hrun) hr x
    next => rfl
  · rw [if_neg hr]
    obtain ⟨hown, hleaf⟩ := hgrown.reached_leaf howns hoff hr
    refine Replaced.kept ⟨hgeometry.trans (SameGeometry.setBlock fs r data), ?_, ?_⟩ hs hi
      (fun j x => ?_) fun h => (hr h).elim
    · exact howns'.setBlock data
        (fun g hg => howns'.held.owned_ne_bitmap (List.mem_append_left _ hown) hg) hleaf
    · intro c hc
      have hne : c ≠ r := fun heq => howns'.not_mem_others hown (heq ▸ hc)
      exact (Function.update_of_ne hne _ _).trans (hothers c hc)
    · unfold Contents.after
      dsimp only
      by_cases hj : j = i
      · rw [if_pos hj, hj, hcontents, hgrown.lookup_stored howns hoff hr]
        simp [hr]
      · rw [if_neg hj, if_neg fun h => hj h.2.1]

theorem Sound.trunc (hs : s.Sound) (hi : s.inodes[i]? = some ip)
    (hplaced : ∀ b ∈ ip.allocated, s.fs.Placed b) :
    ∃ r s', s.step (.trunc i) = .ok (r, s') ∧ s.Kept (.trunc i) r s' := by
  have howns := hs.owns hi
  obtain ⟨fs, hrun, huse, hfree, -⟩ := howns.itrunc hs.perGroup hplaced
  refine ⟨0, ⟨fs, s.inodes.set i { ip with
    iBlock := fun _ => 0, iBlocks := 0, iSize := 0, modified := true, allocated := [] },
    s.loose⟩, ?_, ?_⟩
  · unfold LiveFiles.step
    dsimp only
    rw [hi]
    dsimp only
    rw [hrun, ok_bind]
  refine Replaced.kept ⟨hfree.geometry, ⟨⟨huse, ?_⟩, ?_⟩, ?_⟩ hs hi (fun j x => ?_) trivial
  · rw [hfree.geometry.sInodesCount]
    exact howns.held.number
  · simp [fileBlocks]
  · intro c hc
    exact hfree.data c fun g hg => howns.held.owned_ne_bitmap (List.mem_append_right _ hc) hg
  · have hnone : fs.lookup { ip with
        iBlock := fun _ => 0, iBlocks := 0, iSize := 0, modified := true, allocated := [] } x =
          none := by
      by_cases hx : fs.Mapped x
      · rw [lookup_eq hx, walk_zero, if_pos rfl]
      · exact if_neg hx
    rw [hnone]
    rfl

theorem Sound.step {call : BlockCall} (hs : s.Sound) (hsafe : s.SafeStep call) :
    ∃ r s', s.step call = .ok (r, s') ∧ s.Kept call r s' := by
  cases call with
  | write i off data =>
      obtain ⟨ip, hi, hoff, hwiped⟩ := hsafe
      exact hs.write hi data hoff hwiped
  | trunc i =>
      obtain ⟨ip, hi, hplaced⟩ := hsafe
      exact hs.trunc hi hplaced

theorem run_cons {call : BlockCall} {calls : List BlockCall} (h : s.step call = .ok (r, s')) :
    s.run (call :: calls) = s'.run calls >>= fun t => .ok (r :: t.1, t.2) := by
  conv_lhs => unfold LiveFiles.run
  rw [h, ok_bind]

/-- In every run every call returns, what the files hold is what was put there last, by the results
of the calls, the blocks of the files which are not in memory hold what they held, and a call goes
without a block on a full volume only. -/
theorem contents_of_safeRun {calls : List BlockCall} (hs : s.Sound) (hsafe : s.SafeRun calls) :
    ∃ rs s', s.run calls = .ok (rs, s') ∧ s'.Sound ∧ rs.length = calls.length ∧
      s'.contents = (calls.zip rs).foldl (Contents.after s.fs.sb.blocksize) s.contents ∧
      (∀ c ∈ s.loose, s'.fs.blocks c = s.fs.blocks c) ∧ s.ServedRun calls := by
  induction calls generalizing s with
  | nil => exact ⟨[], s, rfl, hs, rfl, rfl, fun _ _ => rfl, trivial⟩
  | cons call calls ih =>
      obtain ⟨r, s₁, hstep, hkept⟩ := hs.step hsafe.1
      obtain ⟨rs, s', hrun, hs', hlen, hcontents, hdata, hserved⟩ :=
        ih hkept.sound (hsafe.2 r s₁ hstep)
      rw [hkept.geometry.blocksize, hkept.contents] at hcontents
      rw [hkept.loose] at hdata
      refine ⟨r :: rs, s', ?_, hs', congrArg Nat.succ hlen, hcontents, ?_, ?_⟩
      · rw [run_cons hstep, hrun, ok_bind]
      · exact fun c hc => (hdata c hc).trans (hkept.data c hc)
      · intro r' s₂ hstep'
        obtain ⟨rfl, rfl⟩ := Prod.mk.inj (Except.ok.inj (hstep.symm.trans hstep'))
        exact ⟨hkept.refused, hserved⟩

/-- Two new files on the volume. -/
def twoFiles : LiveFiles :=
  ⟨FileUse.mounted, [newFile 128 12 0x81A4 0, newFile 128 13 0x81A4 0], [8]⟩

theorem sound_twoFiles : twoFiles.Sound where
  use := FileUse.sound_mounted
  number := by decide
  tree := by
    intro ip hip
    simp only [twoFiles, List.mem_cons, List.not_mem_nil, or_false] at hip
    rcases hip with rfl | rfl <;> decide
  perGroup := by decide

def firstWrite : BlockCall := .write 0 0 fun _ => 0x41#8

def secondWrite : BlockCall := .write 1 0 fun _ => 0x42#8

theorem safeRun_twoFiles : twoFiles.SafeRun [firstWrite, secondWrite, .trunc 0] := by
  have hdirect : ∀ (fs : Fs) (ip : InodeM), fs.Mapped 0 ∧ fs.IndexWiped ip 0 := by
    intro fs ip
    have hblock : 0 / fs.sb.blocksize ≤ 11 := by simp
    exact ⟨Or.inl hblock, indexWiped_of_direct hblock⟩
  have hfirst : (twoFiles.run [firstWrite]).map (fun s => decide (1 < s.2.inodes.length)) =
      .ok true := by
    decide +kernel
  have hsecond : (twoFiles.run [firstWrite, secondWrite]).map (fun s => decide
      (0 < s.2.inodes.length ∧ ∀ ip ∈ s.2.inodes, ∀ b ∈ ip.allocated, s.2.fs.Placed b)) =
      .ok true := by
    decide +kernel
  refine ⟨⟨_, rfl, hdirect _ _⟩, fun r s₁ h₁ => ?_⟩
  rw [run_cons h₁] at hfirst hsecond
  have hlen : 1 < s₁.inodes.length := of_decide_eq_true (Except.ok.inj hfirst)
  refine ⟨⟨_, List.getElem?_eq_getElem hlen, hdirect _ _⟩, fun r' s₂ h₂ => ?_⟩
  rw [run_cons h₂] at hsecond
  obtain ⟨hlen, hplaced⟩ := of_decide_eq_true (Except.ok.inj hsecond)
  exact ⟨⟨_, List.getElem?_eq_getElem hlen, hplaced _ (List.getElem_mem hlen)⟩, fun _ _ _ => trivial⟩

/-- Two files are written, and the first is emptied. -/
theorem contents_of_safeRun_twoFiles : ∃ rs s',
    twoFiles.run [firstWrite, secondWrite, .trunc 0] = .ok (rs, s') ∧ s'.Sound ∧ rs.length = 3 ∧
      s'.contents = ([firstWrite, secondWrite, .trunc 0].zip rs).foldl (Contents.after 1024)
        twoFiles.contents ∧
      (∀ c ∈ [8], s'.fs.blocks c = FileUse.mounted.blocks c) ∧
      twoFiles.ServedRun [firstWrite, secondWrite, .trunc 0] :=
  contents_of_safeRun sound_twoFiles safeRun_twoFiles

end LiveFiles

end Yak.Ext2
