import Yak.BlockPaths

/-!
# Lookup after creation

What `ext2_create_block` has put into the block map, `ext2_bmap` finds there, except for the
blocks in the indirect range and what a new index block may be found to hold.  For these `bmap_create_indirect` returns 0 when it does not
create.
-/

namespace Yak.Ext2.Fs

open ByteBitmap WordMemory IndexTree

variable {fs fs' : Fs} {ip ip' : InodeM} {others news : List ℕ} {b d k off slot : ℕ} {ks : List ℕ}

/-- A byte offset is a nonnegative `off_t`. -/
def offLimit : ℕ := 2 ^ 31

/-- After `ext2_create_block` has returned `b`, the offset is found there, and the other
logical blocks are where they were. -/
structure LookupAgrees (fs : Fs) (ip : InodeM) (off b : ℕ) (fs' : Fs) (ip' : InodeM) : Prop where
  found : fs'.bmap ip' off = .ok (b, fs', ip')
  again : fs'.createBlock ip' off = .ok (b, fs', ip')
  others : ∀ off' < offLimit, off' / fs.sb.blocksize ≠ off / fs.sb.blocksize →
    (fs'.bmap ip' off').map Prod.fst = (fs.bmap ip off').map Prod.fst

/-- The logical block of the offset has its address in the indirect block. -/
def Indirect (fs : Fs) (off : ℕ) : Prop :=
  12 ≤ off / fs.sb.blocksize ∧ off / fs.sb.blocksize < fs.indirBlocks + 12

/-! ## Down without creating -/

/-- Where nothing is missing, or nothing is created, the way down is a walk. -/
theorem bmapLevels_walk {create : Bool} (hks : ∀ k ∈ ks, k < fs.indirBlocks)
    (h : create = false ∨ walk fs.pointer b ks ≠ 0) :
    fs.bmapLevels ip create b ks = .ok (walk fs.pointer b ks, fs, ip) := by
  induction ks generalizing b with
  | nil => rfl
  | cons k ks ih =>
      by_cases hb : b = 0
      · rw [hb, bmapLevels_zero, walk_zero]
      · rw [walk_cons hb] at h ⊢
        have hlt := hks k List.mem_cons_self
        rw [← ih (fun j hj => hks j (List.mem_cons_of_mem k hj)) h]
        rw [Fs.bmapLevels, if_neg hb, if_neg (Nat.not_le.mpr hlt), if_neg]
        rintro ⟨hcreate, hzero⟩
        rcases h with hfalse | hwalk
        · exact absurd (hcreate.symm.trans hfalse) (by decide)
        · rw [hzero, walk_zero] at hwalk
          exact hwalk rfl

theorem bmapFrom_walk {create : Bool} (hks : ∀ k ∈ ks, k < fs.indirBlocks)
    (h : create = false ∨ walk fs.pointer (ip.iBlock slot) ks ≠ 0) :
    fs.bmapFrom ip create slot ks = .ok (walk fs.pointer (ip.iBlock slot) ks, fs, ip) := by
  have hnot : ¬(create = true ∧ ip.iBlock slot = 0) := by
    rintro ⟨hcreate, hzero⟩
    rcases h with hfalse | hwalk
    · exact absurd (hcreate.symm.trans hfalse) (by decide)
    · rw [hzero, walk_zero] at hwalk
      exact hwalk rfl
  rw [Fs.bmapFrom, if_neg hnot, bmapLevels_walk hks h]

theorem bmap_of_mapped (h : fs.Mapped off) :
    fs.bmap ip off =
      .ok (walk fs.pointer (ip.iBlock (fs.slotPath off).1) (fs.slotPath off).2, fs, ip) := by
  unfold Fs.bmap
  rw [bmapCreate_eq h]
  exact bmapFrom_walk (slotPath_lt h) (Or.inl rfl)

theorem bmap_of_indirect (h : fs.Indirect off) : fs.bmap ip off = .ok (0, fs, ip) := by
  have hnot : ¬(false = true ∧ ip.iBlock InodeM.indirectBlock = 0) := by simp
  unfold Fs.bmap bmapCreate
  dsimp only
  rw [if_neg (by have := h.1; omega), if_pos h.2, bmapCreateIndirect]
  rw [if_neg hnot, ok_bind]
  dsimp only
  split
  next => rfl
  next => exact if_neg Bool.false_ne_true

/-! ## Allocation leaves the size of a block alone -/

theorem ballocBgd_blocksize {g : ℕ} (h : fs.ballocBgd g = .ok (b, fs')) :
    fs'.sb.blocksize = fs.sb.blocksize := by
  unfold ballocBgd at h
  split at h
  next => rw [← (Prod.mk.inj (Except.ok.inj h)).2]
  next =>
    split at h
    next => cases h
    next =>
      rw [← (Prod.mk.inj (Except.ok.inj h)).2]
      rfl

theorem ballocOthers_blocksize {skip : ℕ} {gs : List ℕ}
    (h : fs.ballocOthers skip gs = .ok (b, fs')) :
    fs'.sb.blocksize = fs.sb.blocksize := by
  induction gs generalizing fs with
  | nil => rw [← (Prod.mk.inj (Except.ok.inj h)).2]
  | cons g gs ih =>
      rw [Fs.ballocOthers] at h
      split at h
      next => exact ih h
      next =>
        obtain ⟨⟨block, fs₁⟩, hfirst, hrest⟩ := bind_eq_ok.mp h
        have hsame := ballocBgd_blocksize hfirst
        dsimp only at hrest
        split at hrest
        next =>
          rw [← (Prod.mk.inj (Except.ok.inj hrest)).2]
          exact hsame
        next => exact (ih hrest).trans hsame

theorem ballocGroups_blocksize {num : ℕ} (h : fs.ballocGroups num = .ok (b, fs')) :
    fs'.sb.blocksize = fs.sb.blocksize := by
  unfold ballocGroups at h
  split at h
  next => rw [← (Prod.mk.inj (Except.ok.inj h)).2]
  next =>
    split at h
    next => cases h
    next =>
      obtain ⟨⟨block, fs₁⟩, hfirst, hrest⟩ := bind_eq_ok.mp h
      have hsame := ballocBgd_blocksize hfirst
      dsimp only at hrest
      split at hrest
      next =>
        rw [← (Prod.mk.inj (Except.ok.inj hrest)).2]
        exact hsame
      next => exact (ballocOthers_blocksize hrest).trans hsame

theorem ballocFor_blocksize (h : fs.ballocFor ip = .ok (b, fs', ip')) :
    fs'.sb.blocksize = fs.sb.blocksize := by
  unfold ballocFor balloc at h
  obtain ⟨⟨_, fs₁, _⟩, hballoc, hrest⟩ := bind_eq_ok.mp h
  obtain ⟨⟨_, fs₂⟩, hgroups, hzeroed⟩ := bind_eq_ok.mp hballoc
  obtain ⟨-, rfl, -⟩ := Except.ok.inj hrest
  obtain ⟨-, rfl, -⟩ := Except.ok.inj hzeroed
  have hsame : fs₂.sb.blocksize = fs.sb.blocksize := ballocGroups_blocksize hgroups
  exact hsame

theorem indirBlocks_congr (h : fs'.sb.blocksize = fs.sb.blocksize) :
    fs'.indirBlocks = fs.indirBlocks := by
  unfold Fs.indirBlocks
  rw [h]

/-- A block is reached only through indices in bounds. -/
theorem bmapLevels_bounds {create : Bool} {r : ℕ × Fs × InodeM}
    (h : fs.bmapLevels ip create b ks = .ok r) (hr : r.1 ≠ 0) : ∀ k ∈ ks, k < fs.indirBlocks := by
  induction ks generalizing fs ip b with
  | nil => exact fun k hk => (List.not_mem_nil hk).elim
  | cons k ks ih =>
      rw [Fs.bmapLevels] at h
      split at h
      next =>
        rw [← Except.ok.inj h] at hr
        exact (hr rfl).elim
      next =>
        split at h
        next => cases h
        next hk =>
          rw [List.forall_mem_cons]
          refine ⟨Nat.not_le.mp hk, ?_⟩
          split at h
          next =>
            obtain ⟨⟨new, fs₁, ip₁⟩, hballoc, hrest⟩ := bind_eq_ok.mp h
            rw [← indirBlocks_congr (ballocFor_blocksize hballoc)]
            have hbelow := ih hrest
            exact hbelow
          next => exact ih h

theorem bmapFrom_bounds {create : Bool} {r : ℕ × Fs × InodeM}
    (h : fs.bmapFrom ip create slot ks = .ok r) (hr : r.1 ≠ 0) : ∀ k ∈ ks, k < fs.indirBlocks := by
  unfold bmapFrom at h
  split at h
  next =>
    obtain ⟨⟨new, fs₁, ip₁⟩, hballoc, hrest⟩ := bind_eq_ok.mp h
    rw [← indirBlocks_congr (ballocFor_blocksize hballoc)]
    exact bmapLevels_bounds hrest hr
  next => exact bmapLevels_bounds h hr

/-- `bmap_create` comes to a block only in the indirect range or where the walk is in bounds. -/
theorem mapped_of_bmapCreate {create : Bool} (h : fs.bmapCreate ip off create = .ok (b, fs', ip'))
    (hb : b ≠ 0) (hnot : ¬fs.Indirect off) : fs.Mapped off := by
  cases hpath : fs.tablePath (off / fs.sb.blocksize) with
  | error e => exact (hb (bmapCreate_of_error hpath h)).elim
  | ok path =>
      have hbounds : off / fs.sb.blocksize < 12 + fs.indirBlocks + 2 * fs.dindirBlocks := by
        rw [← inBounds_iff hpath]
        rcases tablePath_cases hpath with ⟨-, rfl⟩ | ⟨hge, hlt, -⟩ | ⟨-, -, rfl⟩ | ⟨-, -, htin⟩
        · exact fun k hk => (List.not_mem_nil hk).elim
        · exact (hnot ⟨hge, hlt⟩).elim
        · rw [bmapCreate_of_tablePath hpath (by decide)] at h
          exact bmapFrom_bounds h hb
        · obtain rfl := tindirectPath_eq htin
          rw [bmapCreate_of_tablePath hpath (by decide)] at h
          exact bmapFrom_bounds h hb
      unfold Indirect at hnot
      unfold Mapped
      dsimp only
      omega

/-! ## The other entries of the first index block -/

/-- Creating below one entry of a block leaves the other entries as they are. -/
theorem Held.bmapLevels_entry {r j : ℕ} (h : Held fs ip others)
    (hks : ∀ i ∈ k :: ks, i < fs.indirBlocks) (hb : b ≠ 0)
    (hnodup : (nodes fs.pointer fs.indirBlocks (ks.length + 1) b).Nodup)
    (hsub : ∀ c ∈ nodes fs.pointer fs.indirBlocks (ks.length + 1) b, c ∈ ip.allocated)
    (hwiped : fs.Wiped (fs.missingBelow b (k :: ks) - 1))
    (hrun : fs.bmapLevels ip true b (k :: ks) = .ok (r, fs', ip')) (hj : j ≠ k) :
    fs'.pointer b j = fs.pointer b j := by
  obtain ⟨hk, hrest⟩ := List.forall_mem_cons.mp hks
  have hown := hsub b (self_mem_nodes hb)
  by_cases hp : fs.pointer b k = 0
  · rw [missingBelow, if_pos hp, Nat.add_sub_cancel] at hwiped
    obtain ⟨new, fs₁, ip₁, hballoc, hgrown, _, _, hrestWiped, _, hzero⟩ := h.ballocWiped hwiped
    have hown₁ : b ∈ ip₁.allocated := by
      rw [hgrown.allocated]
      exact List.mem_append_right _ hown
    have hset := Grown.setPointer hgrown.held hown₁ k new
    have hsame : (fs₁.setPointer b k new).pointer b j = fs.pointer b j := by
      rw [pointer_setPointer_of_ne hj]
      exact hgrown.pointer (List.mem_append_left _ hown) List.not_mem_nil j
    rw [bmapLevels_missing hb hk hp hballoc] at hrun
    by_cases hnew : new = 0
    · subst hnew
      rw [bmapLevels_zero] at hrun
      obtain ⟨-, rfl, -⟩ := Except.ok.inj hrun
      exact hsame
    · rw [if_neg hnew] at hgrown
      have hfresh := hgrown.fresh (List.mem_singleton_self new)
      have hbnew : b ≠ new := fun heq => hfresh (heq ▸ List.mem_append_left _ hown)
      have hblock₂ : (fs₁.setPointer b k new).blocks new = fs₁.blocks new :=
        Function.update_of_ne hbnew.symm _ _
      have hzero₂ : ks.length ≠ 0 → (fs₁.setPointer b k new).blocks new = fun _ => 0#8 :=
        fun hne => hblock₂.trans (hzero hne)
      have hwiped₂ : (fs₁.setPointer b k new).Wiped (ks.length - 1) := hrestWiped
      have hnodes := nodes_of_zeroed (d := ks.length)
        (n := (fs₁.setPointer b k new).indirBlocks) hnew hzero₂
      have hindir := (hgrown.geometry.trans hset.geometry).indirBlocks
      obtain ⟨r', fs₂, ip₂, news, hrun', htree⟩ := hset.held.bmapLevels rfl
        (by rw [hindir]; exact hrest) (hwiped₂.missingBelow new) hnew (by rw [hnodes]; exact List.nodup_singleton new)
        (by
          rw [hnodes, hgrown.allocated]
          intro c hc
          exact List.mem_append_left _ hc)
      obtain ⟨-, rfl, -⟩ := Except.ok.inj (hrun'.symm.trans hrun)
      rw [htree.grown.pointer (List.mem_append_left _ hown₁)
        (fun hin => hbnew (index_of_zeroed hnew hzero₂ b hin)) j, hsame]
  · rw [missingBelow, if_neg hp] at hwiped
    obtain ⟨r', fs₂, ip₂, news, hrun', htree⟩ := h.bmapLevels rfl hrest hwiped hp
      (nodup_child hb hk hnodup) fun c hc => hsub c (child_mem_nodes hb hk hc)
    rw [bmapLevels_present hb hk hp] at hrun
    obtain ⟨-, rfl, -⟩ := Except.ok.inj (hrun'.symm.trans hrun)
    exact htree.grown.pointer (List.mem_append_left _ hown)
      (fun hin => ne_of_mem_child hb hk hnodup (index_subset hin) rfl) j

theorem Held.bmapFrom_entry {r j : ℕ} (h : Held fs ip others)
    (hks : ∀ i ∈ k :: ks, i < fs.indirBlocks)
    (hnodup : (nodes fs.pointer fs.indirBlocks (ks.length + 1) (ip.iBlock slot)).Nodup)
    (hsub : ∀ c ∈ nodes fs.pointer fs.indirBlocks (ks.length + 1) (ip.iBlock slot),
      c ∈ ip.allocated)
    (hwiped : fs.Wiped (fs.missing ip slot (k :: ks) - 1))
    (hrun : fs.bmapFrom ip true slot (k :: ks) = .ok (r, fs', ip')) (hj : j ≠ k) :
    walk fs'.pointer (ip'.iBlock slot) [j] = walk fs.pointer (ip.iBlock slot) [j] := by
  unfold missing at hwiped
  by_cases hb : ip.iBlock slot = 0
  · rw [if_pos hb, Nat.add_sub_cancel] at hwiped
    rw [hb, walk_zero]
    obtain ⟨new, fs₁, ip₁, hballoc, hgrown, _, _, hwiped₁, _, hzero⟩ := h.ballocWiped hwiped
    rw [bmapFrom_missing hb hballoc] at hrun
    by_cases hnew : new = 0
    · subst hnew
      rw [bmapLevels_zero] at hrun
      obtain ⟨-, -, rfl⟩ := Except.ok.inj hrun
      rw [setBlock_iBlock_self, walk_zero]
    · rw [if_neg hnew] at hgrown
      have hnodes := nodes_of_zeroed (d := ks.length + 1) (n := fs₁.indirBlocks) hnew hzero
      have hheld := (hgrown.setBlock slot new).held
      have hbounds : ∀ i ∈ k :: ks, i < fs₁.indirBlocks := by
        rw [hgrown.geometry.indirBlocks]
        exact hks
      have hone : (nodes fs₁.pointer fs₁.indirBlocks (ks.length + 1) new).Nodup := by
        rw [hnodes]
        exact List.nodup_singleton new
      have hall : ∀ c ∈ nodes fs₁.pointer fs₁.indirBlocks (ks.length + 1) new,
          c ∈ (ip₁.setBlock slot new).allocated := by
        rw [hnodes, (hgrown.setBlock slot new).allocated]
        exact fun c hc => List.mem_append_left _ hc
      have hbelow := hwiped₁.missingBelow new
      have hentry := hheld.bmapLevels_entry hbounds hnew hone hall hbelow hrun hj
      obtain ⟨r', fs₂, ip₂, news, hrun', htree⟩ :=
        hheld.bmapLevels rfl hbounds hbelow hnew hone hall
      obtain ⟨-, rfl, rfl⟩ := Except.ok.inj (hrun'.symm.trans hrun)
      have hempty : walk fs₁.pointer new [j] = 0 :=
        walk_of_zeroed (hzero (Nat.succ_ne_zero _)) (List.cons_ne_nil j [])
      rw [walk_cons hnew] at hempty
      rw [htree.iBlock, setBlock_iBlock_self, walk_cons hnew, hentry]
      exact hempty
  · rw [if_neg hb] at hwiped
    rw [bmapFrom_present hb] at hrun
    have hentry := h.bmapLevels_entry hks hb hnodup hsub hwiped hrun hj
    obtain ⟨r', fs₂, ip₂, news, hrun', htree⟩ := h.bmapLevels rfl hks hwiped hb hnodup hsub
    obtain ⟨-, rfl, rfl⟩ := Except.ok.inj (hrun'.symm.trans hrun)
    rw [htree.iBlock, walk_cons hb, walk_cons hb, hentry]
    rfl

/-! ## Lookup of the other logical blocks -/

theorem tablePath_of_mapped (h : fs.Mapped off) :
    fs.tablePath (off / fs.sb.blocksize) = .ok ((fs.slotPath off).1 :: (fs.slotPath off).2) := by
  unfold Mapped at h
  unfold slotPath
  dsimp only at h ⊢
  by_cases hdirect : off / fs.sb.blocksize ≤ 11
  · rw [if_pos hdirect, tablePath_direct hdirect]
  · rw [if_neg hdirect]
    by_cases hdindir : off / fs.sb.blocksize < fs.dindirBlocks + fs.indirBlocks + 12
    · rw [if_pos hdindir, tablePath_dindirect (by omega) hdindir]
      rfl
    · rw [if_neg hdindir, tablePath_tindirect (by omega)]
      exact if_neg (by omega)

/-- Behind the reach of three index blocks the way down ends at the second one. -/
theorem bmapLevels_beyond {i j : ℕ} (hi : i < fs.indirBlocks) (hj : fs.indirBlocks ≤ j) :
    (fs.bmapLevels ip false b (i :: j :: ks)).map Prod.fst =
      if walk fs.pointer b [i] = 0 then .ok 0 else .error .outOfBounds := by
  by_cases hb : b = 0
  · rw [hb, bmapLevels_zero, walk_zero, if_pos rfl]
    rfl
  · rw [walk_cons hb, Fs.bmapLevels, if_neg hb, if_neg (Nat.not_le.mpr hi),
      if_neg fun hboth => Bool.false_ne_true hboth.1, Fs.bmapLevels]
    by_cases hp : fs.pointer b i = 0
    · rw [if_pos hp]
      exact (if_pos hp).symm
    · rw [if_neg hp, if_pos hj]
      exact (if_neg hp).symm

/-- What the lookup behind the reach of the block map depends on: the triply indirect block
and its entry. -/
def beyond (fs : Fs) (ip : InodeM) (off : ℕ) : Except Halt ℕ :=
  let l := off / fs.sb.blocksize - (12 + fs.indirBlocks + fs.dindirBlocks)
  if fs.dindirBlocks = 0 then
    if ip.iBlock InodeM.tindirectBlock = 0 then .ok 0 else .error .divideByZero
  else if walk fs.pointer (ip.iBlock InodeM.tindirectBlock) [l / fs.dindirBlocks] = 0 then .ok 0
  else .error .outOfBounds

/-- The first of three indices is in bounds for every offset. -/
theorem first_index_lt (hne : fs.dindirBlocks ≠ 0) (hoff : off < offLimit) :
    (off / fs.sb.blocksize - (12 + fs.indirBlocks + fs.dindirBlocks)) / fs.dindirBlocks <
      fs.indirBlocks := by
  obtain ⟨hsquare, hpos⟩ := tindirect_square hne
  have hsize : 1024 ≤ fs.sb.blocksize := by
    apply Superblock.blocksize_ge
    intro hzero
    rw [indirBlocks, hzero] at hpos
    exact Nat.lt_irrefl 0 hpos
  have hn : 256 ≤ fs.indirBlocks := by
    unfold indirBlocks
    omega
  have hlblk : off / fs.sb.blocksize < 2 ^ 21 := by
    apply (Nat.div_lt_iff_lt_mul (by omega)).mpr
    unfold offLimit at hoff
    omega
  have hcube : 2 ^ 21 ≤ fs.indirBlocks * fs.dindirBlocks := by
    rw [hsquare]
    exact le_trans (by norm_num) (Nat.mul_le_mul hn (Nat.mul_le_mul hn hn))
  apply (Nat.div_lt_iff_lt_mul (Nat.pos_of_ne_zero hne)).mpr
  omega

theorem bmap_of_beyond (hmapped : ¬fs.Mapped off) (hindir : ¬fs.Indirect off)
    (hoff : off < offLimit) : (fs.bmap ip off).map Prod.fst = fs.beyond ip off := by
  unfold Mapped at hmapped
  unfold Indirect at hindir
  dsimp only at hmapped
  unfold Fs.bmap bmapCreate beyond
  dsimp only
  rw [if_neg (by omega), if_neg (by omega), if_neg (by omega), bmapCreateTindirect]
  dsimp only
  by_cases hzero : fs.dindirBlocks = 0
  · have hroot : fs.bmapFrom ip false InodeM.tindirectBlock [] =
        .ok (ip.iBlock InodeM.tindirectBlock, fs, ip) :=
      bmapFrom_walk (fun k hk => (List.not_mem_nil hk).elim) (Or.inl rfl)
    rw [if_pos hzero, if_pos hzero, hroot, ok_bind]
    by_cases hb : ip.iBlock InodeM.tindirectBlock = 0
    · rw [if_pos hb, if_pos hb]
      rfl
    · rw [if_neg hb, if_neg hb]
      rfl
  · obtain ⟨hsquare, hpos⟩ := tindirect_square hzero
    rw [if_neg hzero, if_neg hzero, Fs.bmapFrom,
      if_neg fun hboth => Bool.false_ne_true hboth.1]
    apply bmapLevels_beyond (first_index_lt hzero hoff)
    apply (Nat.le_div_iff_mul_le hpos).mpr
    omega

/-! ## What creation leaves alone -/

theorem slotPath_tindirect (h : fs.Mapped off)
    (hslot : (fs.slotPath off).1 = InodeM.tindirectBlock) :
    fs.dindirBlocks ≠ 0 ∧ ∃ ks, (fs.slotPath off).2 = 0 :: ks := by
  unfold Mapped at h
  unfold slotPath at hslot ⊢
  dsimp only at h hslot ⊢
  split at hslot
  next hdirect =>
    unfold InodeM.tindirectBlock at hslot
    dsimp only at hslot
    omega
  next hdirect =>
    split at hslot
    next => cases hslot
    next hdindir =>
      have hl := (h.resolve_left hdirect).2.resolve_left hdindir
      rw [if_neg hdirect, if_neg hdindir, Nat.div_eq_of_lt hl]
      exact ⟨Nat.ne_zero_of_lt hl, _, rfl⟩

theorem SameGeometry.dindirBlocks (h : SameGeometry fs fs') :
    fs'.dindirBlocks = fs.dindirBlocks := by
  unfold Fs.dindirBlocks
  rw [h.indirBlocks]

theorem SameGeometry.mapped_iff (h : SameGeometry fs fs') : fs'.Mapped off ↔ fs.Mapped off := by
  unfold Mapped
  rw [h.blocksize, h.indirBlocks, h.dindirBlocks]

theorem SameGeometry.indirect_iff (h : SameGeometry fs fs') :
    fs'.Indirect off ↔ fs.Indirect off := by
  unfold Indirect
  rw [h.blocksize, h.indirBlocks]

theorem SameGeometry.slotPath (h : SameGeometry fs fs') : fs'.slotPath off = fs.slotPath off := by
  unfold Fs.slotPath
  rw [h.blocksize, h.indirBlocks, h.dindirBlocks]

section Created

variable {off' r : ℕ} (h : Owns fs ip others) (hoff : fs.Mapped off)
  (hgrown : SlotGrown fs ip others (fs.slotPath off).1 (fs.slotPath off).2 r fs' ip' news)
include h hoff hgrown

theorem SlotGrown.walk_other (hoff' : fs.Mapped off')
    (hne : off' / fs.sb.blocksize ≠ off / fs.sb.blocksize) :
    walk fs'.pointer (ip'.iBlock (fs.slotPath off').1) (fs.slotPath off').2 =
      walk fs.pointer (ip.iBlock (fs.slotPath off').1) (fs.slotPath off').2 := by
  have hlen : (fs.slotPath off').2.length = levelsOf (fs.slotPath off').1 := slotPath_length
  have hlt := slotPath_lt hoff'
  by_cases hslot : (fs.slotPath off').1 = (fs.slotPath off).1
  · rw [hslot] at hlen ⊢
    apply hgrown.elsewhere _ hlen hlt
    intro hpath
    apply hne
    apply tablePath_injective (tablePath_of_mapped hoff')
    rw [tablePath_of_mapped hoff, hslot, hpath]
  · rw [hgrown.iBlock _ hslot]
    exact walk_congr hlen hlt (hgrown.other_slot h slotPath_slot slotPath_slot hslot)

/-- The entries of the triply indirect block stay as they are, but for the first one. -/
theorem SlotGrown.walk_entry {i : ℕ} (hi : i < fs.indirBlocks) (hpos : i ≠ 0)
    (hwiped : fs.IndexWiped ip off)
    (hrun : fs.bmapFrom ip true (fs.slotPath off).1 (fs.slotPath off).2 = .ok (r, fs', ip')) :
    walk fs'.pointer (ip'.iBlock InodeM.tindirectBlock) [i] =
      walk fs.pointer (ip.iBlock InodeM.tindirectBlock) [i] := by
  have hslot14 : InodeM.tindirectBlock < 15 := by decide
  by_cases hslot : (fs.slotPath off).1 = InodeM.tindirectBlock
  · obtain ⟨hne, ks, hks⟩ := slotPath_tindirect hoff hslot
    have hlen : (fs.slotPath off).2.length = levelsOf (fs.slotPath off).1 := slotPath_length
    have hlt := slotPath_lt hoff
    have hnodup := h.nodup_slot hslot14
    rw [hks, hslot, List.length_cons] at hlen
    rw [hslot, hks] at hrun
    rw [hks] at hlt
    rw [← hlen] at hnodup
    unfold IndexWiped at hwiped
    rw [hslot, hks] at hwiped
    refine h.held.bmapFrom_entry hlt hnodup ?_ hwiped hrun hpos
    rw [hlen]
    exact fun c hc => h.slot_allocated hslot14 hc
  · rw [hgrown.iBlock _ (Ne.symm hslot)]
    by_cases hroot : ip.iBlock InodeM.tindirectBlock = 0
    · rw [hroot, walk_zero, walk_zero]
    · rw [walk_cons hroot, walk_cons hroot]
      exact hgrown.other_slot h slotPath_slot hslot14 (Ne.symm hslot) _ (self_mem_index hroot) i hi

/-- The lookup behind the reach of the block map goes as it did. -/
theorem SlotGrown.beyond_eq (hwiped : fs.IndexWiped ip off) (hrun : fs.bmapFrom ip true (fs.slotPath off).1 (fs.slotPath off).2 =
      .ok (r, fs', ip')) (hmapped : ¬fs.Mapped off') (hindir : ¬fs.Indirect off')
    (hlimit : off' < offLimit) : fs'.beyond ip' off' = fs.beyond ip off' := by
  have hgeometry := hgrown.grown.geometry
  unfold beyond
  rw [hgeometry.blocksize, hgeometry.indirBlocks, hgeometry.dindirBlocks]
  dsimp only
  by_cases hzero : fs.dindirBlocks = 0
  · have hslot : (fs.slotPath off).1 ≠ InodeM.tindirectBlock :=
      fun hslot => (slotPath_tindirect hoff hslot).1 hzero
    rw [if_pos hzero, if_pos hzero, hgrown.iBlock _ (Ne.symm hslot)]
  · rw [if_neg hzero, if_neg hzero]
    unfold Mapped at hmapped
    unfold Indirect at hindir
    dsimp only at hmapped
    rw [hgrown.walk_entry h hoff (first_index_lt hzero hlimit) ?_ hwiped hrun]
    apply Nat.ne_of_gt
    apply Nat.div_pos _ (Nat.pos_of_ne_zero hzero)
    omega

end Created

/-- What `ext2_create_block` has put outside of the indirect range is found. -/
theorem Owns.lookupAgrees (h : Owns fs ip others) (hoff : fs.Mapped off)
    (hwiped : fs.IndexWiped ip off)
    (hcreate : fs.createBlock ip off = .ok (b, fs', ip')) (hb : b ≠ 0) :
    LookupAgrees fs ip off b fs' ip' := by
  obtain ⟨r, fs₁, ip₁, news, hrun, hgrown⟩ := h.createBlock hoff hwiped
  obtain ⟨rfl, rfl, rfl⟩ := Except.ok.inj (hrun.symm.trans hcreate)
  have hgeometry := hgrown.grown.geometry
  have hmapped : fs'.Mapped off := hgeometry.mapped_iff.mpr hoff
  have hreached : walk fs'.pointer (ip'.iBlock (fs'.slotPath off).1) (fs'.slotPath off).2 = b := by
    rw [hgeometry.slotPath]
    exact hgrown.reached
  constructor
  · rw [bmap_of_mapped hmapped, hreached]
  · unfold Fs.createBlock
    rw [bmapCreate_eq hmapped, bmapFrom_walk (slotPath_lt hmapped), hreached]
    rw [hreached]
    exact Or.inr hb
  · intro off' hlimit hne
    by_cases hoff' : fs.Mapped off'
    · rw [bmap_of_mapped hoff', bmap_of_mapped (hgeometry.mapped_iff.mpr hoff'),
        hgeometry.slotPath, hgrown.walk_other h hoff hoff' hne]
      rfl
    · by_cases hindir : fs.Indirect off'
      · rw [bmap_of_indirect hindir, bmap_of_indirect (hgeometry.indirect_iff.mpr hindir)]
        rfl
      · rw [bmap_of_beyond hoff' hindir hlimit, bmap_of_beyond (mt hgeometry.mapped_iff.mp hoff')
          (mt hgeometry.indirect_iff.mp hindir) hlimit]
        unfold Fs.createBlock at hrun
        rw [bmapCreate_eq hoff] at hrun
        exact hgrown.beyond_eq h hoff hwiped hrun hoff' hindir hlimit

/-- The second half of `bmap_create_indirect`, with the indirect block at hand. -/
theorem indirectEntry_blocksize {root : ℕ}
    (h : (if root = 0 then .ok (0, fs, ip)
      else if charAddr (fs.blocks root k) = 0 then do
        let (new, fs, ip) ← fs.ballocFor ip
        let c := BitVec.ofNat 8 new
        .ok (charAddr c, fs.setBlock root (Function.update (fs.blocks root) k c), ip)
      else .ok (charAddr (fs.blocks root k), fs, ip)) = (.ok (b, fs', ip') : Except Halt _)) :
    fs'.sb.blocksize = fs.sb.blocksize := by
  split at h
  next =>
    obtain ⟨-, rfl, -⟩ := Except.ok.inj h
    rfl
  next =>
    split at h
    next =>
      obtain ⟨⟨new, fs₁, ip₁⟩, hballoc, hset⟩ := bind_eq_ok.mp h
      obtain ⟨-, rfl, -⟩ := Except.ok.inj hset
      have hsame : fs₁.sb.blocksize = fs.sb.blocksize := ballocFor_blocksize hballoc
      exact hsame
    next =>
      obtain ⟨-, rfl, -⟩ := Except.ok.inj h
      rfl

theorem bmapCreateIndirect_blocksize {lblk : ℕ}
    (h : fs.bmapCreateIndirect ip lblk true = .ok (b, fs', ip')) :
    fs'.sb.blocksize = fs.sb.blocksize := by
  unfold bmapCreateIndirect at h
  dsimp only at h
  split at h
  next =>
    obtain ⟨⟨new, fs₁, ip₁⟩, hballoc, hrest⟩ := bind_eq_ok.mp h
    exact (indirectEntry_blocksize hrest).trans (ballocFor_blocksize hballoc)
  next => exact indirectEntry_blocksize h

/-- Outside of the indirect range the lookup agrees with the creation of a block, if the index blocks
which are added are found as zeros; in the indirect range it never does. -/
theorem lookupAgrees_iff (h : Owns fs ip others)
    (hcreate : fs.createBlock ip off = .ok (b, fs', ip')) (hb : b ≠ 0) :
    (¬fs.Indirect off → fs.IndexWiped ip off → LookupAgrees fs ip off b fs' ip') ∧
      (LookupAgrees fs ip off b fs' ip' → ¬fs.Indirect off) := by
  constructor
  · intro hnot hwiped
    exact h.lookupAgrees (mapped_of_bmapCreate hcreate hb hnot) hwiped hcreate hb
  · intro hagrees hindir
    have hrun := hcreate
    unfold Fs.createBlock at hrun
    rw [bmapCreate_of_indirectPath (tablePath_indirect hindir.1 hindir.2)] at hrun
    have hsize := bmapCreateIndirect_blocksize hrun
    have hindir' : fs'.Indirect off := by
      unfold Indirect
      rw [indirBlocks_congr hsize, hsize]
      exact hindir
    have hfound := (bmap_of_indirect hindir').symm.trans hagrees.found
    exact hb (Prod.mk.inj (Except.ok.inj hfound)).1.symm

/-- An empty regular file. -/
def emptyFile : InodeM := newFile 128 9 0x81A4 0

theorem owns_emptyFile : Owns BlockUse.twoGroups.fs emptyFile [4] where
  held := ⟨BlockUse.sound_twoGroups, by decide⟩
  tree := by simp [fileBlocks, emptyFile, newFile]

/-- The first block of the file. -/
theorem lookupAgrees_iff_first : ∃ b fs' ip',
    BlockUse.twoGroups.fs.createBlock emptyFile 0 = .ok (b, fs', ip') ∧
      LookupAgrees BlockUse.twoGroups.fs emptyFile 0 b fs' ip' :=
  ⟨_, _, _, rfl, (lookupAgrees_iff owns_emptyFile rfl (by decide +kernel)).1
    (fun h => absurd h.1 (by decide)) (indexWiped_of_direct (by decide))⟩

/-- The thirteenth one is not found. -/
theorem not_lookupAgrees_indirect :
    ¬∀ (fs : Fs) (ip : InodeM) (others : List ℕ) (off b : ℕ) (fs' : Fs) (ip' : InodeM),
      Owns fs ip others → off < offLimit → fs.createBlock ip off = .ok (b, fs', ip') → b ≠ 0 →
        LookupAgrees fs ip off b fs' ip' := by
  intro hall
  obtain ⟨b, fs', ip', hcreate⟩ : ∃ b fs' ip',
    BlockUse.twoGroups.fs.createBlock emptyFile 12288 = .ok (b, fs', ip') := ⟨_, _, _, rfl⟩
  have hnew : (BlockUse.twoGroups.fs.createBlock emptyFile 12288).map Prod.fst = .ok 10 := by
    decide +kernel
  rw [hcreate] at hnew
  obtain rfl : b = 10 := Except.ok.inj hnew
  have hagrees := hall _ _ [4] 12288 10 fs' ip' owns_emptyFile (by decide) hcreate (by decide)
  have hlookup : (BlockUse.twoGroups.fs.createBlock emptyFile 12288 >>= fun r =>
      (r.2.1.bmap r.2.2 12288).map Prod.fst) = .ok 0 := by decide +kernel
  rw [hcreate, ok_bind] at hlookup
  dsimp only at hlookup
  rw [hagrees.found] at hlookup
  have hten : 10 = 0 := Except.ok.inj hlookup
  cases hten

end Yak.Ext2.Fs
