import Yak.FileBlocks

/-!
# Freeing the blocks of a file

`ext2_itrunc` takes every word of `i_block` for the address of a block.  For the blocks which
`ext2_balloc` handed out this is right, and each of them is freed once.  The device number of a
device node and the text of a short symbolic link are words of `i_block` too.
`ext2_iput` of the last reference calls it for all of them.
-/

namespace Yak.Ext2

open ByteBitmap WordMemory IndexTree

namespace Fs

variable {fs fs' fs'' : Fs} {ip ip' : InodeM} {others owned bs : List ℕ} {b d g k n : ℕ}

/-! ## What freeing leaves alone -/

/-- Bits of the block bitmaps may have been cleared. -/
structure Freeing (fs fs' : Fs) : Prop where
  geometry : SameGeometry fs fs'
  data : ∀ n, (∀ g < fs.nrBlkGroup, (fs.bgdTable g).bgBlockBitmap ≠ n) → fs'.blocks n = fs.blocks n
  clears : ∀ n k, getBit (fs'.blocks n) k = true → getBit (fs.blocks n) k = true

theorem Freeing.refl (fs : Fs) : Freeing fs fs := ⟨SameGeometry.refl fs, fun _ _ => rfl, fun _ _ h => h⟩

theorem Freeing.trans (h : Freeing fs fs') (h' : Freeing fs' fs'') : Freeing fs fs'' where
  geometry := h.geometry.trans h'.geometry
  data := by
    intro n hn
    rw [h'.data n, h.data n hn]
    intro g hg
    rw [h.geometry.nrBlkGroup] at hg
    rw [h.geometry.blockBitmap]
    exact hn g hg
  clears n k hbit := h.clears n k (h'.clears n k hbit)

theorem getBit_clearBit_imp {map : Bytes} {j : ℕ} (h : getBit (clearBit map j) k = true) :
    getBit map k = true := by
  rw [getBit_clearBit, Bool.and_eq_true] at h
  exact h.2

theorem Freeing.giveBlock (hg : g < fs.nrBlkGroup) : Freeing fs (fs.giveBlock g b) where
  geometry := by
    refine ⟨rfl, rfl, ?_, ?_⟩ <;>
    · intro g'
      unfold Fs.giveBlock
      dsimp only
      by_cases hg' : g' = g
      · rw [hg', Function.update_self]
      · rw [Function.update_of_ne hg']
  data n hn := Function.update_of_ne (hn g hg).symm _ _
  clears n k hbit := by
    unfold Fs.giveBlock at hbit
    dsimp only at hbit
    by_cases hn : n = (fs.bgdTable g).bgBlockBitmap
    · rw [hn, Function.update_self] at hbit
      rw [hn]
      exact getBit_clearBit_imp hbit
    · rw [Function.update_of_ne hn] at hbit
      exact hbit

theorem bfree_cases (h : fs.bfree b = .ok fs') :
    b = 0 ∧ fs' = fs ∨
      b ≠ 0 ∧ ∃ g < fs.nrBlkGroup, fs.bfreeBit b < fs.bitsPerBlock ∧
        getBit (fs.blocks (fs.bgdTable g).bgBlockBitmap) (fs.bfreeBit b) = true ∧
        fs' = fs.giveBlock g (fs.bfreeBit b) := by
  unfold Fs.bfree at h
  dsimp only at h
  by_cases hb : b = 0
  · rw [if_pos hb] at h
    exact Or.inl ⟨hb, (Except.ok.inj h).symm⟩
  · rw [if_neg hb] at h
    by_cases hg : fs.nrBlkGroup ≤ b / fs.sb.sBlocksPerGroup
    · rw [if_pos hg] at h
      cases h
    · rw [if_neg hg] at h
      by_cases hbit : fs.bitsPerBlock ≤ fs.bfreeBit b
      · rw [if_pos hbit] at h
        cases h
      · rw [if_neg hbit] at h
        split at h
        next => cases h
        next hset =>
          exact Or.inr ⟨hb, _, Nat.not_le.mp hg, Nat.not_le.mp hbit,
            Bool.eq_true_of_not_eq_false hset, (Except.ok.inj h).symm⟩

theorem Freeing.bfree (h : fs.bfree b = .ok fs') : Freeing fs fs' := by
  rcases bfree_cases h with ⟨_, rfl⟩ | ⟨_, g, hg, _, _, rfl⟩
  · exact Freeing.refl fs'
  · exact Freeing.giveBlock hg

theorem Freeing.bfreeTree (h : bfreeTree d fs b = .ok fs') : Freeing fs fs' := by
  induction d generalizing fs fs' b with
  | zero => exact Freeing.bfree h
  | succ d ih =>
      rw [Fs.bfreeTree] at h
      by_cases hb : b = 0
      · rw [if_pos hb] at h
        exact Except.ok.inj h ▸ Freeing.refl fs
      · rw [if_neg hb] at h
        cases hloop : (List.range fs.indirBlocks).foldlM
            (fun fs k => Fs.bfreeTree d fs (fs.pointer b k)) fs with
        | error e =>
            rw [hloop] at h
            cases h
        | ok fs₁ =>
            rw [hloop, ok_bind] at h
            have hinner : Freeing fs fs₁ :=
              foldlM_invariant (Freeing fs) (fun _ _ _ _ hs hstep => hs.trans (ih hstep))
                (Freeing.refl fs) hloop
            exact hinner.trans (Freeing.bfree h)

/-! ## A tree is freed block by block -/

theorem Freeing.pointer (h : Freeing fs fs') (hb : ∀ g < fs.nrBlkGroup, (fs.bgdTable g).bgBlockBitmap ≠ b)
    (k : ℕ) : fs'.pointer b k = fs.pointer b k := by
  unfold Fs.pointer
  rw [h.data b hb]

/-- Freeing a tree is freeing its blocks, the inner ones behind those below them. -/
theorem bfreeTree_eq
    (h : ∀ c ∈ index fs.pointer fs.indirBlocks d b, ∀ g < fs.nrBlkGroup,
      (fs.bgdTable g).bgBlockBitmap ≠ c) (hfree : Freeing fs fs') :
    bfreeTree d fs' b = (nodes fs.pointer fs.indirBlocks d b).foldlM Fs.bfree fs' := by
  induction d generalizing fs' b with
  | zero =>
      rw [Fs.bfreeTree, nodes]
      by_cases hb : b = 0
      · rw [if_pos hb, List.foldlM_nil, Fs.bfree, if_pos hb]
        rfl
      · rw [if_neg hb, List.foldlM_cons]
        cases fs'.bfree b <;> rfl
  | succ d ih =>
      by_cases hb : b = 0
      · rw [hb, nodes_zero]
        exact if_pos rfl
      · have hself := h b (self_mem_index hb)
        rw [nodes_succ hb, List.foldlM_append, foldlM_flatMap, Fs.bfreeTree, if_neg hb,
          hfree.geometry.indirBlocks]
        have hloop : (List.range fs.indirBlocks).foldlM
              (fun fs k => Fs.bfreeTree d fs (fs.pointer b k)) fs' =
            (List.range fs.indirBlocks).foldlM
              (fun s k => (nodes fs.pointer fs.indirBlocks d (fs.pointer b k)).foldlM Fs.bfree s)
              fs' := by
          apply foldlM_congr_of_invariant (Freeing fs) _ _ hfree
          · exact fun _ _ _ _ hs hstep => hs.trans (Freeing.bfreeTree hstep)
          · intro s k hk hs
            rw [hs.pointer hself]
            exact ih (fun c hc => h c (child_mem_index hb (List.mem_range.mp hk) hc)) hs
        rw [hloop]
        congr 1
        funext s
        rw [List.foldlM_cons]
        cases s.bfree b <;> rfl

/-- So `ext2_itrunc` frees the blocks of the file one after the other. -/
theorem itrunc_loop_eq (h : ∀ c ∈ fileIndex fs ip, ∀ g < fs.nrBlkGroup,
      (fs.bgdTable g).bgBlockBitmap ≠ c) :
    (List.range 15).foldlM (fun fs i => bfreeTree (levelsOf i) fs (ip.iBlock i)) fs =
      (fileBlocks fs ip).foldlM Fs.bfree fs := by
  unfold fileBlocks
  rw [foldlM_flatMap]
  apply foldlM_congr_of_invariant (Freeing fs) _ _ (Freeing.refl fs)
  · exact fun _ _ _ _ hs hstep => hs.trans (Freeing.bfreeTree hstep)
  · intro s i hi hs
    apply bfreeTree_eq _ hs
    intro c hc
    exact h c (List.mem_flatMap.mpr ⟨i, hi, hc⟩)

/-! ## Blocks in use are freed -/

/-- The group of the block is the one in which `ext2_bfree` looks for it. -/
def Placed (fs : Fs) (b : ℕ) : Prop := fs.sb.sFirstDataBlock = 0 ∨ b % fs.sb.sBlocksPerGroup ≠ 0

instance (fs : Fs) (b : ℕ) : Decidable (fs.Placed b) := inferInstanceAs (Decidable (_ ∨ _))

theorem SameGeometry.placed (h : SameGeometry fs fs') : fs'.Placed b ↔ fs.Placed b := by
  unfold Placed
  rw [h.sb]

theorem SameGeometry.groupOf (h : SameGeometry fs fs') : fs'.groupOf b = fs.groupOf b := by
  unfold Fs.groupOf
  rw [h.sb]

theorem SameGeometry.indexOf (h : SameGeometry fs fs') : fs'.indexOf b = fs.indexOf b := by
  unfold Fs.indexOf
  rw [h.sb]

/-- The bit of one of the blocks. -/
def BitOf (fs : Fs) (bs : List ℕ) (g k : ℕ) : Prop := ∃ b ∈ bs, fs.groupOf b = g ∧ fs.indexOf b = k

instance (fs : Fs) (bs : List ℕ) (g k : ℕ) : Decidable (fs.BitOf bs g k) :=
  inferInstanceAs (Decidable (∃ b ∈ bs, _))

/-- Exactly the bits of these blocks are cleared in the block bitmaps. -/
def ClearsAll (fs fs' : Fs) (bs : List ℕ) : Prop :=
  ∀ g < fs.nrBlkGroup, ∀ k, getBit (fs'.blockMap g) k =
    (getBit (fs.blockMap g) k && !decide (fs.BitOf bs g k))

theorem count_ne_max (hs : BlockUse.Sound ⟨fs, owned⟩) (hper : fs.sb.sBlocksPerGroup < 2 ^ 16)
    (hb : b ∈ owned) : (fs.bgdTable (fs.groupOf b)).bgFreeBlocksCount ≠ 2 ^ 16 - 1 := by
  obtain ⟨hdesc, hmark, _⟩ := hs.owned_facts hb
  have hcount := hs.fs.tallied.count _ hdesc.group
  have hlt : clearCount (fs.blockMap (fs.groupOf b)) (fs.groupBlocks (fs.groupOf b)) <
      fs.groupBlocks (fs.groupOf b) := clearCount_lt hdesc.index hmark
  have hle : fs.groupBlocks (fs.groupOf b) ≤ fs.sb.sBlocksPerGroup := min_le_left _ _
  dsimp only at hcount hlt
  omega

theorem bfree_owned (hs : BlockUse.Sound ⟨fs, owned⟩) (hper : fs.sb.sBlocksPerGroup < 2 ^ 16)
    (hb : b ∈ owned) (hplaced : fs.Placed b) :
    ∃ fs', fs.bfree b = .ok fs' ∧ BlockUse.Sound ⟨fs', owned.erase b⟩ ∧ ClearsAll fs fs' [b] := by
  obtain ⟨s', hstep, hclear, hsound⟩ :=
    hs.bfree ⟨hb, hplaced, count_ne_max hs hper hb⟩
  unfold BlockUse.step at hstep
  dsimp only at hstep
  cases hrun : fs.bfree b with
  | error e =>
      rw [hrun] at hstep
      cases hstep
  | ok fs' =>
      rw [hrun, ok_bind] at hstep
      obtain rfl := Except.ok.inj hstep
      refine ⟨fs', rfl, hsound, ?_⟩
      have hdesc := hs.described b hb
      intro g hg k
      have hgeometry := (Freeing.bfree hrun).geometry
      unfold ClearsExactly at hclear
      dsimp only at hclear
      unfold Fs.blockMap
      rw [hgeometry.blockBitmap, hclear]
      by_cases hsame : g = fs.groupOf b
      · subst hsame
        rw [Function.update_self, getBit_clearBit, Bool.and_comm]
        unfold Fs.blockMap BitOf
        by_cases hk : fs.indexOf b = k
        · simp [hk]
        · simp [hk, Ne.symm hk]
      · have hne : (fs.bgdTable g).bgBlockBitmap ≠ (fs.bgdTable (fs.groupOf b)).bgBlockBitmap :=
          fun heq => hsame (hs.fs.apart g hg _ hdesc.group heq)
        rw [Function.update_of_ne hne]
        have hnot : ¬fs.BitOf [b] g k := by
          rintro ⟨c, hc, hgroup, _⟩
          rw [List.mem_singleton.mp hc] at hgroup
          exact hsame hgroup.symm
        rw [decide_eq_false hnot, Bool.not_false, Bool.and_true]

theorem ClearsAll.cons (h : ClearsAll fs fs' [b]) (hgeometry : SameGeometry fs fs')
    (h' : ClearsAll fs' fs'' bs) : ClearsAll fs fs'' (b :: bs) := by
  intro g hg k
  have hg' : g < fs'.nrBlkGroup := by
    rw [hgeometry.nrBlkGroup]
    exact hg
  have hbits : fs'.BitOf bs g k ↔ fs.BitOf bs g k := by
    unfold BitOf
    simp only [hgeometry.groupOf, hgeometry.indexOf]
  rw [h' g hg' k, h g hg k, Bool.and_assoc]
  congr 1
  have hcons : fs.BitOf (b :: bs) g k ↔ fs.BitOf [b] g k ∨ fs.BitOf bs g k := by
    unfold BitOf
    simp only [List.mem_cons, List.not_mem_nil, or_false, exists_eq_or_imp, exists_eq_left]
  simp only [hbits, hcons, Bool.decide_or, Bool.not_or]

theorem bfree_all (hs : BlockUse.Sound ⟨fs, owned⟩) (hper : fs.sb.sBlocksPerGroup < 2 ^ 16)
    (hnodup : bs.Nodup) (hsub : ∀ b ∈ bs, b ∈ owned) (hplaced : ∀ b ∈ bs, fs.Placed b) :
    ∃ fs', bs.foldlM Fs.bfree fs = .ok fs' ∧ BlockUse.Sound ⟨fs', owned.diff bs⟩ ∧
      Freeing fs fs' ∧ ClearsAll fs fs' bs := by
  induction bs generalizing fs owned with
  | nil =>
      refine ⟨fs, rfl, hs, Freeing.refl fs, ?_⟩
      intro g _ k
      simp [BitOf]
  | cons b bs ih =>
      obtain ⟨hb, hnodup⟩ := List.nodup_cons.mp hnodup
      obtain ⟨fs₁, hrun, hsound, hclear⟩ := bfree_owned hs hper (hsub b List.mem_cons_self)
        (hplaced b List.mem_cons_self)
      have hfree := Freeing.bfree hrun
      have hper₁ : fs₁.sb.sBlocksPerGroup < 2 ^ 16 := by
        rw [hfree.geometry.sb]
        exact hper
      obtain ⟨fs', hrest, hsound', hfree', hclear'⟩ := ih hsound hper₁ hnodup
        (by
          intro c hc
          have hne : c ≠ b := fun heq => hb (heq ▸ hc)
          exact (List.mem_erase_of_ne hne).mpr (hsub c (List.mem_cons_of_mem b hc)))
        fun c hc => hfree.geometry.placed.mpr (hplaced c (List.mem_cons_of_mem b hc))
      refine ⟨fs', ?_, ?_, hfree.trans hfree', hclear.cons hfree.geometry hclear'⟩
      · rw [List.foldlM_cons, hrun, ok_bind]
        exact hrest
      · rw [List.diff_cons]
        exact hsound'

/-! ## The blocks of an inode -/

theorem ClearsAll.congr {cs : List ℕ} (h : ClearsAll fs fs' bs) (hmem : ∀ b, b ∈ cs ↔ b ∈ bs) :
    ClearsAll fs fs' cs := by
  intro g hg k
  have hbits : fs.BitOf cs g k ↔ fs.BitOf bs g k := by
    unfold BitOf
    simp only [hmem]
  rw [h g hg k]
  simp only [hbits]

theorem diff_append_self (l l' : List ℕ) : (l ++ l').diff l = l' := by
  induction l with
  | nil => rfl
  | cons a l ih => rw [List.cons_append, List.diff_cons, List.erase_cons_head, ih]

theorem Owns.fileIndex_allocated (h : Owns fs ip others) {c : ℕ} (hc : c ∈ fileIndex fs ip) :
    c ∈ ip.allocated := by
  obtain ⟨i, hi, hc⟩ := List.mem_flatMap.mp hc
  exact h.slot_allocated (List.mem_range.mp hi) (index_subset hc)

theorem Owns.fileIndex_ne_bitmap (h : Owns fs ip others) {c : ℕ} (hc : c ∈ fileIndex fs ip)
    (hg : g < fs.nrBlkGroup) : (fs.bgdTable g).bgBlockBitmap ≠ c :=
  h.held.owned_ne_bitmap (List.mem_append_left _ (h.fileIndex_allocated hc)) hg

/-- `ext2_itrunc` frees the blocks which the inode owns, and no others. -/
theorem Owns.itrunc (h : Owns fs ip others) (hper : fs.sb.sBlocksPerGroup < 2 ^ 16)
    (hplaced : ∀ b ∈ ip.allocated, fs.Placed b) :
    ∃ fs', fs.itrunc ip = .ok (fs',
        { ip with iBlock := fun _ => 0, iBlocks := 0, iSize := 0, modified := true }) ∧
      BlockUse.Sound ⟨fs', others⟩ ∧ Freeing fs fs' ∧ ClearsAll fs fs' ip.allocated := by
  obtain ⟨fs', hrun, hsound, hfree, hclear⟩ := bfree_all h.held.use hper h.nodup_fileBlocks
    (fun b hb => List.mem_append_left _ (h.tree.subset hb))
    fun b hb => hplaced b (h.tree.subset hb)
  have hrest : (ip.allocated ++ others).diff (fileBlocks fs ip) = others := by
    rw [h.tree.diff_left, diff_append_self]
  rw [hrest] at hsound
  refine ⟨fs', ?_, hsound, hfree, hclear.congr fun b => h.tree.mem_iff.symm⟩
  unfold Fs.itrunc
  rw [itrunc_loop_eq fun c hc g hg => h.fileIndex_ne_bitmap hc hg, hrun, ok_bind]

/-! ## The last reference -/

/-- No block is a bitmap of both kinds. -/
def MapsApart (fs : Fs) : Prop :=
  ∀ g < fs.nrBlkGroup, ∀ g' < fs.nrBlkGroup,
    (fs.bgdTable g).bgInodeBitmap ≠ (fs.bgdTable g').bgBlockBitmap

theorem SameGeometry.mapsApart (h : SameGeometry fs fs') (hmaps : fs.MapsApart) :
    fs'.MapsApart := by
  intro g hg g' hg'
  rw [h.nrBlkGroup] at hg hg'
  rw [h.inodeBitmap, h.blockBitmap]
  exact hmaps g hg g' hg'

theorem ifree_blockMap (hmaps : fs.MapsApart) (h : fs.ifree n = .ok fs') (hg : g < fs.nrBlkGroup) :
    fs'.blockMap g = fs.blockMap g := by
  unfold Fs.ifree at h
  by_cases hlow : n < fs.sb.firstFreeIno
  · rw [if_pos hlow] at h
    obtain rfl := Except.ok.inj h
    rfl
  · rw [if_neg hlow] at h
    by_cases hgroup : fs.nrBlkGroup ≤ fs.inodeGroup n
    · rw [if_pos hgroup] at h
      cases h
    · rw [if_neg hgroup] at h
      split at h
      next => cases h
      next =>
        split at h
        next => cases h
        next =>
          obtain rfl := Except.ok.inj h
          have hne := hmaps _ (Nat.not_le.mp hgroup) g hg
          unfold Fs.blockMap Fs.giveInode
          dsimp only
          by_cases hsame : g = fs.inodeGroup n
          · subst hsame
            rw [Function.update_self]
            exact Function.update_of_ne hne.symm _ _
          · rw [Function.update_of_ne hsame]
            exact Function.update_of_ne hne.symm _ _

/-- When `ext2_iput` of the last reference comes to `ext2_ifree`, exactly the bits of the blocks
allocated to the inode are cleared, and `ext2_ifree` clears no other. -/
def FreesExactly (fs : Fs) (ip : InodeM) : Prop :=
  ∃ fs₁ ip₁, fs.itrunc { ip with iCount := 0 } = .ok (fs₁, ip₁) ∧
    fs.ClearsAll fs₁ ip.allocated ∧
    fs.iput ip = (do
      let fs₂ ← fs₁.ifree ip.iNum
      .ok (fs₂, { ip₁ with modified := false })) ∧
    ∀ fs₂, fs₁.ifree ip.iNum = .ok fs₂ → fs.ClearsAll fs₂ ip.allocated

theorem Owns.freesExactly (h : Owns fs ip others) (hper : fs.sb.sBlocksPerGroup < 2 ^ 16)
    (hmaps : fs.MapsApart) (hplaced : ∀ b ∈ ip.allocated, fs.Placed b) (hcount : ip.iCount = 1)
    (hlinks : ip.iLinksCount = 0) : fs.FreesExactly ip := by
  have howns : Owns fs { ip with iCount := 0 } others := ⟨⟨h.held.use, h.held.number⟩, h.tree⟩
  obtain ⟨fs₁, htrunc, _, hfree, hclear⟩ := howns.itrunc hper hplaced
  refine ⟨fs₁, _, htrunc, hclear, ?_, ?_⟩
  · unfold Fs.iput
    rw [if_neg (by omega), if_pos ⟨hcount, hlinks⟩, htrunc, ok_bind]
  · intro fs₂ hifree g hg k
    have hg₁ : g < fs₁.nrBlkGroup := by
      rw [hfree.geometry.nrBlkGroup]
      exact hg
    rw [ifree_blockMap (hfree.geometry.mapsApart hmaps) hifree hg₁]
    exact hclear g hg k

end Fs

end Yak.Ext2
