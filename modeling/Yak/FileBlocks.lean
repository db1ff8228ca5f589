import Yak.BlockBitmap
import Yak.Bmap
import Yak.IndexTree

/-!
# The tree of blocks of a file

The blocks which `ext2_balloc` hands out for an inode are those of the trees below
`i_block`.  Every call of `bmap_create` which does not go through the indirect block, and
finds the new index blocks as zeros, keeps this.
-/

namespace Yak.Ext2

open ByteBitmap WordMemory IndexTree

namespace Fs

variable {fs fs' fs'' : Fs} {ip ip' ip'' : InodeM} {others news news' changed changed' : List ℕ}
  {b d k m n new : ℕ} {ks : List ℕ}

/-- The blocks below `i_block`, in the order in which `ext2_itrunc` frees them. -/
def fileBlocks (fs : Fs) (ip : InodeM) : List ℕ :=
  (List.range 15).flatMap fun i => nodes fs.pointer fs.indirBlocks (levelsOf i) (ip.iBlock i)

/-- The index blocks among them. -/
def fileIndex (fs : Fs) (ip : InodeM) : List ℕ :=
  (List.range 15).flatMap fun i => index fs.pointer fs.indirBlocks (levelsOf i) (ip.iBlock i)

/-! ## What allocation leaves alone -/

structure SameGeometry (fs fs' : Fs) : Prop where
  sb : fs'.sb = { fs.sb with sFreeBlocksCount := fs'.sb.sFreeBlocksCount }
  nrBlkGroup : fs'.nrBlkGroup = fs.nrBlkGroup
  blockBitmap : ∀ g, (fs'.bgdTable g).bgBlockBitmap = (fs.bgdTable g).bgBlockBitmap
  inodeBitmap : ∀ g, (fs'.bgdTable g).bgInodeBitmap = (fs.bgdTable g).bgInodeBitmap

theorem SameGeometry.refl (fs : Fs) : SameGeometry fs fs := ⟨rfl, rfl, fun _ => rfl, fun _ => rfl⟩

theorem SameGeometry.trans (h : SameGeometry fs fs') (h' : SameGeometry fs' fs'') :
    SameGeometry fs fs'' where
  sb := by rw [h'.sb, h.sb]
  nrBlkGroup := h'.nrBlkGroup.trans h.nrBlkGroup
  blockBitmap g := (h'.blockBitmap g).trans (h.blockBitmap g)
  inodeBitmap g := (h'.inodeBitmap g).trans (h.inodeBitmap g)

theorem SameGeometry.blocksize (h : SameGeometry fs fs') : fs'.sb.blocksize = fs.sb.blocksize := by
  rw [h.sb]
  rfl

theorem SameGeometry.indirBlocks (h : SameGeometry fs fs') : fs'.indirBlocks = fs.indirBlocks := by
  unfold Fs.indirBlocks
  rw [h.blocksize]

theorem SameGeometry.sInodesCount (h : SameGeometry fs fs') :
    fs'.sb.sInodesCount = fs.sb.sInodesCount := by rw [h.sb]

theorem SameGeometry.setBlock (fs : Fs) (n : ℕ) (data : Bytes) :
    SameGeometry fs (fs.setBlock n data) := ⟨rfl, rfl, fun _ => rfl, fun _ => rfl⟩

theorem SameGeometry.handOut (fs : Fs) (n : ℕ) : SameGeometry fs (fs.handOut n) :=
  ⟨rfl, rfl, fun _ => rfl, fun _ => rfl⟩

/-! ## Allocation for an inode -/

/-- The inode owns the blocks handed out to it, beside the other blocks in use. -/
structure Held (fs : Fs) (ip : InodeM) (others : List ℕ) : Prop where
  use : BlockUse.Sound ⟨fs, ip.allocated ++ others⟩
  number : 1 ≤ ip.iNum ∧ ip.iNum ≤ fs.sb.sInodesCount

theorem Held.owned_ne_zero (h : Held fs ip others) (hb : b ∈ ip.allocated ++ others) : b ≠ 0 :=
  (h.use.data b hb).1

theorem Held.owned_ne_bitmap (h : Held fs ip others) (hb : b ∈ ip.allocated ++ others) {g : ℕ}
    (hg : g < fs.nrBlkGroup) : (fs.bgdTable g).bgBlockBitmap ≠ b :=
  ((h.use.data b hb).2 g hg).symm

/-- The next blocks which are handed out are found as zeros. -/
def Wiped (fs : Fs) (n : ℕ) : Prop := ∀ i < n, fs.found i = fun _ => 0#8

theorem Wiped.mono (h : fs.Wiped m) (hle : n ≤ m) : fs.Wiped n := fun i hi => h i (by omega)

/-- The file system and the inode after `news` were handed out.  Of the blocks in use before,
only `changed` were written. -/
structure Grown (fs : Fs) (ip : InodeM) (others news changed : List ℕ) (fs' : Fs) (ip' : InodeM) :
    Prop where
  held : Held fs' ip' others
  geometry : SameGeometry fs fs'
  number : ip'.iNum = ip.iNum
  allocated : ip'.allocated = news ++ ip.allocated
  data : ∀ c ∈ ip.allocated ++ others, c ∉ changed → fs'.blocks c = fs.blocks c

theorem Grown.refl (h : Held fs ip others) : Grown fs ip others [] [] fs ip where
  held := h
  geometry := SameGeometry.refl fs
  number := rfl
  allocated := rfl
  data _ _ _ := rfl

theorem Grown.trans (h : Grown fs ip others news changed fs' ip')
    (h' : Grown fs' ip' others news' changed' fs'' ip'') :
    Grown fs ip others (news' ++ news) (changed ++ changed') fs'' ip'' where
  held := h'.held
  geometry := h.geometry.trans h'.geometry
  number := h'.number.trans h.number
  allocated := by rw [h'.allocated, h.allocated, List.append_assoc]
  data := by
    intro c hc hnot
    rw [List.mem_append, not_or] at hnot
    have hc' : c ∈ ip'.allocated ++ others := by
      rw [h.allocated, List.append_assoc]
      exact List.mem_append_right _ hc
    rw [h'.data c hc' hnot.2, h.data c hc hnot.1]

theorem Grown.mono (h : Grown fs ip others news changed fs' ip')
    (hsub : ∀ c ∈ ip.allocated ++ others, c ∈ changed → c ∈ changed') :
    Grown fs ip others news changed' fs' ip' :=
  { h with data := fun c hc hnot => h.data c hc fun hin => hnot (hsub c hc hin) }

theorem Grown.fresh (h : Grown fs ip others news changed fs' ip') (hnew : new ∈ news) :
    new ∉ ip.allocated ++ others := by
  have hnodup := h.held.use.nodup
  dsimp only at hnodup
  rw [h.allocated, List.append_assoc, List.nodup_append] at hnodup
  intro hin
  exact hnodup.2.2 new hnew new hin rfl

theorem Grown.pointer (h : Grown fs ip others news changed fs' ip')
    (hb : b ∈ ip.allocated ++ others) (hnot : b ∉ changed) (k : ℕ) :
    fs'.pointer b k = fs.pointer b k := by
  unfold Fs.pointer
  rw [h.data b hb hnot]

theorem ballocFor_iSize (hrun : fs.ballocFor ip = .ok (new, fs', ip')) :
    ip'.iSize = ip.iSize := by
  unfold ballocFor at hrun
  obtain ⟨⟨b, fs₁, inode⟩, -, hrest⟩ := bind_eq_ok.mp hrun
  rw [← (Prod.mk.inj (Prod.mk.inj (Except.ok.inj hrest)).2).2]

/-- The superblock counts no free block. -/
def Full (fs : Fs) : Prop := fs.sb.sFreeBlocksCount = 0

theorem balloc_gives {owned : List ℕ} {inode : Inode} (hs : BlockUse.Sound ⟨fs, owned⟩)
    (hnum : 1 ≤ inode.iNum ∧ inode.iNum ≤ fs.sb.sInodesCount) :
    ∃ new fs' inode', fs.balloc inode = .ok (new, fs', inode') ∧ inode'.iNum = inode.iNum ∧
      BlockUse.Sound ⟨fs', (if new = 0 then [] else [new]) ++ owned⟩ ∧ SameGeometry fs fs' ∧
      (∀ c ∈ owned, fs'.blocks c = fs.blocks c) ∧
      new < 2 ^ 32 ∧ fs'.blocks new = fs.found 0 ∧ (fs'.found = fun i => fs.found (i + 1)) ∧
      (new = 0 → fs'.Full) := by
  obtain ⟨r, hrun, hr⟩ := hs.fs.counted.ballocGroups (inodeGroup_lt hs.fs.accepted hnum.1 hnum.2)
  have hballoc : fs.balloc inode = .ok (r.1, r.2.handOut r.1,
      { inode with
        iBlocks := (inode.iBlocks + r.2.sb.blocksize / sectorSize) % 2 ^ 32, modified := true }) := by
    unfold Fs.balloc
    rw [hrun, ok_bind]
  refine ⟨_, _, _, hballoc, rfl, ?_⟩
  rcases hr with hfound | ⟨rfl, hfree⟩
  · have hsound := hs.allocates hfound
    obtain ⟨g, off, hg, hcount, hoff, hclear, hzero, rfl⟩ := hfound
    have hgeometry : SameGeometry fs (fs.takeBlock g off) := by
      refine ⟨rfl, rfl, ?_, ?_⟩ <;>
      · intro g'
        unfold Fs.takeBlock
        dsimp only
        by_cases hg' : g' = g
        · rw [hg', Function.update_self]
        · rw [Function.update_of_ne hg']
    rw [if_neg hzero]
    refine ⟨hsound, hgeometry.trans (SameGeometry.handOut _ _), ?_,
      (blockAt_lt hoff).trans hs.fs.count, handOut_self _ _, rfl, fun h => (hzero h).elim⟩
    intro c hc
    have hne : c ≠ fs.blockAt g off := by
      rintro rfl
      exact not_marked_blockAt hoff hclear (hs.marked _ hc)
    have hmap : c ≠ (fs.bgdTable g).bgBlockBitmap := (hs.data c hc).2 g hg
    have hset : ((fs.takeBlock g off).handOut (fs.blockAt g off)).blocks c =
        (fs.takeBlock g off).blocks c := Function.update_of_ne hne _ _
    rw [hset]
    exact Function.update_of_ne hmap _ _
  · rw [if_pos rfl]
    refine ⟨hs.written _ _ hs.fs.nonzero, SameGeometry.handOut _ _, ?_, Nat.two_pow_pos 32,
      handOut_self fs 0, rfl, fun _ => hfree⟩
    intro c hc
    exact Function.update_of_ne (hs.data c hc).1 _ _

theorem Held.ballocFor (h : Held fs ip others) :
    ∃ new fs' ip', fs.ballocFor ip = .ok (new, fs', ip') ∧
      Grown fs ip others (if new = 0 then [] else [new]) [] fs' ip' ∧ ip'.iBlock = ip.iBlock ∧
      new < 2 ^ 32 ∧ fs'.blocks new = fs.found 0 ∧ (fs'.found = fun i => fs.found (i + 1)) ∧
      (new = 0 → fs'.Full) := by
  obtain ⟨new, fs', inode', hballoc, hnum, hsound, hgeometry, hdata, hlt, hblock, hfound, hfull⟩ :=
    balloc_gives h.use h.number
  have hfor : fs.ballocFor ip = .ok (new, fs',
      { ip with
        toInode := inode'
        allocated := if new = 0 then ip.allocated else new :: ip.allocated }) := by
    unfold Fs.ballocFor
    rw [hballoc, ok_bind]
  have hlist : (if new = 0 then ip.allocated else new :: ip.allocated) =
      (if new = 0 then [] else [new]) ++ ip.allocated := by
    split <;> rfl
  refine ⟨_, _, _, hfor, ⟨⟨?_, ?_⟩, hgeometry, hnum, hlist, fun c hc _ => hdata c hc⟩, rfl, hlt,
    hblock, hfound, hfull⟩
  · dsimp only
    rw [hlist, List.append_assoc]
    exact hsound
  · dsimp only
    rw [hnum, hgeometry.sInodesCount]
    exact h.number

/-! ## Writing an entry of an index block -/

theorem pointer_setPointer {v : ℕ} (hv : v < 2 ^ 32) : (fs.setPointer b k v).pointer b k = v := by
  unfold Fs.setPointer pointer Fs.setBlock
  dsimp only
  rw [Function.update_self, load32_store32 hv]

theorem pointer_setPointer_of_ne {v j : ℕ} (hj : j ≠ k) :
    (fs.setPointer b k v).pointer b j = fs.pointer b j := by
  unfold Fs.setPointer pointer Fs.setBlock
  dsimp only
  rw [Function.update_self, load32_store32_of_ne (by omega)]

theorem Grown.setPointer (h : Held fs ip others) (hb : b ∈ ip.allocated) (k v : ℕ) :
    Grown fs ip others [] [b] (fs.setPointer b k v) ip where
  held :=
    ⟨h.use.setBlock _ fun _ hg => h.owned_ne_bitmap (List.mem_append_left _ hb) hg, h.number⟩
  geometry := SameGeometry.setBlock _ _ _
  number := rfl
  allocated := rfl
  data _ _ hnot := Function.update_of_ne (fun heq => hnot (List.mem_singleton.mpr heq)) _ _

/-! ## Down the tree -/

/-- What a call of `bmap_create` does to the tree below a block: `news` are the new blocks in
it, and the walk by `ks` gives the block `r` which is returned. -/
structure TreeGrown (fs : Fs) (ip : InodeM) (others : List ℕ) (d b : ℕ) (ks : List ℕ) (r : ℕ)
    (fs' : Fs) (ip' : InodeM) (news : List ℕ) : Prop where
  grown : Grown fs ip others news (index fs.pointer fs.indirBlocks d b) fs' ip'
  iBlock : ip'.iBlock = ip.iBlock
  perm : (nodes fs'.pointer fs.indirBlocks d b).Perm
    (news ++ nodes fs.pointer fs.indirBlocks d b)
  reached : walk fs'.pointer b ks = r
  elsewhere : ∀ js, js.length = d → (∀ j ∈ js, j < fs.indirBlocks) → js ≠ ks →
    walk fs'.pointer b js = walk fs.pointer b js
  full : r = 0 → fs'.Full

theorem bmapLevels_zero {create : Bool} : fs.bmapLevels ip create 0 ks = .ok (0, fs, ip) := by
  cases ks with
  | nil => rfl
  | cons k ks => exact if_pos rfl

theorem bmapLevels_present {create : Bool} (hb : b ≠ 0) (hk : k < fs.indirBlocks)
    (hp : fs.pointer b k ≠ 0) :
    fs.bmapLevels ip create b (k :: ks) = fs.bmapLevels ip create (fs.pointer b k) ks := by
  rw [Fs.bmapLevels, if_neg hb, if_neg (Nat.not_le.mpr hk), if_neg fun hboth => hp hboth.2]

theorem bmapLevels_missing (hb : b ≠ 0) (hk : k < fs.indirBlocks) (hp : fs.pointer b k = 0)
    (hballoc : fs.ballocFor ip = .ok (new, fs', ip')) :
    fs.bmapLevels ip true b (k :: ks) = (fs'.setPointer b k new).bmapLevels ip' true new ks := by
  have hboth : true = true ∧ fs.pointer b k = 0 := ⟨rfl, hp⟩
  rw [Fs.bmapLevels, if_neg hb, if_neg (Nat.not_le.mpr hk), if_pos hboth, hballoc, ok_bind]

theorem TreeGrown.of_child {r : ℕ} (hb : b ≠ 0) (hk : k < fs.indirBlocks)
    (hnodup : (nodes fs.pointer fs.indirBlocks (d + 1) b).Nodup)
    (hgrown : Grown fs ip others news (index fs.pointer fs.indirBlocks (d + 1) b) fs' ip')
    (hiBlock : ip'.iBlock = ip.iBlock)
    (hchange : ChangedBelow fs.pointer fs'.pointer fs.indirBlocks d b k)
    (hperm : (nodes fs'.pointer fs.indirBlocks d (fs'.pointer b k)).Perm
      (news ++ nodes fs.pointer fs.indirBlocks d (fs.pointer b k)))
    (hreached : walk fs'.pointer (fs'.pointer b k) ks = r)
    (helse : ∀ js, js.length = d → (∀ j ∈ js, j < fs.indirBlocks) → js ≠ ks →
      walk fs'.pointer (fs'.pointer b k) js = walk fs.pointer (fs.pointer b k) js)
    (hfull : r = 0 → fs'.Full) :
    TreeGrown fs ip others (d + 1) b (k :: ks) r fs' ip' news where
  grown := hgrown
  iBlock := hiBlock
  perm := hchange.perm hb hk hnodup hperm
  reached := by
    rw [walk_cons hb]
    exact hreached
  elsewhere := by
    intro js hjs hlt hne
    cases js with
    | nil => simp at hjs
    | cons j js =>
        have hj := hlt j List.mem_cons_self
        have hrest : ∀ i ∈ js, i < fs.indirBlocks := fun i hi => hlt i (List.mem_cons_of_mem j hi)
        have hlen' : js.length = d := Nat.succ_inj.mp hjs
        by_cases hjk : j = k
        · subst hjk
          rw [walk_cons hb, walk_cons hb]
          apply helse js hlen' hrest
          rintro rfl
          exact hne rfl
        · exact hchange.walk hb hk hnodup hj hjk hlen' hrest
  full := hfull

theorem TreeGrown.present {r : ℕ} (hb : b ≠ 0) (hk : k < fs.indirBlocks)
    (hnodup : (nodes fs.pointer fs.indirBlocks (d + 1) b).Nodup)
    (hsub : ∀ c ∈ nodes fs.pointer fs.indirBlocks (d + 1) b, c ∈ ip.allocated)
    (h : TreeGrown fs ip others d (fs.pointer b k) ks r fs' ip' news) :
    TreeGrown fs ip others (d + 1) b (k :: ks) r fs' ip' news := by
  have hown : b ∈ ip.allocated ++ others := List.mem_append_left _ (hsub b (self_mem_nodes hb))
  have hsame : ∀ j, fs'.pointer b j = fs.pointer b j := by
    apply h.grown.pointer hown
    intro hin
    exact ne_of_mem_child hb hk hnodup (index_subset hin) rfl
  have hchange : ChangedBelow fs.pointer fs'.pointer fs.indirBlocks d b k := by
    refine ⟨fun j _ _ => hsame j, ?_⟩
    intro c hc _ hout j _
    exact h.grown.pointer (List.mem_append_left _ (hsub c (index_subset hc)))
      (fun hin => hout (index_subset hin)) j
  have hperm := h.perm
  have hreached := h.reached
  have helse := h.elsewhere
  rw [← hsame k] at hperm hreached helse
  refine TreeGrown.of_child hb hk hnodup (h.grown.mono ?_) h.iBlock hchange ?_ hreached ?_
    h.full
  · intro c _ hc
    exact child_mem_index hb hk hc
  · rw [← hsame k]
    exact hperm
  · rw [← hsame k]
    exact helse

/-- A block which is no index block, or has only zeros, has nothing below it. -/
theorem nodes_of_zeroed {n : ℕ} (hnew : new ≠ 0)
    (hzero : d ≠ 0 → fs.blocks new = fun _ => 0#8) : nodes fs.pointer n d new = [new] := by
  cases d with
  | zero => exact if_neg hnew
  | succ d =>
      have hpointer : ∀ k, fs.pointer new k = 0 := by
        intro k
        unfold Fs.pointer
        rw [hzero d.succ_ne_zero]
        rfl
      simp [nodes_succ hnew, hpointer]

theorem index_of_zeroed {n : ℕ} (hnew : new ≠ 0)
    (hzero : d ≠ 0 → fs.blocks new = fun _ => 0#8) :
    ∀ c ∈ index fs.pointer n d new, c = new := by
  intro c hc
  have hmem := index_subset hc
  rw [nodes_of_zeroed hnew hzero] at hmem
  exact List.mem_singleton.mp hmem

theorem walk_of_zeroed {ks : List ℕ} (hzero : fs.blocks new = fun _ => 0#8) (hks : ks ≠ []) :
    walk fs.pointer new ks = 0 := by
  cases ks with
  | nil => exact (hks rfl).elim
  | cons k ks =>
      have hpointer : fs.pointer new k = 0 := by
        unfold Fs.pointer
        rw [hzero]
        rfl
      by_cases hnew : new = 0
      · rw [hnew, walk_zero]
      · rw [walk_cons hnew, hpointer, walk_zero]

theorem TreeGrown.missing {fs₁ fs₂ : Fs} {ip₁ : InodeM} {r : ℕ} (hb : b ≠ 0)
    (hk : k < fs.indirBlocks) (hp : fs.pointer b k = 0) (hlen : ks.length = d)
    (hnodup : (nodes fs.pointer fs.indirBlocks (d + 1) b).Nodup)
    (hsub : ∀ c ∈ nodes fs.pointer fs.indirBlocks (d + 1) b, c ∈ ip.allocated)
    (hgrown : Grown fs ip others (if new = 0 then [] else [new]) [] fs₁ ip₁)
    (hiBlock : ip₁.iBlock = ip.iBlock) (hlt : new < 2 ^ 32)
    (hzero : d ≠ 0 → fs₁.blocks new = fun _ => 0#8)
    (hfs₂ : fs₂ = fs₁.setPointer b k new)
    (hrest : new ≠ 0 → ∃ news, TreeGrown fs₂ ip₁ others d new ks r fs' ip' news)
    (hnone : new = 0 → r = 0 ∧ fs' = fs₂ ∧ ip' = ip₁) (hfull : new = 0 → fs₁.Full) :
    ∃ news, TreeGrown fs ip others (d + 1) b (k :: ks) r fs' ip' news := by
  have hown : b ∈ ip.allocated := hsub b (self_mem_nodes hb)
  have hown₁ : b ∈ ip₁.allocated := by
    rw [hgrown.allocated]
    exact List.mem_append_right _ hown
  have hset : Grown fs ip others (if new = 0 then [] else [new]) [b] fs₂ ip₁ := by
    rw [hfs₂]
    exact hgrown.trans (Grown.setPointer hgrown.held hown₁ k new)
  have hptr : ∀ j ≠ k, fs₂.pointer b j = fs.pointer b j := by
    intro j hj
    rw [hfs₂, pointer_setPointer_of_ne hj]
    exact hgrown.pointer (List.mem_append_left _ hown) List.not_mem_nil j
  have hptr' : fs₂.pointer b k = new := by
    rw [hfs₂]
    exact pointer_setPointer hlt
  by_cases hnew : new = 0
  · obtain ⟨rfl, rfl, rfl⟩ := hnone hnew
    rw [if_pos hnew] at hset
    refine ⟨[], TreeGrown.of_child hb hk hnodup (hset.mono ?_) hiBlock ⟨?_, ?_⟩ ?_ ?_ ?_
      fun _ => hfs₂ ▸ hfull hnew⟩
    · intro c _ hc
      rw [List.mem_singleton.mp hc]
      exact self_mem_index hb
    · intro j _ hj
      exact hptr j hj
    · intro c hc hne _ j _
      exact hset.pointer (List.mem_append_left _ (hsub c (index_subset hc)))
        (fun hin => hne (List.mem_singleton.mp hin)) j
    · rw [hptr', hnew, hp, nodes_zero, nodes_zero]
      exact List.Perm.refl _
    · rw [hptr', hnew, walk_zero]
    · intro js _ _ _
      rw [hptr', hnew, hp, walk_zero, walk_zero]
  · obtain ⟨news, htree⟩ := hrest hnew
    rw [if_neg hnew] at hset
    have hfresh := hset.fresh (List.mem_singleton.mpr rfl)
    have hbnew : b ≠ new := fun heq => hfresh (heq ▸ List.mem_append_left _ hown)
    have hblock₂ : fs₂.blocks new = fs₁.blocks new := by
      rw [hfs₂]
      exact Function.update_of_ne hbnew.symm _ _
    have hzero₂ : d ≠ 0 → fs₂.blocks new = fun _ => 0#8 := fun hd => hblock₂.trans (hzero hd)
    have hindir : fs₂.indirBlocks = fs.indirBlocks := hset.geometry.indirBlocks
    have hindex := index_of_zeroed (d := d) (n := fs₂.indirBlocks) hnew hzero₂
    have hbelow : Grown fs₂ ip₁ others news [new] fs' ip' :=
      htree.grown.mono fun c _ hc => List.mem_singleton.mpr (hindex c hc)
    have hall := hset.trans hbelow
    -- what was in use before is not the new block
    have hall' : Grown fs ip others (news ++ [new]) [b] fs' ip' := by
      refine { hall with data := ?_ }
      intro c hc hnot
      apply hall.data c hc
      rw [List.mem_append, not_or]
      exact ⟨hnot, fun hin => hfresh (List.mem_singleton.mp hin ▸ hc)⟩
    have hsame : ∀ j, fs'.pointer b j = fs₂.pointer b j := by
      apply htree.grown.pointer (List.mem_append_left _ (by rw [hset.allocated]; simp [hown]))
      exact fun hin => hbnew (hindex b hin)
    refine ⟨news ++ [new], TreeGrown.of_child hb hk hnodup (hall'.mono ?_)
      (htree.iBlock.trans hiBlock) ⟨?_, ?_⟩ ?_ ?_ ?_ htree.full⟩
    · intro c _ hc
      rw [List.mem_singleton.mp hc]
      exact self_mem_index hb
    · intro j _ hj
      rw [hsame, hptr j hj]
    · intro c hc hne _ j _
      exact hall'.pointer (List.mem_append_left _ (hsub c (index_subset hc)))
        (fun hin => hne (List.mem_singleton.mp hin)) j
    · have hperm := htree.perm
      rw [nodes_of_zeroed hnew hzero₂, hindir] at hperm
      rw [hsame, hptr', hp, nodes_zero, List.append_nil]
      exact hperm
    · rw [hsame, hptr']
      exact htree.reached
    · intro js hlen' hlt' hne
      rw [← hindir] at hlt'
      -- at depth 0 there is one walk only
      have hjs : js ≠ [] := by
        rintro rfl
        exact hne (List.length_eq_zero_iff.mp (hlen.trans hlen'.symm)).symm
      have hd : d ≠ 0 := hlen' ▸ mt List.length_eq_zero_iff.mp hjs
      rw [hsame, hptr', hp, walk_zero, htree.elsewhere js hlen' hlt' hne]
      exact walk_of_zeroed (hzero₂ hd) hjs

/-- The number of blocks which are missing on the way down from a block. -/
def missingBelow (fs : Fs) : (block : ℕ) → List ℕ → ℕ
  | _, [] => 0
  | block, k :: ks =>
      if fs.pointer block k = 0 then ks.length + 1 else fs.missingBelow (fs.pointer block k) ks

theorem missingBelow_le (fs : Fs) (b : ℕ) (ks : List ℕ) : fs.missingBelow b ks ≤ ks.length := by
  induction ks generalizing b with
  | nil => exact le_rfl
  | cons k ks ih =>
      unfold missingBelow
      split
      next => exact le_rfl
      next => exact (ih _).trans (Nat.le_succ _)

theorem Wiped.missingBelow (h : fs.Wiped (ks.length - 1)) (b : ℕ) :
    fs.Wiped (fs.missingBelow b ks - 1) :=
  h.mono (Nat.sub_le_sub_right (missingBelow_le fs b ks) 1)

/-- Where the next blocks are found as zeros, the first of them is, and then the others are. -/
theorem Held.ballocWiped (h : Held fs ip others) (hwiped : fs.Wiped m) :
    ∃ new fs' ip', fs.ballocFor ip = .ok (new, fs', ip') ∧
      Grown fs ip others (if new = 0 then [] else [new]) [] fs' ip' ∧ ip'.iBlock = ip.iBlock ∧
      new < 2 ^ 32 ∧ fs'.Wiped (m - 1) ∧ (new = 0 → fs'.Full) ∧ (m ≠ 0 → fs'.blocks new = fun _ => 0#8) := by
  obtain ⟨new, fs', ip', hballoc, hgrown, hiBlock, hlt, hblock, hfound, hfull⟩ := h.ballocFor
  refine ⟨new, fs', ip', hballoc, hgrown, hiBlock, hlt, fun i hi => ?_, hfull, fun hm => ?_⟩
  · rw [hfound]
    exact hwiped (i + 1) (by omega)
  · rw [hblock]
    exact hwiped 0 (Nat.pos_of_ne_zero hm)

/-- `bmap_create` below a block.  The index blocks among those which are missing are handed out
before the last one. -/
theorem Held.bmapLevels (h : Held fs ip others) (hlen : ks.length = d)
    (hks : ∀ k ∈ ks, k < fs.indirBlocks) (hwiped : fs.Wiped (fs.missingBelow b ks - 1)) (hb : b ≠ 0)
    (hnodup : (nodes fs.pointer fs.indirBlocks d b).Nodup)
    (hsub : ∀ c ∈ nodes fs.pointer fs.indirBlocks d b, c ∈ ip.allocated) :
    ∃ r fs' ip' news, fs.bmapLevels ip true b ks = .ok (r, fs', ip') ∧
      TreeGrown fs ip others d b ks r fs' ip' news := by
  induction ks generalizing fs ip b d with
  | nil =>
      obtain rfl : d = 0 := hlen.symm
      refine ⟨b, fs, ip, [], rfl, Grown.refl h, rfl, List.Perm.refl _, rfl, ?_, fun hr => (hb hr).elim⟩
      intro js hjs _ hne
      exact (hne (List.length_eq_zero_iff.mp hjs)).elim
  | cons k ks ih =>
      obtain rfl : d = ks.length + 1 := hlen.symm
      have hk := hks k List.mem_cons_self
      have hrest : ∀ j ∈ ks, j < fs.indirBlocks := fun j hj => hks j (List.mem_cons_of_mem k hj)
      by_cases hp : fs.pointer b k = 0
      · rw [missingBelow, if_pos hp, Nat.add_sub_cancel] at hwiped
        obtain ⟨new, fs₁, ip₁, hballoc, hgrown, hiBlock, hlt, hrestWiped, hfull, hzero⟩ :=
          h.ballocWiped hwiped
        have hown₁ : b ∈ ip₁.allocated := by
          rw [hgrown.allocated]
          exact List.mem_append_right _ (hsub b (self_mem_nodes hb))
        have hset := Grown.setPointer hgrown.held hown₁ k new
        have hindir := (hgrown.geometry.trans hset.geometry).indirBlocks
        rw [bmapLevels_missing hb hk hp hballoc]
        by_cases hnew : new = 0
        · subst hnew
          obtain ⟨news, htree⟩ := TreeGrown.missing hb hk hp rfl hnodup hsub hgrown hiBlock hlt
            hzero rfl (fun hne => (hne rfl).elim) (fun _ => ⟨rfl, rfl, rfl⟩) hfull
          exact ⟨0, _, _, news, bmapLevels_zero, htree⟩
        · have hmem : new ∈ if new = 0 then [] else [new] := by
            rw [if_neg hnew]
            exact List.mem_singleton_self _
          have hfresh := hgrown.fresh hmem
          have hbnew : new ≠ b := by
            rintro rfl
            exact hfresh (List.mem_append_left _ (hsub new (self_mem_nodes hb)))
          have hblock₂ : (fs₁.setPointer b k new).blocks new = fs₁.blocks new :=
            Function.update_of_ne hbnew _ _
          have hzero₂ : ks.length ≠ 0 → (fs₁.setPointer b k new).blocks new = fun _ => 0#8 :=
            fun hne => hblock₂.trans (hzero hne)
          have hwiped₂ : (fs₁.setPointer b k new).Wiped (ks.length - 1) := hrestWiped
          have hnodes := nodes_of_zeroed (d := ks.length)
            (n := (fs₁.setPointer b k new).indirBlocks) hnew hzero₂
          obtain ⟨r, fs', ip', news', hrun, htree⟩ := ih hset.held rfl
            (by rw [hindir]; exact hrest) (hwiped₂.missingBelow new) hnew (by rw [hnodes]; exact List.nodup_singleton new)
            (by
              rw [hnodes, hgrown.allocated, if_neg hnew]
              intro c hc
              exact List.mem_append_left _ hc)
          obtain ⟨news, hdone⟩ := TreeGrown.missing hb hk hp rfl hnodup hsub hgrown hiBlock hlt
            hzero rfl (fun _ => ⟨news', htree⟩) (fun hzero => (hnew hzero).elim) hfull
          exact ⟨r, fs', ip', news, hrun, hdone⟩
      · rw [missingBelow, if_neg hp] at hwiped
        obtain ⟨r, fs', ip', news, hrun, htree⟩ := ih h rfl hrest hwiped hp
          (nodup_child hb hk hnodup) fun c hc => hsub c (child_mem_nodes hb hk hc)
        rw [bmapLevels_present hb hk hp]
        exact ⟨r, fs', ip', news, hrun, htree.present hb hk hnodup hsub⟩

/-! ## From `i_block` on -/

/-- The same for an entry of `i_block`. -/
structure SlotGrown (fs : Fs) (ip : InodeM) (others : List ℕ) (slot : ℕ) (ks : List ℕ) (r : ℕ)
    (fs' : Fs) (ip' : InodeM) (news : List ℕ) : Prop where
  grown : Grown fs ip others news
    (index fs.pointer fs.indirBlocks (levelsOf slot) (ip.iBlock slot)) fs' ip'
  iBlock : ∀ i ≠ slot, ip'.iBlock i = ip.iBlock i
  perm : (nodes fs'.pointer fs.indirBlocks (levelsOf slot) (ip'.iBlock slot)).Perm
    (news ++ nodes fs.pointer fs.indirBlocks (levelsOf slot) (ip.iBlock slot))
  reached : walk fs'.pointer (ip'.iBlock slot) ks = r
  elsewhere : ∀ js, js.length = levelsOf slot → (∀ j ∈ js, j < fs.indirBlocks) → js ≠ ks →
    walk fs'.pointer (ip'.iBlock slot) js = walk fs.pointer (ip.iBlock slot) js
  full : r = 0 → fs'.Full

variable {slot : ℕ}

theorem setBlock_iBlock_self : (ip.setBlock slot b).iBlock slot = b := Function.update_self _ _ _

theorem setBlock_iBlock_of_ne {i : ℕ} (hi : i ≠ slot) :
    (ip.setBlock slot b).iBlock i = ip.iBlock i := Function.update_of_ne hi _ _

theorem Grown.setBlock (h : Grown fs ip others news changed fs' ip') (slot b : ℕ) :
    Grown fs ip others news changed fs' (ip'.setBlock slot b) where
  held := ⟨h.held.use, h.held.number⟩
  geometry := h.geometry
  number := h.number
  allocated := h.allocated
  data := h.data

theorem bmapFrom_present {create : Bool} (hb : ip.iBlock slot ≠ 0) :
    fs.bmapFrom ip create slot ks = fs.bmapLevels ip create (ip.iBlock slot) ks :=
  if_neg fun hboth => hb hboth.2

theorem bmapFrom_missing (hb : ip.iBlock slot = 0)
    (hballoc : fs.ballocFor ip = .ok (new, fs', ip')) :
    fs.bmapFrom ip true slot ks = fs'.bmapLevels (ip'.setBlock slot new) true new ks := by
  have hboth : true = true ∧ ip.iBlock slot = 0 := ⟨rfl, hb⟩
  rw [Fs.bmapFrom, if_pos hboth, hballoc, ok_bind]

theorem TreeGrown.toSlot {r : ℕ} (h : TreeGrown fs ip others (levelsOf slot) (ip.iBlock slot) ks r fs' ip'
    news) : SlotGrown fs ip others slot ks r fs' ip' news where
  grown := h.grown
  iBlock i _ := congrFun h.iBlock i
  perm := by
    rw [h.iBlock]
    exact h.perm
  reached := by
    rw [h.iBlock]
    exact h.reached
  elsewhere := by
    rw [h.iBlock]
    exact h.elsewhere
  full := h.full

theorem TreeGrown.planted {fs₁ : Fs} {ip₁ : InodeM} {r : ℕ} (hb : ip.iBlock slot = 0)
    (hlen : ks.length = levelsOf slot) (hgrown : Grown fs ip others [new] [] fs₁ ip₁)
    (hiBlock : ip₁.iBlock = ip.iBlock) (hnew : new ≠ 0)
    (hzero : levelsOf slot ≠ 0 → fs₁.blocks new = fun _ => 0#8)
    (h : TreeGrown fs₁ (ip₁.setBlock slot new) others (levelsOf slot) new ks r fs' ip' news) :
    SlotGrown fs ip others slot ks r fs' ip' (news ++ [new]) where
  grown := by
    have hfresh := hgrown.fresh (List.mem_singleton.mpr rfl)
    have hall := (hgrown.setBlock slot new).trans h.grown
    refine { hall with data := ?_ }
    intro c hc _
    apply hall.data c hc
    rw [List.nil_append]
    exact fun hin => hfresh (index_of_zeroed hnew hzero c hin ▸ hc)
  iBlock i hi := by rw [h.iBlock, setBlock_iBlock_of_ne hi, hiBlock]
  perm := by
    have hperm := h.perm
    rw [nodes_of_zeroed hnew hzero, hgrown.geometry.indirBlocks] at hperm
    rw [h.iBlock, setBlock_iBlock_self, hb, nodes_zero, List.append_nil]
    exact hperm
  reached := by
    rw [h.iBlock, setBlock_iBlock_self]
    exact h.reached
  elsewhere := by
    intro js hlen' hlt hne
    have hjs : js ≠ [] := by
      rintro rfl
      exact hne (List.length_eq_zero_iff.mp (hlen.trans hlen'.symm)).symm
    rw [← hgrown.geometry.indirBlocks] at hlt
    rw [h.iBlock, setBlock_iBlock_self, hb, walk_zero, h.elsewhere js hlen' hlt hne]
    exact walk_of_zeroed (hzero (hlen' ▸ mt List.length_eq_zero_iff.mp hjs)) hjs
  full := h.full

/-- The number of blocks which are missing on the way down from an entry of `i_block`. -/
def missing (fs : Fs) (ip : InodeM) (slot : ℕ) (ks : List ℕ) : ℕ :=
  if ip.iBlock slot = 0 then ks.length + 1 else fs.missingBelow (ip.iBlock slot) ks

theorem Held.bmapFrom (h : Held fs ip others) (hlen : ks.length = levelsOf slot)
    (hks : ∀ k ∈ ks, k < fs.indirBlocks) (hwiped : fs.Wiped (fs.missing ip slot ks - 1))
    (hnodup : (nodes fs.pointer fs.indirBlocks (levelsOf slot) (ip.iBlock slot)).Nodup)
    (hsub : ∀ c ∈ nodes fs.pointer fs.indirBlocks (levelsOf slot) (ip.iBlock slot),
      c ∈ ip.allocated) :
    ∃ r fs' ip' news, fs.bmapFrom ip true slot ks = .ok (r, fs', ip') ∧
      SlotGrown fs ip others slot ks r fs' ip' news := by
  unfold missing at hwiped
  by_cases hb : ip.iBlock slot = 0
  · rw [if_pos hb, Nat.add_sub_cancel] at hwiped
    obtain ⟨new, fs₁, ip₁, hballoc, hgrown, hiBlock, _, hwiped₁, hfull, hzero⟩ :=
      h.ballocWiped hwiped
    rw [hlen] at hzero
    rw [bmapFrom_missing hb hballoc]
    by_cases hnew : new = 0
    · subst hnew
      rw [if_pos rfl] at hgrown
      refine ⟨0, _, _, [], bmapLevels_zero, (hgrown.setBlock slot 0).mono ?_, ?_, ?_, ?_, ?_, hfull⟩
      · exact fun c _ hc => (List.not_mem_nil hc).elim
      · intro i hi
        rw [setBlock_iBlock_of_ne hi, hiBlock]
      · rw [setBlock_iBlock_self, hb, nodes_zero, nodes_zero]
        exact List.Perm.refl _
      · rw [setBlock_iBlock_self, walk_zero]
      · intro js _ _ _
        rw [setBlock_iBlock_self, hb, walk_zero, walk_zero]
    · rw [if_neg hnew] at hgrown
      have hnodes := nodes_of_zeroed (d := levelsOf slot) (n := fs₁.indirBlocks) hnew hzero
      obtain ⟨r, fs', ip', news, hrun, htree⟩ := (hgrown.setBlock slot new).held.bmapLevels hlen
        (by rw [hgrown.geometry.indirBlocks]; exact hks) (hwiped₁.missingBelow new) hnew
        (by rw [hnodes]; exact List.nodup_singleton new)
        (by
          rw [hnodes, (hgrown.setBlock slot new).allocated]
          intro c hc
          exact List.mem_append_left _ hc)
      exact ⟨r, fs', ip', news ++ [new], hrun,
        htree.planted hb hlen hgrown hiBlock hnew hzero⟩
  · rw [if_neg hb] at hwiped
    obtain ⟨r, fs', ip', news, hrun, htree⟩ := h.bmapLevels hlen hks hwiped hb hnodup hsub
    rw [bmapFrom_present hb]
    exact ⟨r, fs', ip', news, hrun, htree.toSlot⟩

/-! ## The whole file -/

/-- The blocks handed out for the inode are those below `i_block`. -/
structure Owns (fs : Fs) (ip : InodeM) (others : List ℕ) : Prop where
  held : Held fs ip others
  tree : (fileBlocks fs ip).Perm ip.allocated

theorem Owns.nodup_fileBlocks (h : Owns fs ip others) : (fileBlocks fs ip).Nodup :=
  h.tree.nodup_iff.mpr (List.nodup_append.mp h.held.use.nodup).1

theorem slot_subset (hslot : slot < 15) (hb : b ∈ nodes fs.pointer fs.indirBlocks (levelsOf slot)
    (ip.iBlock slot)) : b ∈ fileBlocks fs ip :=
  List.mem_flatMap.mpr ⟨slot, List.mem_range.mpr hslot, hb⟩

theorem Owns.slot_allocated (h : Owns fs ip others) (hslot : slot < 15)
    (hb : b ∈ nodes fs.pointer fs.indirBlocks (levelsOf slot) (ip.iBlock slot)) :
    b ∈ ip.allocated := h.tree.subset (slot_subset hslot hb)

theorem Owns.nodup_slot (h : Owns fs ip others) (hslot : slot < 15) :
    (nodes fs.pointer fs.indirBlocks (levelsOf slot) (ip.iBlock slot)).Nodup :=
  (List.nodup_flatMap.mp h.nodup_fileBlocks).1 slot (List.mem_range.mpr hslot)

/-- The inner blocks below the other entries keep their entries. -/
theorem SlotGrown.other_slot {r i : ℕ} (h : Owns fs ip others) (hslot : slot < 15)
    (hgrown : SlotGrown fs ip others slot ks r fs' ip' news) (hi : i < 15) (hne : i ≠ slot) :
    ∀ c ∈ index fs.pointer fs.indirBlocks (levelsOf i) (ip.iBlock i), ∀ k < fs.indirBlocks,
      fs'.pointer c k = fs.pointer c k := by
  intro c hc k _
  have hnode := index_subset hc
  apply hgrown.grown.pointer (List.mem_append_left _ (h.slot_allocated hi hnode))
  intro hin
  exact disjoint_of_nodup_flatMap
    (f := fun m => nodes fs.pointer fs.indirBlocks (levelsOf m) (ip.iBlock m)) h.nodup_fileBlocks
    (List.mem_range.mpr hi) (List.mem_range.mpr hslot) hne hnode (index_subset hin)

theorem SlotGrown.owns {r : ℕ} (h : Owns fs ip others) (hslot : slot < 15)
    (hgrown : SlotGrown fs ip others slot ks r fs' ip' news) : Owns fs' ip' others where
  held := hgrown.grown.held
  tree := by
    rw [hgrown.grown.allocated]
    refine List.Perm.trans ?_ (h.tree.append_left news)
    unfold fileBlocks
    rw [hgrown.grown.geometry.indirBlocks]
    apply flatMap_perm_append List.nodup_range (List.mem_range.mpr hslot) hgrown.perm
    intro i hi hne
    rw [hgrown.iBlock i hne]
    exact nodes_congr (hgrown.other_slot h hslot (List.mem_range.mp hi) hne)

/-! ## The place of an offset -/

/-- The offset lies in the direct blocks, in the doubly indirect range, or in the part of the
triply indirect range whose second index is in bounds. -/
def Mapped (fs : Fs) (off : ℕ) : Prop :=
  let lblk := off / fs.sb.blocksize
  lblk ≤ 11 ∨ fs.indirBlocks + 12 ≤ lblk ∧
    (lblk < fs.dindirBlocks + fs.indirBlocks + 12 ∨
      lblk - (12 + fs.indirBlocks + fs.dindirBlocks) < fs.dindirBlocks)

instance (fs : Fs) (off : ℕ) : Decidable (fs.Mapped off) := inferInstanceAs (Decidable (_ ∨ _))

/-- The entry of `i_block` and the indices below it. -/
def slotPath (fs : Fs) (off : ℕ) : ℕ × List ℕ :=
  let lblk := off / fs.sb.blocksize
  if lblk ≤ 11 then (lblk, [])
  else if lblk < fs.dindirBlocks + fs.indirBlocks + 12 then
    let l := lblk - (12 + fs.indirBlocks)
    (InodeM.dindirectBlock, [l / fs.indirBlocks, l % fs.indirBlocks])
  else
    let l := lblk - (12 + fs.indirBlocks + fs.dindirBlocks)
    (InodeM.tindirectBlock, [l / fs.dindirBlocks, l / fs.indirBlocks, l % fs.indirBlocks])

variable {off : ℕ}

theorem bmapCreate_eq {create : Bool} (h : fs.Mapped off) :
    fs.bmapCreate ip off create = fs.bmapFrom ip create (fs.slotPath off).1 (fs.slotPath off).2 := by
  unfold Mapped at h
  unfold bmapCreate slotPath
  dsimp only at h ⊢
  by_cases hdirect : off / fs.sb.blocksize ≤ 11
  · rw [if_pos hdirect, if_pos hdirect]
  · have hbeyond := h.resolve_left hdirect
    rw [if_neg hdirect, if_neg hdirect, if_neg (by omega)]
    by_cases hdindir : off / fs.sb.blocksize < fs.dindirBlocks + fs.indirBlocks + 12
    · rw [if_pos hdindir, if_pos hdindir]
      rfl
    · rw [if_neg hdindir, if_neg hdindir]
      exact if_neg (by omega)

theorem slotPath_slot : (fs.slotPath off).1 < 15 := by
  unfold slotPath InodeM.dindirectBlock InodeM.tindirectBlock
  dsimp only
  split
  · omega
  · split <;> omega

theorem slotPath_length : (fs.slotPath off).2.length = levelsOf (fs.slotPath off).1 := by
  unfold slotPath levelsOf InodeM.dindirectBlock InodeM.tindirectBlock
  dsimp only
  split
  next h => exact (Nat.sub_eq_zero_of_le h).symm
  next => split <;> rfl

theorem indirBlocks_pos (h : 0 < fs.dindirBlocks) : 0 < fs.indirBlocks := by
  apply Nat.pos_of_ne_zero
  intro hzero
  unfold dindirBlocks at h
  rw [hzero] at h
  exact Nat.lt_irrefl 0 h

theorem slotPath_lt (h : fs.Mapped off) : ∀ k ∈ (fs.slotPath off).2, k < fs.indirBlocks := by
  have hle : fs.dindirBlocks ≤ fs.indirBlocks * fs.indirBlocks := Nat.mod_le _ _
  unfold Mapped at h
  unfold slotPath
  dsimp only at h ⊢
  split
  next => exact fun k hk => (List.not_mem_nil hk).elim
  next hdirect =>
    have hbeyond := h.resolve_left hdirect
    split
    next hdindir =>
      have hl : off / fs.sb.blocksize - (12 + fs.indirBlocks) < fs.dindirBlocks := by omega
      have hpos := indirBlocks_pos (Nat.zero_lt_of_lt hl)
      intro k hk
      simp only [List.mem_cons, List.not_mem_nil, or_false] at hk
      rcases hk with rfl | rfl
      · exact (Nat.div_lt_iff_lt_mul hpos).mpr (hl.trans_le hle)
      · exact Nat.mod_lt _ hpos
    next hdindir =>
      have hl : off / fs.sb.blocksize - (12 + fs.indirBlocks + fs.dindirBlocks) <
          fs.dindirBlocks := by omega
      have hpos := indirBlocks_pos (Nat.zero_lt_of_lt hl)
      intro k hk
      simp only [List.mem_cons, List.not_mem_nil, or_false] at hk
      rcases hk with rfl | rfl | rfl
      · rw [Nat.div_eq_of_lt hl]
        exact hpos
      · exact (Nat.div_lt_iff_lt_mul hpos).mpr (hl.trans_le hle)
      · exact Nat.mod_lt _ hpos

/-- The index blocks which `ext2_create_block` has to add for the offset are found as zeros. -/
def IndexWiped (fs : Fs) (ip : InodeM) (off : ℕ) : Prop :=
  fs.Wiped (fs.missing ip (fs.slotPath off).1 (fs.slotPath off).2 - 1)

/-- No index block is needed for a direct block. -/
theorem indexWiped_of_direct (h : off / fs.sb.blocksize ≤ 11) : fs.IndexWiped ip off := by
  have hpath : fs.slotPath off = (off / fs.sb.blocksize, []) := if_pos h
  have hnone : fs.missing ip (off / fs.sb.blocksize) [] - 1 = 0 := by
    unfold missing missingBelow
    split <;> rfl
  unfold IndexWiped
  rw [hpath]
  dsimp only
  rw [hnone]
  exact fun i hi => (Nat.not_lt_zero i hi).elim

theorem Owns.createBlock (h : Owns fs ip others) (hoff : fs.Mapped off)
    (hwiped : fs.IndexWiped ip off) :
    ∃ r fs' ip' news, fs.createBlock ip off = .ok (r, fs', ip') ∧
      SlotGrown fs ip others (fs.slotPath off).1 (fs.slotPath off).2 r fs' ip' news := by
  unfold Fs.createBlock
  rw [bmapCreate_eq hoff]
  exact h.held.bmapFrom slotPath_length (slotPath_lt hoff) hwiped (h.nodup_slot slotPath_slot)
    fun _ => h.slot_allocated slotPath_slot

end Fs

end Yak.Ext2
