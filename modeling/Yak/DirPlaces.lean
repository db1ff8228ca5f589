import Yak.DirAdd

/-!
# The search for the place of a new entry

In a block whose records form a chain the loop of `ext2_add_dir_entry` comes to the last record.
When this is shorter than the new record, it goes on in the block of the running offset, which is
the same block or the next one.
-/

namespace Yak.Ext2

open ByteBitmap WordMemory RecordChain BoundedLoop

variable {fs fs' : Fs} {dir dir' : InodeM} {ip : Linked} {name : Name} {blk : Bytes}
  {size b i len off p q r : ℕ} {xs : List ℕ} {others : List ℕ}

/-! ## The last record of a block -/

def lastRecord (size : ℕ) (blk : Bytes) : ℕ := (records size blk).getLastD 0

theorem WellFormed.last (h : WellFormed size blk) (hsize : 0 < size) :
    ∃ xs, records size blk = xs ++ [lastRecord size blk] := by
  have hne : records size blk ≠ [] := by
    intro hnil
    have hchain := h.1
    rw [hnil] at hchain
    have hzero : 0 = size := hchain
    omega
  refine ⟨(records size blk).dropLast, ?_⟩
  unfold lastRecord
  rw [List.getLastD_eq_getLast?, List.getLast?_eq_some_getLast hne, Option.getD_some,
    List.dropLast_append_getLast hne]

theorem WellFormed.last_bounds (h : WellFormed size blk) (hsize : 0 < size) :
    RecordOk blk (lastRecord size blk) ∧
      lastRecord size blk + dRecLen blk (lastRecord size blk) = size := by
  obtain ⟨xs, hxs⟩ := h.last hsize
  have hchain := h.1
  have hok := h.2
  rw [hxs] at hchain hok
  exact ⟨hok _ (List.mem_append_right _ (List.mem_singleton_self _)),
    hchain.split.2.eq_singleton.2⟩

/-! ## Turns of the loop -/

theorem addStep_inside (hp : p < fs.sb.blocksize) :
    addStep ip name ⟨fs, dir, b, off, p⟩ =
      if fs.sb.blocksize < p + headerSize then .error .outOfBounds
      else if fs.sb.blocksize ≤ p + dRecLen (fs.blocks b) p ∧
          newRecLen name.length ≤ dRecLen (fs.blocks b) p then do
        let blk ← splitRecord fs.sb.blocksize (fs.blocks b) p ip name
        .ok (.inl ⟨0, fs.setBlock b blk, dir, [b], [b]⟩)
      else if fs.sb.blocksize ≤ p + dRecLen (fs.blocks b) p then do
        let (block, fs, dir) ← fs.createBlock dir (offT fs.sb.blocksize off)
        .ok (.inr ⟨fs, dir, block, off, 0⟩)
      else .ok (.inr ⟨fs, dir, b, (off + dRecLen (fs.blocks b) p) % 2 ^ 32,
        p + dRecLen (fs.blocks b) p⟩) := by
  unfold addStep
  dsimp only
  rw [if_neg (Nat.not_le.mpr hp), ok_bind]

theorem next_record (hheader : p + headerSize ≤ fs.sb.blocksize)
    (hlast : p + dRecLen (fs.blocks b) p < fs.sb.blocksize) :
    Next (addStep ip name) ⟨fs, dir, b, off, p⟩
      ⟨fs, dir, b, (off + dRecLen (fs.blocks b) p) % 2 ^ 32, p + dRecLen (fs.blocks b) p⟩ := by
  unfold Next
  rw [addStep_inside (by omega), if_neg (by omega), if_neg (by omega), if_neg (by omega)]

/-- The loop comes to the last record of a block. -/
theorem leads_to_last (h : Chain (dRecLen (fs.blocks b)) fs.sb.blocksize p (xs ++ [q]))
    (hok : ∀ x ∈ xs, RecordOk (fs.blocks b) x) (hoff : off + (fs.sb.blocksize - p) ≤ 2 ^ 32) :
    Relation.ReflTransGen (Next (addStep ip name)) ⟨fs, dir, b, off, p⟩
      ⟨fs, dir, b, off + (q - p), q⟩ := by
  induction xs generalizing off p with
  | nil =>
      obtain ⟨rfl, -⟩ := h.eq_singleton
      rw [Nat.sub_self, Nat.add_zero]
  | cons x xs ih =>
      obtain rfl := h.head
      have hx := (hok x List.mem_cons_self).2
      have hcut : Chain (dRecLen (fs.blocks b)) q x (x :: xs) ∧
          Chain (dRecLen (fs.blocks b)) fs.sb.blocksize q [q] := h.split
      have hle := hcut.1.tail.le
      have hlt : x + dRecLen (fs.blocks b) x < fs.sb.blocksize := hle.trans_lt hcut.2.lt
      have hnext : Next (addStep ip name) ⟨fs, dir, b, off, x⟩ _ :=
        next_record (by unfold headerSize at *; omega) hlt
      rw [Nat.mod_eq_of_lt (by omega)] at hnext
      refine Relation.ReflTransGen.head hnext ?_
      have hrest : Relation.ReflTransGen (Next (addStep ip name))
          ⟨fs, dir, b, off + dRecLen (fs.blocks b) x, x + dRecLen (fs.blocks b) x⟩
          ⟨fs, dir, b, off + dRecLen (fs.blocks b) x + (q - (x + dRecLen (fs.blocks b) x)), q⟩ :=
        ih h.tail (fun y hy => hok y (List.mem_cons_of_mem x hy)) (by omega)
      have hsum : off + dRecLen (fs.blocks b) x + (q - (x + dRecLen (fs.blocks b) x)) =
          off + (q - x) := by omega
      rwa [hsum] at hrest

theorem leads_through (h : WellFormed fs.sb.blocksize (fs.blocks b)) (hsize : 0 < fs.sb.blocksize)
    (hoff : off + fs.sb.blocksize ≤ 2 ^ 32) :
    Relation.ReflTransGen (Next (addStep ip name)) ⟨fs, dir, b, off, 0⟩
      ⟨fs, dir, b, off + lastRecord fs.sb.blocksize (fs.blocks b),
        lastRecord fs.sb.blocksize (fs.blocks b)⟩ := by
  obtain ⟨xs, hxs⟩ := h.last hsize
  have hchain := h.1
  have hok := h.2
  rw [hxs] at hchain hok
  exact leads_to_last hchain (fun x hx => hok x (List.mem_append_left _ hx)) hoff

/-! ## At the last record -/

/-- The last record of the block is shorter than the new one. -/
def Full (size : ℕ) (blk : Bytes) (len : ℕ) : Prop :=
  dRecLen blk (lastRecord size blk) < newRecLen len

instance (size : ℕ) (blk : Bytes) (len : ℕ) : Decidable (Full size blk len) :=
  inferInstanceAs (Decidable (_ < _))

/-- The last record has room for the new one. -/
def Roomy (size : ℕ) (blk : Bytes) (len : ℕ) : Prop := HasRoom blk (lastRecord size blk) len

instance (size : ℕ) (blk : Bytes) (len : ℕ) : Decidable (Roomy size blk len) :=
  inferInstanceAs (Decidable (HasRoom _ _ _))

/-- The block with the new entry. -/
def placedBlock (size : ℕ) (blk : Bytes) (ip : Linked) (name : Name) : Bytes :=
  splitBlock size blk (lastRecord size blk) ip name

section Last

variable (hwf : WellFormed fs.sb.blocksize (fs.blocks b)) (hsize : 0 < fs.sb.blocksize)
  (hoff : off + fs.sb.blocksize ≤ 2 ^ 32)

include hwf hsize hoff

theorem settles_of_roomy (hfull : ¬Full fs.sb.blocksize (fs.blocks b) name.length)
    (hroom : Roomy fs.sb.blocksize (fs.blocks b) name.length) :
    Settles .endless (addStep ip name) ⟨fs, dir, b, off, 0⟩
      (.ok ⟨0, fs.setBlock b (placedBlock fs.sb.blocksize (fs.blocks b) ip name), dir, [b],
        [b]⟩) := by
  obtain ⟨xs, hxs⟩ := hwf.last hsize
  obtain ⟨hok, hend⟩ := hwf.last_bounds hsize
  have hchain := hwf.1
  rw [hxs] at hchain
  have hsplit : splitRecord fs.sb.blocksize (fs.blocks b) _ ip name = _ :=
    splitRecord_room hchain hroom
  apply Settles.of_leads (leads_through hwf hsize hoff)
  apply settles_of_ok
  unfold Full at hfull
  unfold RecordOk headerSize at hok
  have hlast : fs.sb.blocksize ≤ lastRecord fs.sb.blocksize (fs.blocks b) +
      dRecLen (fs.blocks b) (lastRecord fs.sb.blocksize (fs.blocks b)) := hend.ge
  rw [addStep_inside (by omega), if_neg (by unfold headerSize; omega),
    if_pos ⟨hlast, Nat.not_lt.mp hfull⟩, hsplit]
  rfl

theorem settles_of_not_roomy (hfull : ¬Full fs.sb.blocksize (fs.blocks b) name.length)
    (hroom : ¬Roomy fs.sb.blocksize (fs.blocks b) name.length) :
    Settles .endless (addStep ip name) ⟨fs, dir, b, off, 0⟩ (.error .outOfBounds) := by
  obtain ⟨xs, hxs⟩ := hwf.last hsize
  obtain ⟨hok, hend⟩ := hwf.last_bounds hsize
  have hchain := hwf.1
  rw [hxs] at hchain
  have hsplit : splitRecord fs.sb.blocksize (fs.blocks b) _ ip name = _ :=
    splitRecord_no_room hchain hok hroom
  apply Settles.of_leads (leads_through hwf hsize hoff)
  apply settles_of_error
  unfold Full at hfull
  unfold RecordOk headerSize at hok
  have hlast : fs.sb.blocksize ≤ lastRecord fs.sb.blocksize (fs.blocks b) +
      dRecLen (fs.blocks b) (lastRecord fs.sb.blocksize (fs.blocks b)) := hend.ge
  rw [addStep_inside (by omega), if_neg (by unfold headerSize; omega),
    if_pos ⟨hlast, Nat.not_lt.mp hfull⟩, hsplit]
  rfl

/-- From a full block on, the loop goes to the block of the running offset. -/
theorem leads_of_full (hfull : Full fs.sb.blocksize (fs.blocks b) name.length) {r : ℕ × Fs × InodeM}
    (hcreate : fs.createBlock dir
      (offT fs.sb.blocksize (off + lastRecord fs.sb.blocksize (fs.blocks b))) = .ok r) :
    Relation.ReflTransGen (Next (addStep ip name)) ⟨fs, dir, b, off, 0⟩
      ⟨r.2.1, r.2.2, r.1, off + lastRecord fs.sb.blocksize (fs.blocks b), 0⟩ := by
  obtain ⟨hok, hend⟩ := hwf.last_bounds hsize
  refine (leads_through hwf hsize hoff).tail ?_
  unfold Full at hfull
  unfold RecordOk headerSize at hok
  have hlast : fs.sb.blocksize ≤ lastRecord fs.sb.blocksize (fs.blocks b) +
      dRecLen (fs.blocks b) (lastRecord fs.sb.blocksize (fs.blocks b)) := hend.ge
  unfold Next
  rw [addStep_inside (by omega), if_neg (by unfold headerSize; omega),
    if_neg fun hboth => Nat.not_le.mpr hfull hboth.2, if_pos hlast, hcreate]
  rfl

end Last

/-! ## A record of length 0 -/

/-- The loop does not leave a record of length 0. -/
theorem endless_of_recLen_zero (hsize : headerSize ≤ fs.sb.blocksize)
    (hlen : dRecLen (fs.blocks b) 0 = 0) :
    Endless .endless (addStep ip name) ⟨fs, dir, b, off, 0⟩ := by
  have hpos : 0 < fs.sb.blocksize := lt_of_lt_of_le (by decide) hsize
  refine endless_of_invariant (fun s => ∃ o, s = AddState.mk fs dir b o 0) ?_ ⟨off, rfl⟩
  rintro s ⟨o, rfl⟩
  have hnext : Next (addStep ip name) ⟨fs, dir, b, o, 0⟩ _ := next_record (by omega) (by omega)
  rw [hlen] at hnext
  exact ⟨_, hnext, _, rfl⟩

namespace Fs

theorem Held.ballocFor_found (h : Held fs dir others) {new : ℕ}
    (hrun : fs.ballocFor dir = .ok (new, fs', dir')) :
    ∃ found, fs.ballocGroups dir.iNum = .ok found ∧
      (fs.Allocates found ∨ found = (0, fs) ∧ fs.sb.sFreeBlocksCount = 0) ∧ new = found.1 ∧
      fs' = found.2.handOut found.1 := by
  obtain ⟨found, hgroups, hfound⟩ :=
    h.use.fs.counted.ballocGroups (inodeGroup_lt h.use.fs.accepted h.number.1 h.number.2)
  unfold Fs.ballocFor Fs.balloc at hrun
  rw [hgroups] at hrun
  have hpair := Prod.mk.inj (Except.ok.inj hrun)
  exact ⟨found, hgroups, hfound, hpair.1.symm, (Prod.mk.inj hpair.2).1.symm⟩

/-- Nothing is handed out exactly if the superblock counts no free block. -/
theorem Held.ballocFor_zero_iff (h : Held fs dir others) {new : ℕ}
    (hrun : fs.ballocFor dir = .ok (new, fs', dir')) : new = 0 ↔ fs.sb.sFreeBlocksCount = 0 := by
  obtain ⟨found, hgroups, hfound, rfl, -⟩ := h.ballocFor_found hrun
  constructor
  · intro hzero
    rcases hfound with ⟨g, off, -, -, -, -, hne, rfl⟩ | ⟨-, hfree⟩
    · exact (hne hzero).elim
    · exact hfree
  · intro hfree
    unfold Fs.ballocGroups at hgroups
    rw [if_pos hfree] at hgroups
    rw [← Except.ok.inj hgroups]

theorem Held.ballocFor_changed (h : Held fs dir others) {new : ℕ}
    (hrun : fs.ballocFor dir = .ok (new, fs', dir')) (hb : b ≠ new)
    (hchange : fs'.blocks b ≠ fs.blocks b) :
    ∃ g < fs.nrBlkGroup, b = (fs.bgdTable g).bgBlockBitmap := by
  obtain ⟨found, -, hfound, rfl, rfl⟩ := h.ballocFor_found hrun
  have hsame : (found.2.handOut found.1).blocks b = found.2.blocks b :=
    Function.update_of_ne hb _ _
  rw [hsame] at hchange
  rcases hfound with ⟨g, off, hg, -, -, -, -, rfl⟩ | ⟨rfl, -⟩
  · refine ⟨g, hg, ?_⟩
    by_contra hne
    exact hchange (Function.update_of_ne hne _ _)
  · exact (hchange rfl).elim

/-! ## Direct blocks -/

theorem createBlock_direct (hoff : off / fs.sb.blocksize = i) (hi : i ≤ 11) :
    fs.createBlock dir off = fs.bmapFrom dir true i [] := by
  unfold createBlock bmapCreate
  dsimp only
  rw [hoff, if_pos hi]

theorem createBlock_present (hoff : off / fs.sb.blocksize = i) (hi : i ≤ 11)
    (hb : dir.iBlock i ≠ 0) : fs.createBlock dir off = .ok (dir.iBlock i, fs, dir) := by
  rw [createBlock_direct hoff hi, bmapFrom_present hb]
  rfl

theorem createBlock_missing {new : ℕ} (hoff : off / fs.sb.blocksize = i) (hi : i ≤ 11)
    (hb : dir.iBlock i = 0) (hballoc : fs.ballocFor dir = .ok (new, fs', dir')) :
    fs.createBlock dir off = .ok (new, fs', dir'.setBlock i new) := by
  rw [createBlock_direct hoff hi, bmapFrom_missing hb hballoc]
  rfl

/-- Where a block is in use, blocks have at least 1 KiB. -/
theorem Held.blocksize_ge (h : Held fs dir others) (hb : b ∈ dir.allocated) :
    1024 ≤ fs.sb.blocksize := by
  have hindex := (h.use.described b (List.mem_append_left _ hb)).index
  apply Superblock.blocksize_ge
  intro hzero
  have hbits : fs.bitsPerBlock = 0 := by
    unfold bitsPerBlock
    rw [hzero]
  have hle := lt_bitsPerBlock hindex
  rw [hbits] at hle
  cases hle

theorem Owns.blocksize_ge (h : Owns fs dir others) (hi : i < 15) (hb : dir.iBlock i ≠ 0) :
    1024 ≤ fs.sb.blocksize :=
  h.held.blocksize_ge (h.slot_allocated hi (IndexTree.self_mem_nodes hb))

end Fs

/-! ## The direct block at which the search stops -/

/-- The first direct block which is missing or not full. -/
structure StopsAt (fs : Fs) (dir : InodeM) (len i : ℕ) : Prop where
  direct : i < 12
  within : (i + 1) * fs.sb.blocksize ≤ 2 ^ 31
  full : ∀ j < i, dir.iBlock j ≠ 0 ∧ Full fs.sb.blocksize (fs.blocks (dir.iBlock j)) len
  stop : dir.iBlock i = 0 ∨ ¬Full fs.sb.blocksize (fs.blocks (dir.iBlock i)) len

theorem StopsAt.congr (h : StopsAt fs dir len i) (hsize : fs'.sb.blocksize = fs.sb.blocksize)
    (hblocks : ∀ j < 12, dir.iBlock j ≠ 0 →
      fs'.blocks (dir.iBlock j) = fs.blocks (dir.iBlock j)) : StopsAt fs' dir len i := by
  refine ⟨h.direct, ?_, fun j hj => ?_, ?_⟩
  · rw [hsize]
    exact h.within
  · obtain ⟨hne, hfull⟩ := h.full j hj
    rw [hsize, hblocks j (hj.trans h.direct) hne]
    exact ⟨hne, hfull⟩
  · by_cases hb : dir.iBlock i = 0
    · exact Or.inl hb
    · rw [hsize, hblocks i h.direct hb]
      exact Or.inr (h.stop.resolve_left hb)

/-- There is no first block, or the search stops at a block which is missing. -/
def NeedsBlock (fs : Fs) (dir : InodeM) (len : ℕ) : Prop :=
  dir.iBlock 0 = 0 ∨ ∃ i, StopsAt fs dir len i ∧ dir.iBlock i = 0

/-- A block which has to be added is found with a blank first record of length 0, as in a block of
zeros. -/
def FindsBlank (fs : Fs) (dir : InodeM) (len : ℕ) : Prop :=
  NeedsBlock fs dir len → dInode (fs.found 0) 0 = 0 ∧ dRecLen (fs.found 0) 0 = 0

/-- All direct blocks with offsets below 2 GiB are there, and they are full. -/
def SearchLeaves (fs : Fs) (dir : InodeM) (len : ℕ) : Prop :=
  ∀ i < 12, (i + 1) * fs.sb.blocksize ≤ 2 ^ 31 →
    dir.iBlock i ≠ 0 ∧ Full fs.sb.blocksize (fs.blocks (dir.iBlock i)) len

theorem exists_stopsAt (h : ¬SearchLeaves fs dir len) : ∃ i, StopsAt fs dir len i := by
  classical
  have hsome : ∃ i, ¬(i < 12 → (i + 1) * fs.sb.blocksize ≤ 2 ^ 31 →
      dir.iBlock i ≠ 0 ∧ Full fs.sb.blocksize (fs.blocks (dir.iBlock i)) len) :=
    not_forall.mp h
  have hfirst := Nat.find_spec hsome
  have hbefore := fun j => Nat.find_min hsome (m := j)
  generalize Nat.find hsome = i at hfirst hbefore
  simp only [Classical.not_imp] at hfirst
  obtain ⟨hi, hwithin, hnot⟩ := hfirst
  refine ⟨i, hi, hwithin, ?_, ?_⟩
  · intro j hj
    have hle : (j + 1) * fs.sb.blocksize ≤ (i + 1) * fs.sb.blocksize :=
      Nat.mul_le_mul_right _ (by omega)
    exact not_not.mp (hbefore j hj) (by omega) (hle.trans hwithin)
  · by_cases hb : dir.iBlock i = 0
    · exact Or.inl hb
    · exact Or.inr fun hfull => hnot ⟨hb, hfull⟩

/-! ## The whole search -/

section Search

variable (hown : Fs.Owns fs dir others) (hwf : fs.WellFormedDir dir) (hname : NameOk name)
  (hstop : StopsAt fs dir name.length i)

include hown hwf hname hstop

/-- From a full block on, the loop comes to the call of `ext2_create_block` for the block at which
the search stops.  With every block the offset grows by less than a block. -/
theorem leads_to_stop (ip : Linked) (off : ℕ) (hlt : off / fs.sb.blocksize < i) :
    ∃ off', off' / fs.sb.blocksize = i ∧ off' < 2 ^ 31 ∧
      ∀ r, fs.createBlock dir off' = .ok r →
        Relation.ReflTransGen (Next (addStep ip name))
          ⟨fs, dir, dir.iBlock (off / fs.sb.blocksize), off, 0⟩ ⟨r.2.1, r.2.2, r.1, off', 0⟩ := by
  induction hrest : i * fs.sb.blocksize - off using Nat.strong_induction_on generalizing off with
  | _ rest ih =>
      obtain ⟨hne, hfull⟩ := hstop.full _ hlt
      have hsize := hown.blocksize_ge ((hlt.trans hstop.direct).trans (by decide)) hne
      have hpos : 0 < fs.sb.blocksize := by omega
      have hblock := hwf _ (Fs.direct_mem_dataBlocks (hlt.trans hstop.direct) hne)
      obtain ⟨hok, hend⟩ := hblock.last_bounds hpos
      have hbelow : off < i * fs.sb.blocksize := (Nat.div_lt_iff_lt_mul hpos).mp hlt
      have hwithin := hstop.within
      rw [Nat.add_one_mul] at hwithin
      have hthere : ∀ r, fs.createBlock dir (offT fs.sb.blocksize
          (off + lastRecord fs.sb.blocksize (fs.blocks (dir.iBlock (off / fs.sb.blocksize))))) = .ok r →
          Relation.ReflTransGen (Next (addStep ip name))
            ⟨fs, dir, dir.iBlock (off / fs.sb.blocksize), off, 0⟩ _ :=
        fun r hr => leads_of_full hblock hpos (by omega) hfull hr
      have hneed := newRecLen_bounds name.length
      have hmax := hname.2
      unfold Full at hfull
      unfold RecordOk headerSize at hok
      unfold maxNameLen at hmax
      generalize hq : lastRecord fs.sb.blocksize (fs.blocks (dir.iBlock (off / fs.sb.blocksize))) = q
        at hok hend hfull hthere
      have hoffT : offT fs.sb.blocksize (off + q) = off + q := if_pos (by omega)
      rw [hoffT] at hthere
      -- less than a block further on
      have hstep : (off + q) / fs.sb.blocksize ≤ i := by
        have hdiv : (off + q) / fs.sb.blocksize < i + 1 := by
          rw [Nat.div_lt_iff_lt_mul hpos, Nat.add_one_mul]
          omega
        omega
      rcases Nat.lt_or_eq_of_le hstep with hagain | hdone
      · obtain ⟨hne', -⟩ := hstop.full _ hagain
        have hcreate := Fs.createBlock_present rfl
          (Nat.le_of_lt_succ (hagain.trans hstop.direct)) hne'
        have hshorter : i * fs.sb.blocksize - (off + q) < rest := by omega
        obtain ⟨off', hoff', hlimit, hleads⟩ := ih _ hshorter _ hagain rfl
        exact ⟨off', hoff', hlimit, fun r hr => (hthere _ hcreate).trans (hleads r hr)⟩
      · exact ⟨off + q, hdone, by omega, hthere⟩

theorem leads_to_present (ip : Linked) (hb : dir.iBlock i ≠ 0) :
    ∃ off, off + fs.sb.blocksize ≤ 2 ^ 32 ∧
      Relation.ReflTransGen (Next (addStep ip name)) ⟨fs, dir, dir.iBlock 0, 0, 0⟩
        ⟨fs, dir, dir.iBlock i, off, 0⟩ := by
  have hsize := fs.sb.blocksize_lt
  have hwithin := hstop.within
  rw [Nat.add_one_mul] at hwithin
  have hzero : 0 / fs.sb.blocksize = 0 := Nat.zero_div _
  rcases Nat.eq_zero_or_pos i with rfl | hpos
  · exact ⟨0, by omega, Relation.ReflTransGen.refl⟩
  · obtain ⟨off, hoff, hlimit, hleads⟩ := leads_to_stop hown hwf hname hstop ip 0
      (by rw [hzero]; exact hpos)
    have hthere := hleads _ (Fs.createBlock_present hoff (Nat.le_of_lt_succ hstop.direct) hb)
    rw [hzero] at hthere
    exact ⟨off, by omega, hthere⟩

/-- When the block is missing, the loop comes to the new one, or to block 0. -/
theorem endless_of_missing (hfirst : dir.iBlock 0 ≠ 0) (hb : dir.iBlock i = 0)
    (hblank : dRecLen (fs.found 0) 0 = 0) :
    Endless .endless (addStep ip name) ⟨fs, dir, dir.iBlock 0, 0, 0⟩ := by
  have hpos : 0 < i := by
    rcases Nat.eq_zero_or_pos i with rfl | hpos
    · exact (hfirst hb).elim
    · exact hpos
  have hzero : 0 / fs.sb.blocksize = 0 := Nat.zero_div _
  obtain ⟨off, hoff, hlimit, hleads⟩ := leads_to_stop hown hwf hname hstop ip 0
    (by rw [hzero]; exact hpos)
  obtain ⟨new, fs', dir', hballoc, hgrown, -, -, hblock, -⟩ := hown.held.ballocFor
  have hthere := hleads _
    (Fs.createBlock_missing hoff (Nat.le_of_lt_succ hstop.direct) hb hballoc)
  rw [hzero] at hthere
  refine Endless.of_leads hthere (endless_of_recLen_zero ?_ (hblock ▸ hblank))
  have hsize := hown.blocksize_ge (by decide) hfirst
  dsimp only
  rw [hgrown.geometry.blocksize]
  unfold headerSize
  omega

end Search

end Yak.Ext2
