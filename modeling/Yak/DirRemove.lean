import Yak.DirBlocks

/-!
# Removing an entry from a directory block

A transcription of `ext2_remove_dir_entry`.  The first record of the block is compared by its
inode number only, and when it is the one, the rest of the block goes with it.
-/

namespace Yak.Ext2

open ByteBitmap WordMemory RecordChain

def enoent : ℤ := 44

/-- What a routine leaves in a buffer: its code, the contents, and whether it set `B_DWRITE`. -/
structure BlockEdit where
  ret : ℤ
  data : Bytes
  dirty : Bool

/-- The test of the loop: the inode number, then the name. -/
def sameEntry (size : ℕ) (blk : Bytes) (p ino : ℕ) (name : Name) : Except Halt Bool :=
  if size < p + headerSize then .error .outOfBounds
  else if dInode blk p = ino then do
    let flag ← ext2Match size blk p name
    .ok (flag == 0)
  else .ok false

/-- The loop of `ext2_remove_dir_entry`. -/
def removeLoop (size : ℕ) (blk : Bytes) (ino : ℕ) (name : Name) :
    (fuel prev p : ℕ) → Except Halt BlockEdit
  | 0, _, _ => .error .endless
  | fuel + 1, prev, p =>
      if p < size then do
        if ← sameEntry size blk p ino name then
          .ok ⟨0, setRecLen blk prev (dRecLen blk prev + dRecLen blk p), true⟩
        else removeLoop size blk ino name fuel p (p + dRecLen blk p)
      else .ok ⟨-enoent, blk, false⟩

/-- `ext2_remove_dir_entry` -/
def removeDirEntry (size : ℕ) (blk : Bytes) (ino : ℕ) (name : Name) : Except Halt BlockEdit :=
  if size < headerSize then .error .outOfBounds
  else if dInode blk 0 = ino then .ok ⟨0, setRecLen (clearHeader blk 0) 0 size, true⟩
  else removeLoop size blk ino name (size + 1) 0 (dRecLen blk 0)

variable {size ino p q r prev fuel v : ℕ} {blk : Bytes} {name : Name} {ps xs ys : List ℕ}

/-! ## The loop -/

theorem sameEntry_ok (h : Inside size blk p) :
    sameEntry size blk p ino name = .ok (decide (Hit blk ino name p)) := by
  unfold Inside at h
  obtain ⟨r, hrun, hr⟩ := ext2Match_ok name h
  unfold sameEntry Hit
  rw [if_neg (by omega)]
  by_cases hino : dInode blk p = ino
  · rw [if_pos hino, hrun, ok_bind]
    by_cases hzero : r = 0
    · simp [hzero, hino, hr.mp hzero]
    · simp [hzero, mt hr.mpr hzero]
  · rw [if_neg hino]
    simp [hino]

theorem removeLoop_hit (h : Chain (dRecLen blk) size p (xs ++ r :: ys))
    (hinside : ∀ x ∈ xs ++ [r], Inside size blk x) (hmiss : ∀ x ∈ xs, ¬Hit blk ino name x)
    (hhit : Hit blk ino name r) (hfuel : xs.length < fuel) :
    removeLoop size blk ino name fuel prev p = .ok
      ⟨0, setRecLen blk ((prev :: xs).getLast (List.cons_ne_nil _ _))
        (dRecLen blk ((prev :: xs).getLast (List.cons_ne_nil _ _)) + dRecLen blk r), true⟩ := by
  induction xs generalizing p prev fuel with
  | nil =>
      cases fuel with
      | zero => cases hfuel
      | succ fuel =>
          obtain rfl := h.head
          rw [removeLoop, if_pos h.lt, sameEntry_ok (hinside r (List.mem_singleton_self r)), ok_bind,
            decide_eq_true hhit]
          rfl
  | cons x xs ih =>
      cases fuel with
      | zero => cases hfuel
      | succ fuel =>
          obtain rfl := h.head
          rw [removeLoop, if_pos h.lt, sameEntry_ok (hinside x List.mem_cons_self), ok_bind,
            decide_eq_false (hmiss x List.mem_cons_self)]
          exact ih h.tail (fun y hy => hinside y (List.mem_cons_of_mem x hy))
            (fun y hy => hmiss y (List.mem_cons_of_mem x hy)) (Nat.lt_of_succ_lt_succ hfuel)

/-! ## The block afterwards -/

/-- When a record takes in the next one, and the sum of the lengths leads to a chain of records
with the same entries as behind the next one. -/
def Rejoins (size : ℕ) (blk : Bytes) (q r : ℕ) (ys : List ℕ) : Prop :=
  let sum := (dRecLen blk q + dRecLen blk r) % 2 ^ 16
  headerSize + dNameLen blk q ≤ sum ∧
    ∃ zs, Chain (dRecLen blk) size (q + sum) zs ∧ (∀ z ∈ zs, RecordOk blk z) ∧
      (zs.filterMap (entryAt blk)).Perm (ys.filterMap (entryAt blk))

/-- A sum which fits into 16 bits leads to the next record but one. -/
theorem rejoins_of_lt (h : Chain (dRecLen blk) size p (xs ++ q :: r :: ys))
    (hok : ∀ x ∈ q :: r :: ys, RecordOk blk x) (hfit : dRecLen blk q + dRecLen blk r < 2 ^ 16) :
    Rejoins size blk q r ys := by
  have hrest := h.split.2
  have hr := hrest.tail
  obtain rfl := hr.head
  unfold Rejoins
  dsimp only
  rw [Nat.mod_eq_of_lt hfit, ← Nat.add_assoc]
  refine ⟨?_, ys, hr.tail, ?_, List.Perm.refl _⟩
  · have := (hok q List.mem_cons_self).2
    omega
  · intro z hz
    exact hok z (List.mem_cons_of_mem _ (List.mem_cons_of_mem _ hz))

/-- What `ext2_remove_dir_entry` should do: only the entry is gone. -/
def RemovesOnly (size : ℕ) (blk : Bytes) (ino : ℕ) (name : Name) : Prop :=
  ∃ e, removeDirEntry size blk ino name = .ok e ∧ e.ret = 0 ∧ WellFormed size e.data ∧
    (entries size blk).Perm ((name, ino) :: entries size e.data)

/-- Behind a change of the length of `q`, the records in front of it are the same. -/
theorem chain_setRecLen (h : Chain (dRecLen blk) size p (xs ++ q :: ys))
    (hok : ∀ x ∈ xs ++ q :: ys, RecordOk blk x) :
    Chain (dRecLen (setRecLen blk q v)) q p xs ∧
      (∀ x ∈ xs, SameRecord blk (setRecLen blk q v) x) := by
  have hsame : ∀ x ∈ xs, SameRecord blk (setRecLen blk q v) x := by
    intro x hx
    have hbounds := h.before hx
    have hroom := (hok x (List.mem_append_left _ hx)).2
    exact sameRecord_setRecLen (Or.inl (by omega))
  exact ⟨h.split.1.congr fun x hx => (hsame x hx).header.dRecLen, hsame⟩

theorem filterMap_sameRecord {blk' : Bytes} (h : ∀ x ∈ xs, SameRecord blk blk' x) :
    xs.filterMap (entryAt blk') = xs.filterMap (entryAt blk) :=
  List.filterMap_congr fun x hx => (h x hx).entryAt

section Joined

variable (h : Chain (dRecLen blk) size 0 (xs ++ q :: r :: ys))
  (hok : ∀ x ∈ xs ++ q :: r :: ys, RecordOk blk x) (hr : entryAt blk r = some (name, ino))

include h hok

theorem filterMap_joined (zs : List ℕ) :
    (xs ++ q :: zs).filterMap (entryAt (setRecLen blk q v)) =
      (xs ++ [q]).filterMap (entryAt blk) ++ zs.filterMap (entryAt (setRecLen blk q v)) := by
  rw [List.append_cons, List.filterMap_append, List.filterMap_append, List.filterMap_append,
    filterMap_sameRecord (chain_setRecLen h hok).2]
  simp [List.filterMap_cons]

include hr

omit hok in
theorem entries_joined : entries size blk =
    (xs ++ [q]).filterMap (entryAt blk) ++ (name, ino) :: ys.filterMap (entryAt blk) := by
  rw [entries_of_chain h, List.append_cons, List.filterMap_append, List.filterMap_cons_some hr]

theorem rejoins_of_joined
    (hwf : WellFormed size (setRecLen blk q (dRecLen blk q + dRecLen blk r)))
    (hperm : (entries size blk).Perm
      ((name, ino) :: entries size (setRecLen blk q (dRecLen blk q + dRecLen blk r)))) :
    Rejoins size blk q r ys := by
  have hqlt := h.split.2.lt
  have hold := entries_joined h hr
  generalize hsum : dRecLen blk q + dRecLen blk r = sum at hwf hperm
  unfold Rejoins
  dsimp only
  rw [hsum]
  obtain ⟨rs, hrs, hchain⟩ := (chain_setRecLen h hok).1.cancel hwf.1 hqlt.le
  cases rs with
  | nil =>
      have hend : q = size := hchain
      omega
  | cons z zs =>
      obtain rfl := hchain.head
      have htail := hchain.tail
      rw [dRecLen_setRecLen] at htail
      have hzok := hwf.2 z (by rw [hrs]; simp)
      unfold RecordOk at hzok
      rw [dRecLen_setRecLen, dNameLen_setRecLen] at hzok
      have hbeyond : ∀ y ∈ zs, SameRecord blk (setRecLen blk z sum) y := by
        intro y hy
        have hbounds := htail.bounds hy
        exact sameRecord_setRecLen (Or.inr (by omega))
      refine ⟨hzok.2, zs, ?_, ?_, ?_⟩
      · exact htail.congr fun y hy => (hbeyond y hy).header.dRecLen.symm
      · intro y hy
        rw [← (hbeyond y hy).recordOk]
        exact hwf.2 y (by rw [hrs]; simp [hy])
      · rw [hold, entries, hrs, filterMap_joined h hok, filterMap_sameRecord hbeyond] at hperm
        have hcons := List.perm_middle.symm.trans hperm
        exact ((List.perm_append_left_iff _).mp (List.perm_cons _ |>.mp hcons)).symm

theorem joined_of_rejoins (hjoin : Rejoins size blk q r ys) :
    WellFormed size (setRecLen blk q (dRecLen blk q + dRecLen blk r)) ∧
      (entries size blk).Perm
        ((name, ino) :: entries size (setRecLen blk q (dRecLen blk q + dRecLen blk r))) := by
  have hqlt := h.split.2.lt
  have hqok := hok q (List.mem_append_right _ List.mem_cons_self)
  have hrok := hok r (List.mem_append_right _ (List.mem_cons_of_mem q List.mem_cons_self))
  have hold := entries_joined h hr
  unfold Rejoins at hjoin
  generalize hsum : dRecLen blk q + dRecLen blk r = sum at hjoin
  obtain ⟨hroom, zs, hchain, hzok, hperm⟩ := hjoin
  obtain ⟨hfront, hsame⟩ := chain_setRecLen (v := sum) h hok
  have hbeyond : ∀ y ∈ zs, SameRecord blk (setRecLen blk q sum) y := by
    intro y hy
    have hbounds := hchain.bounds hy
    exact sameRecord_setRecLen (Or.inr (by omega))
  have hlen : dRecLen (setRecLen blk q sum) q = sum % 2 ^ 16 := dRecLen_setRecLen
  have hall : Chain (dRecLen (setRecLen blk q sum)) size 0 (xs ++ q :: zs) := by
    refine hfront.append (chain_cons hqlt ?_ ?_)
    · rw [hlen]
      unfold headerSize at hroom
      omega
    · rw [hlen]
      exact hchain.congr fun y hy => (hbeyond y hy).header.dRecLen
  refine ⟨wellFormed_of_chain hall ?_, ?_⟩
  · intro x hx
    rcases List.mem_append.mp hx with hx | hx
    · exact (hsame x hx).recordOk.mpr (hok x (List.mem_append_left _ hx))
    · rcases List.mem_cons.mp hx with rfl | hx
      · unfold RecordOk at hqok hrok ⊢
        rw [hlen, dNameLen_setRecLen]
        exact ⟨by omega, hroom⟩
      · exact (hbeyond x hx).recordOk.mpr (hzok x hx)
  · rw [hold, entries_of_chain hall, filterMap_joined h hok, filterMap_sameRecord hbeyond]
    exact List.perm_middle.trans ((hperm.symm.append_left _).cons _)

/-- The block after the change is in order exactly if the new length leads to such a chain. -/
theorem joined_iff :
    (WellFormed size (setRecLen blk q (dRecLen blk q + dRecLen blk r)) ∧
      (entries size blk).Perm
        ((name, ino) :: entries size (setRecLen blk q (dRecLen blk q + dRecLen blk r)))) ↔
      Rejoins size blk q r ys :=
  ⟨fun hdone => rejoins_of_joined h hok hr hdone.1 hdone.2, joined_of_rejoins h hok hr⟩

end Joined

/-! ## The first record -/

theorem Superblock.blocksize_mod_four (sb : Superblock) : sb.blocksize % 4 = 0 := by
  unfold Superblock.blocksize
  rw [Nat.shiftLeft_eq]
  omega

/-- A block of 64 KiB or more has a size that is 0 in 16 bits. -/
theorem Superblock.blocksize_mod {sb : Superblock} (h : 2 ^ 16 ≤ sb.blocksize) :
    sb.blocksize % 2 ^ 16 = 0 := by
  have hlog : sb.sLogBlockSize < 22 := by
    by_contra hge
    rw [Superblock.blocksize_eq_zero (Nat.not_lt.mp hge)] at h
    omega
  unfold Superblock.blocksize at h ⊢
  rw [Nat.shiftLeft_eq] at h ⊢
  revert h
  interval_cases sb.sLogBlockSize <;> decide

/-- The block when its first record was taken. -/
def blanked (size : ℕ) (blk : Bytes) : Bytes := setRecLen (clearHeader blk 0) 0 size

theorem clearHeader_apply {x : ℕ} (hlo : p ≤ x) (hhi : x < p + 8) : clearHeader blk p x = 0#8 :=
  if_pos ⟨hlo, hhi⟩

theorem dInode_blanked : dInode (blanked size blk) 0 = 0 := by
  unfold blanked
  rw [dInode_setRecLen]
  unfold dInode load32
  rw [clearHeader_apply, clearHeader_apply, clearHeader_apply, clearHeader_apply] <;>
    first | rfl | omega

theorem dNameLen_blanked : dNameLen (blanked size blk) 0 = 0 := by
  unfold blanked
  rw [dNameLen_setRecLen]
  unfold dNameLen
  rw [clearHeader_apply (by omega) (by omega)]
  rfl

theorem chain_blanked (hfit : size < 2 ^ 16) (hpos : 0 < size) :
    Chain (dRecLen (blanked size blk)) size 0 [0] := by
  have hlen : dRecLen (blanked size blk) 0 = size := by
    unfold blanked
    rw [dRecLen_setRecLen, Nat.mod_eq_of_lt hfit]
  exact chain_singleton (by omega) (by omega)

theorem entries_blanked (hfit : size < 2 ^ 16) (hpos : 0 < size) :
    entries size (blanked size blk) = [] := by
  have hnone : entryAt (blanked size blk) 0 = none := if_pos dInode_blanked
  rw [entries_of_chain (chain_blanked hfit hpos)]
  simp [hnone]

theorem wellFormed_blanked (hfit : size < 2 ^ 16) (hheader : headerSize ≤ size)
    (halign : size % 4 = 0) : WellFormed size (blanked size blk) := by
  unfold headerSize at hheader
  have hchain : Chain (dRecLen (blanked size blk)) size 0 [0] := chain_blanked hfit (by omega)
  apply wellFormed_of_chain hchain
  intro p hp
  obtain rfl := List.mem_singleton.mp hp
  have hlen := hchain.eq_singleton.2
  unfold RecordOk headerSize
  rw [dNameLen_blanked]
  omega

/-! ## Exactly when only the entry goes -/

theorem removeDirEntry_first (hsize : headerSize ≤ size) (hino : dInode blk 0 = ino) :
    removeDirEntry size blk ino name = .ok ⟨0, blanked size blk, true⟩ := by
  unfold removeDirEntry
  rw [if_neg (Nat.not_lt.mpr hsize), if_pos hino]
  rfl

theorem removeDirEntry_behind (hwf : WellFormed size blk) (hino : dInode blk 0 ≠ ino)
    (hrecords : records size blk = xs ++ q :: r :: ys)
    (hmiss : ∀ x ∈ xs ++ [q], ¬Hit blk ino name x) (hhit : Hit blk ino name r) :
    removeDirEntry size blk ino name =
      .ok ⟨0, setRecLen blk q (dRecLen blk q + dRecLen blk r), true⟩ := by
  have hchain := hwf.1
  have hlength := hchain.length_le
  have hinside : ∀ x ∈ records size blk, Inside size blk x := fun x hx => hwf.inside hx
  have hfirst : headerSize ≤ size := by
    have hq := hinside q (by rw [hrecords]; simp)
    unfold Inside at hq
    omega
  obtain ⟨x, ws, hws⟩ := List.exists_cons_of_ne_nil
    (List.append_ne_nil_of_right_ne_nil xs (List.cons_ne_nil q []))
  have hsplit : records size blk = x :: (ws ++ r :: ys) := by
    rw [hrecords, List.append_cons, hws, List.cons_append]
  rw [hsplit] at hchain hlength hinside
  obtain rfl : x = 0 := hchain.head
  have hlast : (0 :: ws).getLast (List.cons_ne_nil 0 ws) = q := by
    simp only [← hws, List.getLast_append_singleton]
  rw [← hlast]
  have htail := hchain.tail
  rw [Nat.zero_add] at htail
  unfold removeDirEntry
  rw [if_neg (Nat.not_lt.mpr hfirst), if_neg hino]
  apply removeLoop_hit htail
  · intro y hy
    apply hinside y
    rcases List.mem_append.mp hy with hy | hy
    · exact List.mem_cons_of_mem _ (List.mem_append_left _ hy)
    · rw [List.mem_singleton.mp hy]
      simp
  · intro y hy
    apply hmiss y
    rw [hws]
    exact List.mem_cons_of_mem 0 hy
  · exact hhit
  · rw [List.length_cons, List.length_append] at hlength
    omega

/-- The first record has another inode number, and the lengths can be added; or it has this one,
and the block has no other live entry and a size that fits into 16 bits. -/
def Removable (size : ℕ) (blk : Bytes) (ino : ℕ) (name : Name) : Prop :=
  if dInode blk 0 = ino then entries size blk = [(name, ino)] ∧ size < 2 ^ 16
  else ∃ xs q r ys, records size blk = xs ++ q :: r :: ys ∧ (∀ x ∈ xs ++ [q], ¬Hit blk ino name x) ∧
    Hit blk ino name r ∧ Rejoins size blk q r ys

theorem exists_first_hit {ps : List ℕ} (hzero : dInode blk 0 ≠ ino)
    (hhead : ∀ x xs, ps = x :: xs → x = 0) (hp : p ∈ ps) (hhit : Hit blk ino name p) :
    ∃ xs q r ys, ps = xs ++ q :: r :: ys ∧ (∀ x ∈ xs ++ [q], ¬Hit blk ino name x) ∧
      Hit blk ino name r := by
  cases hfind : ps.find? fun x => decide (Hit blk ino name x) with
  | none =>
      have hnone := List.find?_eq_none.mp hfind p hp
      simp [hhit] at hnone
  | some r =>
      obtain ⟨hr, front, ys, hsplit, hmiss⟩ := List.find?_eq_some_iff_append.mp hfind
      have hr : Hit blk ino name r := of_decide_eq_true hr
      have hnonempty : front ≠ [] := by
        rintro rfl
        exact hzero (hhead r ys hsplit ▸ hr.1)
      have hfront := List.dropLast_append_getLast hnonempty
      refine ⟨front.dropLast, front.getLast hnonempty, r, ys, ?_, ?_, hr⟩
      · rw [List.append_cons, hfront, hsplit]
      · intro x hx
        rw [hfront] at hx
        simpa using hmiss x hx

theorem WellFormed.head_eq {zs : List ℕ} (hwf : WellFormed size blk)
    (hlist : records size blk = p :: zs) : p = 0 := by
  have hchain := hwf.1
  rw [hlist] at hchain
  exact hchain.head

/-- The size is the length of the record which remains. -/
theorem lt_of_wellFormed_blanked {sb : Superblock} (hpos : 0 < sb.blocksize)
    (hwf : WellFormed sb.blocksize (blanked sb.blocksize blk)) : sb.blocksize < 2 ^ 16 := by
  by_contra hlarge
  cases hlist : records sb.blocksize (blanked sb.blocksize blk) with
  | nil =>
      have hchain := hwf.1
      rw [hlist] at hchain
      exact absurd hchain hpos.ne
  | cons z zs =>
      have hok := hwf.2 z (by rw [hlist]; simp)
      obtain rfl := hwf.head_eq hlist
      have hmod := Superblock.blocksize_mod (Nat.not_lt.mp hlarge)
      unfold RecordOk blanked headerSize at hok
      rw [dRecLen_setRecLen, hmod] at hok
      omega

theorem removesOnly_first_iff {sb : Superblock} (hfirst : headerSize ≤ sb.blocksize)
    (hino : dInode blk 0 = ino) : RemovesOnly sb.blocksize blk ino name ↔
      entries sb.blocksize blk = [(name, ino)] ∧ sb.blocksize < 2 ^ 16 := by
  have hpos : 0 < sb.blocksize := by
    unfold headerSize at hfirst
    omega
  unfold RemovesOnly
  rw [removeDirEntry_first hfirst hino]
  constructor
  · rintro ⟨e, he, -, hwf, hperm⟩
    obtain rfl := Except.ok.inj he
    have hfit := lt_of_wellFormed_blanked hpos hwf
    rw [entries_blanked hfit hpos] at hperm
    exact ⟨List.perm_singleton.mp hperm, hfit⟩
  · rintro ⟨honly, hfit⟩
    refine ⟨_, rfl, rfl, wellFormed_blanked hfit hfirst sb.blocksize_mod_four, ?_⟩
    rw [entries_blanked hfit hpos, honly]

theorem removesOnly_behind_iff (hwf : WellFormed size blk) (hino : dInode blk 0 ≠ ino)
    (hpos : ino ≠ 0) (hrecords : records size blk = xs ++ q :: r :: ys)
    (hmiss : ∀ x ∈ xs ++ [q], ¬Hit blk ino name x) (hhit : Hit blk ino name r) :
    RemovesOnly size blk ino name ↔ Rejoins size blk q r ys := by
  have hchain := hwf.1
  have hok := hwf.2
  rw [hrecords] at hchain hok
  have hjoined := joined_iff hchain hok (entryAt_of_hit hpos hhit)
  have hrun := removeDirEntry_behind hwf hino hrecords hmiss hhit
  constructor
  · rintro ⟨e, he, -, hdone⟩
    obtain rfl := Except.ok.inj (hrun.symm.trans he)
    exact hjoined.mp hdone
  · intro hjoin
    exact ⟨_, hrun, rfl, hjoined.mpr hjoin⟩

theorem headerSize_le_of_live {size : ℕ} (hwf : WellFormed size blk)
    (hlive : (name, ino) ∈ entries size blk) : headerSize ≤ size := by
  obtain ⟨-, p, hp, -⟩ := mem_entries.mp hlive
  have hinside := hwf.inside hp
  unfold Inside at hinside
  omega

theorem removesOnly_of_removable (sb : Superblock) (hwf : WellFormed sb.blocksize blk)
    (hlive : (name, ino) ∈ entries sb.blocksize blk)
    (h : Removable sb.blocksize blk ino name) : RemovesOnly sb.blocksize blk ino name := by
  unfold Removable at h
  by_cases hino : dInode blk 0 = ino
  · rw [if_pos hino] at h
    exact (removesOnly_first_iff (headerSize_le_of_live hwf hlive) hino).mpr h
  · rw [if_neg hino] at h
    obtain ⟨xs, q, r, ys, hrecords, hmiss, hr, hjoin⟩ := h
    exact (removesOnly_behind_iff hwf hino (mem_entries.mp hlive).1 hrecords hmiss hr).mpr hjoin

/-- `ext2_remove_dir_entry` removes a live entry and nothing else exactly under this condition. -/
theorem removesOnly_iff (sb : Superblock) (hwf : WellFormed sb.blocksize blk)
    (hlive : (name, ino) ∈ entries sb.blocksize blk) :
    RemovesOnly sb.blocksize blk ino name ↔ Removable sb.blocksize blk ino name := by
  refine ⟨fun hremoves => ?_, removesOnly_of_removable sb hwf hlive⟩
  obtain ⟨hpos, p, hp, hhit⟩ := mem_entries.mp hlive
  unfold Removable
  by_cases hino : dInode blk 0 = ino
  · rw [if_pos hino]
    exact (removesOnly_first_iff (headerSize_le_of_live hwf hlive) hino).mp hremoves
  · rw [if_neg hino]
    obtain ⟨xs, q, r, ys, hrecords, hmiss, hr⟩ :=
      exists_first_hit hino (fun _ _ => hwf.head_eq) hp hhit
    exact ⟨xs, q, r, ys, hrecords, hmiss, hr,
      (removesOnly_behind_iff hwf hino hpos hrecords hmiss hr).mp hremoves⟩

/-! ## A block with three names -/

/-- The names `a`, `b` and `c`, of which two are links to the same inode. -/
def threeNames : Bytes :=
  blockOf [(0, recordBytes 20 12 1#8 [0x61#8]), (12, recordBytes 21 12 1#8 [0x62#8]),
    (24, recordBytes 20 1000 1#8 [0x63#8])]

theorem wellFormed_threeNames : WellFormed kibSb.blocksize threeNames := by decide

theorem records_threeNames : records kibSb.blocksize threeNames = [0, 12, 24] := by decide

/-- `b` is removed and nothing else. -/
theorem removesOnly_threeNames : RemovesOnly kibSb.blocksize threeNames 21 [0x62#8] := by
  refine (removesOnly_iff kibSb wellFormed_threeNames (by decide +kernel)).mpr ?_
  refine (if_neg (by decide +kernel)).mpr ⟨[], 0, 12, [24], records_threeNames, ?_, ?_, ?_⟩
  · decide +kernel
  · decide +kernel
  · have hchain : Chain (dRecLen threeNames) kibSb.blocksize 0 ([] ++ 0 :: 12 :: [24]) := by
      decide +kernel
    exact rejoins_of_lt hchain (by decide +kernel) (by decide +kernel)

/-- With `a`, the other two go too, and `c` cannot be removed alone. -/
theorem not_removesOnly_threeNames :
    WellFormed kibSb.blocksize threeNames ∧
      (([0x61#8] : Name), 20) ∈ entries kibSb.blocksize threeNames ∧
      ¬RemovesOnly kibSb.blocksize threeNames 20 [0x61#8] := by
  refine ⟨wellFormed_threeNames, by decide +kernel, ?_⟩
  rintro ⟨e, he, -, -, hperm⟩
  have hrun : removeDirEntry kibSb.blocksize threeNames 20 [0x61#8] =
      .ok ⟨0, blanked kibSb.blocksize threeNames, true⟩ :=
    removeDirEntry_first (by decide) (by decide +kernel)
  rw [hrun] at he
  obtain rfl := Except.ok.inj he
  rw [entries_blanked (by decide) (by decide)] at hperm
  have hlength := hperm.length_eq
  revert hlength
  decide +kernel

end Yak.Ext2
