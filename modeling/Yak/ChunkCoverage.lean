import Yak.ChunkMapping

/-!
# What `virt_map_chunk` covers

All of `virt_map_chunk`, also with a physical address or a new page directory.  The index of a round is
that of the address which the loop has come to, and the number of the round is added to it
once more.  So the second round leaves out a table, and the number of rounds does not take into
account where in its table a chunk begins.
-/

namespace Yak.Paging.Chunk

open PageFrames (noFreePage)
open Exec (Stop mapChunk mapPages mapTables mappedAt nrTables tableFor)

section Model

variable (alloc : Machine → BitVec 32)

/-- `virt_map_chunk` -/
def virtMapChunk (initPageDirectory : Page) (start size pageDir flags phys : BitVec 32)
    (m : Machine) : Except Stop (Machine × BitVec 32) :=
  let old := m.getTmpPage
  let (pgDir, m) := if pageDir = 0#32 then m.pageFrameAlloc alloc else (pageDir, m)
  if pageDir = 0#32 ∧ pgDir = BitVec.ofNat 32 noFreePage then .ok (m.tmpMapPage old, 0#32)
  else
    let m := m.tmpMapPage pgDir
    mapChunk alloc start size pgDir flags phys old
      (if pageDir = 0#32 then m.setTmpPage initPageDirectory else m)

end Model

variable {alloc : Machine → BitVec 32} {start size pgDir pageDir flags phys old tmp : BitVec 32}
  {limit tmp' phys' e : BitVec 32} {initPageDirectory : Page} {m m' : Machine} {i j : Index}
  {k n : ℕ} {f t : Frame}

/-! ## The inner loop -/

/-- The table of the temporary page has entries with these flags from the entry `k` on, which
is that of `tmp`, as far as the limit; nothing else is different. -/
structure Filled (limit flags : BitVec 32) (k : ℕ) (tmp phys : BitVec 32) (m m' : Machine) :
    Prop where
  tmpPage : m'.tmpPage = m.tmpPage
  mem : ∀ f, f ≠ m.tmpPage → m'.mem f = m.mem f
  outside : ∀ j : Index, (j : ℕ) < k ∨ limit.toNat < tmp.toNat + (j - k) * 4096 →
    m'.tmp j = m.tmp j
  entry : ∀ j : Index, k ≤ j → tmp.toNat + (j - k) * 4096 ≤ limit.toNat →
    ∃ a, m'.tmp j = a ||| pagePresent ||| flags ∧
      (phys ≠ 0#32 → phys.toNat / 4096 + (j - k) < 2 ^ 20 →
        (frameNo a).toNat = phys.toNat / 4096 + (j - k))

theorem toNat_frameNo (a : BitVec 32) : (frameNo a).toNat = a.toNat / 4096 := by
  unfold frameNo
  rw [BitVec.extractLsb'_toNat, Nat.shiftRight_eq_div_pow]
  have := a.isLt
  omega

theorem toNat_add_page {a : BitVec 32} (h : a.toNat + 4096 < 2 ^ 32) :
    (a + 0x1000#32).toNat = a.toNat + 4096 := by
  rw [BitVec.toNat_add]
  exact Nat.mod_eq_of_lt h

theorem Filled.refl (h : 1024 ≤ k ∨ limit.toNat < tmp.toNat) :
    Filled limit flags k tmp phys m m := by
  refine ⟨rfl, fun _ _ => rfl, fun _ _ => rfl, fun j hj hle => ?_⟩
  have := j.isLt
  omega

theorem Filled.cons {m₁ : Machine} {a : BitVec 32} (hk : k < 1024)
    (h : Filled limit flags (k + 1) (tmp + 0x1000#32) phys'
      (m₁.setTmp ⟨k, hk⟩ (a ||| pagePresent ||| flags)) m')
    (hmem : m₁.mem = m.mem) (hpage : m₁.tmpPage = m.tmpPage)
    (htmp : tmp.toNat + 4096 < 2 ^ 32) (hle : tmp.toNat ≤ limit.toNat)
    (ha : phys ≠ 0#32 → a = phys ∧ phys' = phys + 0x1000#32) :
    Filled limit flags k tmp phys m m' := by
  have hnext := toNat_add_page htmp
  have hfirst : ∀ j : Index, (m₁.setTmp ⟨k, hk⟩ (a ||| pagePresent ||| flags)).tmp j =
      if (j : ℕ) = k then a ||| pagePresent ||| flags else m.tmp j := by
    intro j
    simp only [Machine.tmp, Machine.setTmp, Machine.setTmpPage, Function.update_self, hmem, hpage]
    by_cases hj : (j : ℕ) = k
    · rw [if_pos hj, show j = ⟨k, hk⟩ from Fin.ext hj, Function.update_self]
    · rw [if_neg hj, Function.update_of_ne fun heq => hj (congrArg Fin.val heq)]
  refine ⟨h.tmpPage.trans hpage, fun f hf => ?_, fun j hj => ?_, fun j hj hj' => ?_⟩
  · rw [← hpage] at hf
    rw [h.mem f hf, ← hmem]
    exact Function.update_of_ne hf ..
  · rw [h.outside j (by omega)]
    exact (hfirst j).trans (if_neg (by omega))
  · by_cases hjk : (j : ℕ) = k
    · refine ⟨a, ?_, fun hphys _ => ?_⟩
      · rw [h.outside j (by omega)]
        exact (hfirst j).trans (if_pos hjk)
      · rw [(ha hphys).1, toNat_frameNo]
        omega
    · obtain ⟨b, hb, hframe⟩ := h.entry j (by omega) (by omega)
      refine ⟨b, hb, fun hphys hlt => ?_⟩
      have hp := toNat_add_page (a := phys) (by omega)
      rw [(ha hphys).2] at hframe
      rw [hframe _ (by omega)]
      · omega
      · intro hzero
        rw [hzero] at hp
        cases hp

theorem drop_finRange (hk : k < 1024) :
    (List.finRange 1024).drop k = ⟨k, hk⟩ :: (List.finRange 1024).drop (k + 1) := by
  have hlen : k < (List.finRange 1024).length := hk.trans_eq List.length_finRange.symm
  rw [List.drop_eq_getElem_cons hlen, List.getElem_finRange]
  rfl

theorem drop_finRange_end : (List.finRange 1024).drop 1024 = [] :=
  List.drop_eq_nil_of_le List.length_finRange.le

theorem mapPages_filled (n k : ℕ) (hn : k + n = 1024)
    (htmp : tmp.toNat + n * 4096 < 2 ^ 32)
    (h : mapPages alloc limit flags ((List.finRange 1024).drop k) tmp phys m =
      (m', some (tmp', phys'))) : Filled limit flags k tmp phys m m' := by
  induction n generalizing k tmp phys m with
  | zero =>
      obtain rfl : k = 1024 := hn
      rw [drop_finRange_end] at h
      obtain rfl : m = m' := congrArg Prod.fst h
      exact Filled.refl (Or.inl (by omega))
  | succ n ih =>
      have hk : k < 1024 := by omega
      have hnext := toNat_add_page (a := tmp) (by omega)
      rw [drop_finRange hk] at h
      unfold mapPages at h
      by_cases hend : tmp > limit
      · rw [if_pos hend] at h
        obtain rfl : m = m' := congrArg Prod.fst h
        exact Filled.refl (Or.inr hend)
      · rw [if_neg hend] at h
        by_cases hphys : phys = 0#32
        · rw [if_pos hphys] at h
          unfold Machine.pageFrameAlloc at h
          by_cases hno : alloc m = BitVec.ofNat 32 noFreePage
          · simp only [hno, if_true] at h
            cases h
          · simp only [hno, if_false] at h
            exact (ih (k + 1) (by omega) (by omega) h).cons hk rfl rfl (by omega)
              (not_lt.mp hend) fun hne => absurd hphys hne
        · rw [if_neg hphys] at h
          exact (ih (k + 1) (by omega) (by omega) h).cons hk rfl rfl (by omega) (not_lt.mp hend)
            fun _ => ⟨rfl, rfl⟩

/-! ## One round -/

theorem mapTables_succ {n j : ℕ} (h : mapTables alloc limit pgDir flags old (n + 1) j tmp phys m =
      .ok (m', true)) :
    ∃ (i : Index) (m₁ m₂ : Machine) (pgTable tmp' phys' : BitVec 32),
      (i : ℕ) = pgDirIndex tmp + j ∧
      tableFor alloc old ((m.tmpMapPage pgDir).tmp i) (m.tmpMapPage pgDir) =
        (m₁, some pgTable) ∧
      mapPages alloc limit flags ((List.finRange 1024).drop (pgTabIndex tmp)) tmp phys m₁ =
        (m₂, some (tmp', phys')) ∧
      mapTables alloc limit pgDir flags old n (j + 1) tmp' phys'
        ((m₂.tmpMapPage pgDir).setTmp i (pgTable ||| pagePresent ||| flags)) = .ok (m', true) := by
  unfold mapTables at h
  by_cases hi : pgDirIndex tmp + j < 1024
  · simp only [dif_pos hi] at h
    rcases ht : tableFor alloc old ((m.tmpMapPage pgDir).tmp ⟨pgDirIndex tmp + j, hi⟩)
      (m.tmpMapPage pgDir) with ⟨m₁, _ | pgTable⟩
    · rw [ht] at h
      cases h
    · rw [ht] at h
      rcases hp : mapPages alloc limit flags ((List.finRange 1024).drop (pgTabIndex tmp)) tmp phys
        m₁ with ⟨m₂, _ | ⟨tmp', phys'⟩⟩
      · simp only [hp] at h
        cases h
      · simp only [hp] at h
        exact ⟨_, m₁, m₂, pgTable, tmp', phys', rfl, ht, hp, h⟩
  · simp only [dif_neg hi] at h
    cases h

theorem tableFor_cases {e pgTable : BitVec 32} {m₁ : Machine}
    (h : tableFor alloc old e m = (m₁, some pgTable)) :
    (Has e pagePresent ∧ pgTable = e &&& 0xFFFFF000#32 ∧ m₁ = m.tmpMapPage pgTable) ∨
      (¬ Has e pagePresent ∧ pgTable = alloc m ∧ alloc m ≠ BitVec.ofNat 32 noFreePage ∧
        m₁ = ((m.setCount pgTable 1#8).tmpMapPage pgTable).setTmpPage fun _ => 0#32) := by
  unfold tableFor at h
  by_cases he : Has e pagePresent
  · rw [if_neg (not_not.mpr he), Prod.mk.injEq, Option.some_inj] at h
    obtain ⟨rfl, rfl⟩ := h
    exact Or.inl ⟨he, rfl, rfl⟩
  · rw [if_pos he] at h
    unfold Machine.pageFrameAlloc at h
    by_cases hno : alloc m = BitVec.ofNat 32 noFreePage
    · simp only [hno, if_true] at h
      cases h
    · simp only [hno, if_false, Prod.mk.injEq, Option.some_inj] at h
      obtain ⟨rfl, rfl⟩ := h
      exact Or.inr ⟨he, rfl, hno, rfl⟩

/-- The entry `j` of the page table for the entry `i` of a directory, which is empty where there
is no page table. -/
def entryAt (m : Machine) (d : Frame) (i j : Index) : BitVec 32 :=
  if Has (m.mem d i) pagePresent then m.mem (frameNo (m.mem d i)) j else 0#32

/-- The page table `t` for the entry `i` of the directory `d` is at the temporary page. -/
structure Opened (m m₁ : Machine) (d : Frame) (i : Index) (t : Frame) : Prop where
  tmpPage : m₁.tmpPage = t
  ne : t ≠ d
  mem : ∀ f, f ≠ t → m₁.mem f = m.mem f
  entry : ∀ j, m₁.mem t j = entryAt m d i j

/-- No page table of the directory is the directory, and it is not allocated. -/
structure Apart (alloc : Machine → BitVec 32) (m : Machine) (d : Frame) : Prop where
  alloc : ∀ m, alloc m ≠ BitVec.ofNat 32 noFreePage → frameNo (alloc m) ≠ d
  table : ∀ i, Has (m.mem d i) pagePresent → frameNo (m.mem d i) ≠ d

theorem Apart.opened {d : Frame} {pgTable : BitVec 32} {m₁ : Machine} (h : Apart alloc m d)
    (hd : m.tmpPage = d) (ht : tableFor alloc old (m.tmp i) m = (m₁, some pgTable)) :
    Opened m m₁ d i (frameNo pgTable) := by
  have htmp : m.tmp i = m.mem d i := by
    rw [← hd]
    rfl
  rw [htmp] at ht
  rcases tableFor_cases ht with ⟨he, rfl, rfl⟩ | ⟨he, rfl, hno, rfl⟩
  · refine ⟨rfl, ?_, fun _ _ => rfl, fun j => ?_⟩
    · rw [frameNo_and_mask]
      exact h.table i he
    · rw [frameNo_and_mask, entryAt, if_pos he]
      rfl
  · refine ⟨rfl, h.alloc m hno, fun f hf => Function.update_of_ne hf .., fun j => ?_⟩
    simp only [entryAt, if_neg he, Machine.setTmpPage, Machine.tmpMapPage, Function.update_self]

/-- The directory `d` gets the page table `t`, which was filled, as its entry `i`. -/
structure Entered (m m₂ m₃ : Machine) (d : Frame) (i : Index) (t : Frame) (e : BitVec 32) :
    Prop where
  dir : m₃.mem d = Function.update (m.mem d) i e
  table : m₃.mem t = m₂.mem t
  mem : ∀ f, f ≠ d → f ≠ t → m₃.mem f = m.mem f

theorem Opened.entered {m₁ m₂ : Machine} (h : Opened m m₁ (frameNo pgDir) i t)
    (hfill : Filled limit flags k tmp phys m₁ m₂) (e : BitVec 32) :
    Entered m m₂ ((m₂.tmpMapPage pgDir).setTmp i e) (frameNo pgDir) i t e := by
  have hkeep : ∀ f, f ≠ t → m₂.mem f = m.mem f := by
    intro f hf
    rw [hfill.mem f (h.tmpPage ▸ hf), h.mem f hf]
  refine ⟨?_, Function.update_of_ne h.ne .., fun f hd ht => ?_⟩
  · rw [← hkeep _ (Ne.symm h.ne)]
    exact Function.update_self ..
  · rw [← hkeep f ht]
    exact Function.update_of_ne hd ..

theorem frameNo_flags {a : BitVec 32} (hflags : frameNo flags = 0#20) :
    frameNo (a ||| pagePresent ||| flags) = frameNo a := by
  rw [frameNo_or hflags, frameNo_or (by decide)]

theorem Apart.entered {d : Frame} {m₂ m₃ : Machine} (h : Apart alloc m d)
    (hentered : Entered m m₂ m₃ d i t e) (ht : frameNo e ≠ d) : Apart alloc m₃ d := by
  refine ⟨h.alloc, fun j hj => ?_⟩
  rw [hentered.dir] at hj ⊢
  by_cases hji : j = i
  · rw [hji, Function.update_self]
    exact ht
  · rw [Function.update_of_ne hji] at hj ⊢
    exact h.table j hj

/-! ## The rounds -/

/-- Where `tmp` is after the inner loop does not depend on the physical address. -/
theorem mapPages_next {is : List Index} (h : mapPages alloc limit flags is tmp phys m =
    (m', some (tmp', phys'))) : tmp' = (chunkEntries limit is tmp).2 := by
  induction is generalizing tmp phys m with
  | nil =>
      cases h
      rfl
  | cons i is ih =>
      unfold mapPages at h
      unfold chunkEntries
      by_cases hend : tmp > limit
      · rw [if_pos hend] at h ⊢
        cases h
        rfl
      · rw [if_neg hend] at h ⊢
        by_cases hphys : phys = 0#32
        · rw [if_pos hphys] at h
          by_cases hno : (m.pageFrameAlloc alloc).1 = BitVec.ofNat 32 noFreePage
          · simp only [hno, if_true] at h
            cases h
          · simp only [hno, if_false] at h
            exact ih h
        · rw [if_neg hphys] at h
          exact ih h

theorem chunkEntries_le_limit {is : List Index} (hlimit : limit.toNat + 4096 < 2 ^ 32)
    (htmp : tmp.toNat ≤ limit.toNat + 4096) :
    (chunkEntries limit is tmp).2.toNat ≤ limit.toNat + 4096 := by
  induction is generalizing tmp with
  | nil => exact htmp
  | cons i is ih =>
      unfold chunkEntries
      by_cases hend : tmp > limit
      · rw [if_pos hend]
        exact htmp
      · rw [if_neg hend]
        have hle : tmp.toNat ≤ limit.toNat := not_lt.mp hend
        have hnext := toNat_add_page (a := tmp) (by omega)
        exact ih (by omega)

/-- All entries are as far as the limit. -/
theorem chunkEntries_full {is : List Index} (hlimit : limit.toNat + 4096 < 2 ^ 32)
    (hle : tmp.toNat + is.length * 4096 ≤ limit.toNat + 4096) :
    (chunkEntries limit is tmp).2.toNat = tmp.toNat + is.length * 4096 := by
  induction is generalizing tmp with
  | nil => exact (Nat.add_zero _).symm
  | cons i is ih =>
      rw [List.length_cons] at hle ⊢
      have hend : ¬ tmp > limit := not_lt.mpr (show tmp.toNat ≤ limit.toNat by omega)
      have hnext := toNat_add_page (a := tmp) (by omega)
      unfold chunkEntries
      rw [if_neg hend, ih (by omega)]
      omega

theorem mapTables_round {n j : ℕ} (hlimit : limit.toNat + 1025 * 4096 < 2 ^ 32)
    (htmp : tmp.toNat ≤ limit.toNat + 4096) (hflags : frameNo flags = 0#20)
    (hapart : Apart alloc m (frameNo pgDir))
    (h : mapTables alloc limit pgDir flags old (n + 1) j tmp phys m = .ok (m', true)) :
    ∃ (i : Index) (e phys' : BitVec 32) (m₃ : Machine), (i : ℕ) = pgDirIndex tmp + j ∧
      m₃.mem (frameNo pgDir) = Function.update (m.mem (frameNo pgDir)) i e ∧
      Has e pagePresent ∧ Apart alloc m₃ (frameNo pgDir) ∧
      mapTables alloc limit pgDir flags old n (j + 1) (chunkEntries limit (entriesFrom tmp) tmp).2
        phys' m₃ = .ok (m', true) := by
  obtain ⟨i, m₁, m₂, pgTable, tmp', phys', hi, ht, hp, hrest⟩ := mapTables_succ h
  have hstart : Apart alloc (m.tmpMapPage pgDir) (frameNo pgDir) := ⟨hapart.alloc, hapart.table⟩
  have hopened := hstart.opened rfl ht
  have hfill := mapPages_filled (1024 - pgTabIndex tmp) (pgTabIndex tmp) (by omega) (by omega) hp
  have hentered := hopened.entered hfill (pgTable ||| pagePresent ||| flags)
  rw [mapPages_next hp] at hrest
  exact ⟨i, _, phys', _, hi, hentered.dir, has_or_left (has_or_right (by decide)),
    hstart.entered hentered ((frameNo_flags hflags).trans_ne hopened.ne), hrest⟩

/-- Where a round ends. -/
theorem chunkEntries_bounds (hlimit : limit.toNat + 1025 * 4096 < 2 ^ 32)
    (htmp : tmp.toNat ≤ limit.toNat + 4096) :
    tmp.toNat ≤ (chunkEntries limit (entriesFrom tmp) tmp).2.toNat ∧
      (chunkEntries limit (entriesFrom tmp) tmp).2.toNat ≤ limit.toNat + 4096 :=
  ⟨Machine.chunkEntries_le (by omega), chunkEntries_le_limit (by omega) htmp⟩

/-- A round does not touch the entries of the directory before its own. -/
theorem mapTables_low {n j : ℕ} (hlimit : limit.toNat + 1025 * 4096 < 2 ^ 32)
    (htmp : tmp.toNat ≤ limit.toNat + 4096) (hflags : frameNo flags = 0#20)
    (hapart : Apart alloc m (frameNo pgDir))
    (h : mapTables alloc limit pgDir flags old n j tmp phys m = .ok (m', true)) (k : Index)
    (hk : k < pgDirIndex tmp + j) : m'.mem (frameNo pgDir) k = m.mem (frameNo pgDir) k := by
  induction n generalizing j tmp phys m with
  | zero =>
      cases h
      rfl
  | succ n ih =>
      obtain ⟨i, e, phys', m₃, hi, hdir, -, hapart₃, hrest⟩ :=
        mapTables_round hlimit htmp hflags hapart h
      obtain ⟨hle, hle'⟩ := chunkEntries_bounds hlimit htmp
      have hindex : (pgDirIndex tmp : ℕ) ≤
          pgDirIndex (chunkEntries limit (entriesFrom tmp) tmp).2 := Nat.div_le_div_right hle
      have hki : k ≠ i := by
        rintro rfl
        omega
      rw [ih hle' hapart₃ hrest (by omega), hdir, Function.update_of_ne hki]

/-! ## A directory without page tables -/

/-- A machine with a directory in the frame 1. -/
def emptyMachine : Machine := ⟨fun _ _ => 0#32, fun _ => 0#8, 0#20, fun _ => none⟩

/-- The first of `n` frames which is not counted, but for that of the directory. -/
def firstUncounted (n : ℕ) (m : Machine) : BitVec 32 :=
  match (List.range n).find? fun f => f ≠ 1 ∧ m.counts (BitVec.ofNat 20 f) = 0#8 with
  | some f => (BitVec.ofNat 20 f).setWidth 32 <<< 12
  | none => BitVec.ofNat 32 noFreePage

/-- No frame from this number on is counted. -/
def CountsBelow (c : ℕ) (m : Machine) : Prop := ∀ f : Frame, c ≤ f.toNat → m.counts f = 0#8

theorem frameAddr_ne (f : Frame) : f.setWidth 32 <<< 12 ≠ BitVec.ofNat 32 noFreePage := by
  intro h
  have hbit := congrArg (BitVec.getLsbD · 0) h
  simp [noFreePage] at hbit

theorem firstUncounted_cases (hn : n ≤ 2 ^ 20) (m : Machine) :
    firstUncounted n m = BitVec.ofNat 32 noFreePage ∨
      ∃ f : Frame, firstUncounted n m = f.setWidth 32 <<< 12 ∧ f ≠ 1#20 ∧ m.counts f = 0#8 := by
  unfold firstUncounted
  cases hfind : (List.range n).find? fun f =>
    decide (f ≠ 1 ∧ m.counts (BitVec.ofNat 20 f) = 0#8) with
  | none => exact Or.inl rfl
  | some f =>
      have hfree := List.find?_some hfind
      simp only [decide_eq_true_eq] at hfree
      obtain ⟨hne, hzero⟩ := hfree
      have hmem := (List.mem_range.mp (List.mem_of_find?_eq_some hfind)).trans_le hn
      refine Or.inr ⟨_, rfl, fun heq => hne ?_, hzero⟩
      have hnat := congrArg BitVec.toNat heq
      rw [BitVec.toNat_ofNat, Nat.mod_eq_of_lt hmem] at hnat
      exact hnat

theorem CountsBelow.exists_frame {c : ℕ} (h : CountsBelow c m) (hn : n ≤ 2 ^ 20) (hc : 2 ≤ c)
    (hlt : c < n) :
    ∃ f : Frame, firstUncounted n m = f.setWidth 32 <<< 12 ∧ f.toNat ≤ c := by
  have hfree : c ≠ 1 ∧ m.counts (BitVec.ofNat 20 c) = 0#8 := by
    refine ⟨by omega, h _ ?_⟩
    rw [BitVec.toNat_ofNat, Nat.mod_eq_of_lt (hlt.trans_le hn)]
  unfold firstUncounted
  cases hfind : (List.range n).find? fun f =>
    decide (f ≠ 1 ∧ m.counts (BitVec.ofNat 20 f) = 0#8) with
  | none =>
      have hnone := List.find?_eq_none.mp hfind c (List.mem_range.mpr hlt)
      exact absurd (decide_eq_true hfree) hnone
  | some f =>
      obtain ⟨-, hmem, hfirst⟩ := List.find?_range_eq_some.mp hfind
      refine ⟨_, rfl, ?_⟩
      rw [BitVec.toNat_ofNat, Nat.mod_eq_of_lt ((List.mem_range.mp hmem).trans_le hn)]
      by_contra hgt
      have hbefore := hfirst c (by omega)
      rw [decide_eq_true hfree] at hbefore
      cases hbefore

theorem CountsBelow.setCount {c : ℕ} (h : CountsBelow c m) (hn : n ≤ 2 ^ 20) (hc : 2 ≤ c)
    (hlt : c < n) :
    firstUncounted n m ≠ BitVec.ofNat 32 noFreePage ∧
      CountsBelow (c + 1) (m.setCount (firstUncounted n m) 1#8) := by
  obtain ⟨f, hf, hle⟩ := h.exists_frame hn hc hlt
  rw [hf]
  refine ⟨frameAddr_ne f, fun g hg => ?_⟩
  have hne : g ≠ f := by
    rintro rfl
    omega
  simp only [Machine.setCount, frameNo_shiftLeft, Function.update_of_ne hne]
  exact h g (by omega)

theorem CountsBelow.mono {c c' : ℕ} (h : CountsBelow c m) (hle : c ≤ c') : CountsBelow c' m :=
  fun f hf => h f (hle.trans hf)

theorem mapPages_some {c : ℕ} (limit flags tmp phys : BitVec 32) (is : List Index)
    (h : CountsBelow c m) (hn : n ≤ 2 ^ 20) (hc : 2 ≤ c) (hlt : c + is.length ≤ n) :
    ∃ m' r, mapPages (firstUncounted n) limit flags is tmp phys m = (m', some r) ∧
      CountsBelow (c + is.length) m' := by
  induction is generalizing c tmp phys m with
  | nil => exact ⟨m, _, rfl, h⟩
  | cons i is ih =>
      rw [List.length_cons] at hlt ⊢
      have hstay : c ≤ c + (is.length + 1) := Nat.le_add_right ..
      unfold mapPages
      by_cases hend : tmp > limit
      · rw [if_pos hend]
        exact ⟨m, _, rfl, h.mono hstay⟩
      · rw [if_neg hend]
        by_cases hphys : phys = 0#32
        · rw [if_pos hphys]
          obtain ⟨hno, hcounts⟩ := h.setCount hn hc (by omega)
          unfold Machine.pageFrameAlloc
          simp only [hno, if_false]
          obtain ⟨m', r, hrun, hend'⟩ := ih (tmp + 0x1000#32) phys
            (m := (m.setCount (firstUncounted n m) 1#8).setTmp i
              (firstUncounted n m ||| pagePresent ||| flags)) hcounts (by omega) (by omega)
          exact ⟨m', r, hrun, hend'.mono (by omega)⟩
        · rw [if_neg hphys]
          obtain ⟨m', r, hrun, hend'⟩ := ih (tmp + 0x1000#32) (phys + 0x1000#32)
            (m := m.setTmp i (phys ||| pagePresent ||| flags)) h hc (by omega)
          exact ⟨m', r, hrun, hend'.mono (by omega)⟩

theorem tableFor_some {c : ℕ} (old e : BitVec 32) (h : CountsBelow c m) (hn : n ≤ 2 ^ 20)
    (hc : 2 ≤ c) (hlt : c < n) :
    ∃ m₁ pgTable, tableFor (firstUncounted n) old e m = (m₁, some pgTable) ∧
      CountsBelow (c + 1) m₁ := by
  unfold tableFor
  by_cases he : Has e pagePresent
  · rw [if_neg (not_not.mpr he)]
    exact ⟨_, _, rfl, h.mono (Nat.le_add_right c 1)⟩
  · obtain ⟨hno, hcounts⟩ := h.setCount hn hc hlt
    rw [if_pos he]
    unfold Machine.pageFrameAlloc
    simp only [hno, if_false]
    exact ⟨_, _, rfl, hcounts⟩

/-- There are enough frames for all rounds. -/
theorem mapTables_some {c r : ℕ} (limit pgDir flags old : BitVec 32) (j : ℕ)
    (tmp phys : BitVec 32) (h : CountsBelow c m) (hn : n ≤ 2 ^ 20) (hc : 2 ≤ c)
    (hlt : c + r * 1025 ≤ n) :
    (∃ s, mapTables (firstUncounted n) limit pgDir flags old r j tmp phys m = .error s) ∨
      ∃ m', mapTables (firstUncounted n) limit pgDir flags old r j tmp phys m = .ok (m', true) := by
  induction r generalizing c j tmp phys m with
  | zero => exact Or.inr ⟨m, rfl⟩
  | succ r ih =>
      unfold mapTables
      by_cases hi : pgDirIndex tmp + j < 1024
      · simp only [dif_pos hi]
        obtain ⟨m₁, pgTable, ht, hm₁⟩ := tableFor_some old
          ((m.tmpMapPage pgDir).tmp ⟨pgDirIndex tmp + j, hi⟩) (m := m.tmpMapPage pgDir) h hn hc
          (by omega)
        rw [ht]
        have hlen : ((List.finRange 1024).drop (pgTabIndex tmp)).length ≤ 1024 :=
          (List.drop_sublist ..).length_le.trans List.length_finRange.le
        obtain ⟨m₂, ⟨tmp', phys'⟩, hp, hm₂⟩ := mapPages_some limit flags tmp phys
          ((List.finRange 1024).drop (pgTabIndex tmp)) hm₁ hn (by omega) (by omega)
        simp only [hp]
        have hcounts : CountsBelow (c + 1025) m₂ := hm₂.mono (by omega)
        exact ih _ _ _ hcounts (by omega) (by omega)
      · simp only [dif_neg hi]
        exact Or.inl ⟨_, rfl⟩

/-! ## All of `virt_map_chunk` -/

/-- The frame is not one to allocate. -/
def Owned (reserved : Set Frame) (m : Machine) (f : Frame) : Prop :=
  f ∈ reserved ∨ m.counts f ≠ 0#8

/-- `page_frame_alloc` returns only frames which are neither reserved nor counted. -/
def AllocatesOutside (reserved : Set Frame) (alloc : Machine → BitVec 32) : Prop :=
  ∀ m, alloc m ≠ BitVec.ofNat 32 noFreePage → ¬ Owned reserved m (frameNo (alloc m))

/-- A page directory, with page tables of its own. -/
structure IsDirectory (reserved : Set Frame) (m : Machine) (pageDir : BitVec 32) : Prop where
  notNull : pageDir ≠ 0#32
  dir_owned : frameNo pageDir ∈ reserved
  table_owned : ∀ i, Has (m.mem (frameNo pageDir) i) pagePresent →
    Owned reserved m (frameNo (m.mem (frameNo pageDir) i))
  table_ne : ∀ i, Has (m.mem (frameNo pageDir) i) pagePresent →
    frameNo (m.mem (frameNo pageDir) i) ≠ frameNo pageDir
  table_inj : ∀ i j, Has (m.mem (frameNo pageDir) i) pagePresent →
    Has (m.mem (frameNo pageDir) j) pagePresent →
    frameNo (m.mem (frameNo pageDir) i) = frameNo (m.mem (frameNo pageDir) j) → i = j

/-- A walk for each address of the chunk comes to an entry with the flags, and with the frame of
the physical address if there is one. -/
def Covers (start size pageDir flags phys : BitVec 32) (m : Machine) : Prop :=
  ∀ va : BitVec 32, start.toNat ≤ va.toNat → va.toNat < start.toNat + size.toNat →
    ∃ e, mappedAt m pageDir va = some e ∧ e &&& flags = flags ∧
      (phys ≠ 0#32 →
        (frameNo e).toNat = phys.toNat / 4096 + (va.toNat / 4096 - start.toNat / 4096))

/-- The entries of the directory for other tables than those of the chunk are the same, and the
entries of the tables for other pages. -/
structure Keeps (start size pageDir : BitVec 32) (m m' : Machine) : Prop where
  dir : ∀ va : BitVec 32, va.toNat / 2 ^ 22 < start.toNat / 2 ^ 22 ∨
      (start.toNat + size.toNat) / 2 ^ 22 < va.toNat / 2 ^ 22 →
    m'.pgTable pageDir va = m.pgTable pageDir va
  table : ∀ va : BitVec 32, va.toNat / 4096 < start.toNat / 4096 ∨
      (start.toNat + size.toNat) / 4096 < va.toNat / 4096 →
    entryAt m' (frameNo pageDir) (pgDirIndex va) (pgTabIndex va) =
      entryAt m (frameNo pageDir) (pgDirIndex va) (pgTabIndex va)

/-- The call returns, and if it does not fail, the chunk is mapped and nothing else changes. -/
def MapsChunk (alloc : Machine → BitVec 32) (initPageDirectory : Page)
    (start size pageDir flags phys : BitVec 32) (m : Machine) : Prop :=
  ∃ m' ret, virtMapChunk alloc initPageDirectory start size pageDir flags phys m = .ok (m', ret) ∧
    (ret ≠ 0#32 → Covers start size pageDir flags phys m' ∧ Keeps start size pageDir m m')

theorem Covers.congr (h : Covers start size pageDir flags phys m) (hm : m'.mem = m.mem) :
    Covers start size pageDir flags phys m' := by
  intro va hle hlt
  have hva := h va hle hlt
  unfold mappedAt Machine.pgFrame Machine.pgTable at hva ⊢
  rw [hm]
  exact hva

theorem Keeps.congr {m₁ m₂ : Machine} (h : Keeps start size pageDir m₁ m₂)
    (hm : m.mem = m₁.mem) (hm' : m'.mem = m₂.mem) : Keeps start size pageDir m m' := by
  refine ⟨fun va hva => ?_, fun va hva => ?_⟩
  · have hdir := h.dir va hva
    unfold Machine.pgTable at hdir ⊢
    rw [hm, hm', hdir]
  · have htable := h.table va hva
    unfold entryAt at htable ⊢
    rw [hm, hm', htable]

theorem AllocatesOutside.apart {reserved : Set Frame} (h : AllocatesOutside reserved alloc)
    (hdir : IsDirectory reserved m pageDir) : Apart alloc m (frameNo pageDir) := by
  refine ⟨fun m₁ hno heq => h m₁ hno (Or.inl ?_), hdir.table_ne⟩
  rw [heq]
  exact hdir.dir_owned

/-- The table of a round is not one of another entry. -/
theorem IsDirectory.table_apart {reserved : Set Frame} {pgTable : BitVec 32} {m₁ : Machine}
    (hdir : IsDirectory reserved m pageDir) (halloc : AllocatesOutside reserved alloc)
    (ht : tableFor alloc old ((m.tmpMapPage pageDir).tmp i) (m.tmpMapPage pageDir) =
      (m₁, some pgTable)) (hj : Has (m.mem (frameNo pageDir) j) pagePresent) (hji : j ≠ i) :
    frameNo (m.mem (frameNo pageDir) j) ≠ frameNo pgTable := by
  rcases tableFor_cases ht with ⟨he, rfl, -⟩ | ⟨-, rfl, hno, -⟩
  · rw [frameNo_and_mask]
    exact fun heq => hji (hdir.table_inj j i hj he heq)
  · intro heq
    refine halloc _ hno ?_
    rw [← heq]
    exact hdir.table_owned j hj

theorem toNat_and_page (a : BitVec 32) : (a &&& 0xFFFFF000#32).toNat = a.toNat / 4096 * 4096 := by
  have hshift : a &&& 0xFFFFF000#32 = a >>> 12 <<< 12 := by
    rw [show 0xFFFFF000#32 = BitVec.allOnes 32 <<< 12 by decide]
    ext i hi
    rw [BitVec.getElem_and, BitVec.getElem_shiftLeft, BitVec.getElem_shiftLeft]
    by_cases hlt : i < 12
    · simp only [hlt, decide_true, Bool.not_true, Bool.false_and, Bool.and_false]
    · simp only [hlt, decide_false, Bool.not_false, Bool.true_and, BitVec.getElem_allOnes,
        Bool.and_true, BitVec.getElem_ushiftRight]
      rw [show 12 + (i - 12) = i by omega, BitVec.getLsbD_eq_getElem hi]
  have := a.isLt
  rw [hshift, BitVec.toNat_shiftLeft, BitVec.toNat_ushiftRight, Nat.shiftRight_eq_div_pow,
    Nat.shiftLeft_eq]
  omega

section Runs

variable {mapped : Machine} {done : Bool}

theorem mapTables_one (alloc : Machine → BitVec 32) (limit pgDir flags old tmp phys : BitVec 32)
    (m : Machine) :
    ∃ r, mapTables alloc limit pgDir flags old 1 0 tmp phys m = .ok r := by
  unfold mapTables
  have hi : (pgDirIndex tmp : ℕ) + 0 < 1024 := (pgDirIndex tmp).isLt
  simp only [dif_pos hi]
  rcases tableFor alloc old ((m.tmpMapPage pgDir).tmp ⟨pgDirIndex tmp + 0, hi⟩)
    (m.tmpMapPage pgDir) with ⟨m₁, _ | pgTable⟩
  · exact ⟨_, rfl⟩
  · dsimp only
    rcases mapPages alloc limit flags ((List.finRange 1024).drop (pgTabIndex tmp)) tmp phys m₁
      with ⟨m₂, _ | ⟨tmp', phys'⟩⟩
    · exact ⟨_, rfl⟩
    · exact ⟨_, rfl⟩

theorem virtMapChunk_eq (h : pageDir ≠ 0#32)
    (hrun : mapTables alloc (start + size) pageDir flags m.getTmpPage (nrTables size) 0
      (start &&& 0xFFFFF000#32) phys (m.tmpMapPage pageDir) = .ok (mapped, done)) :
    virtMapChunk alloc initPageDirectory start size pageDir flags phys m =
      .ok (if done then (mapped.tmpMapPage m.getTmpPage, pageDir) else (mapped, 0#32)) := by
  unfold virtMapChunk mapChunk
  simp only [h, if_false, false_and]
  rw [hrun]
  rfl

variable {m₁ m₂ m₃ : Machine}

theorem or_and_self (a b : BitVec 32) : (a ||| b) &&& b = b := by
  ext i hi
  rw [BitVec.getElem_and, BitVec.getElem_or]
  cases a[i] <;> cases b[i] <;> rfl

/-- The pages of a chunk in the table which a round enters. -/
theorem Entered.covers (h : Entered m m₂ m₃ (frameNo pageDir) i t e)
    (hopened : Opened m m₁ (frameNo pageDir) i t) (hi : i = pgDirIndex start)
    (htmp : tmp.toNat = start.toNat / 4096 * 4096)
    (hfill : Filled limit flags (pgTabIndex tmp) tmp phys m₁ m₂)
    (hlimit : limit.toNat = start.toNat + size.toNat) (he : Has e pagePresent) (het : frameNo e = t)
    (hflags : frameNo flags = 0#20)
    (hone : start.toNat % 0x400000 + size.toNat ≤ 0x400000)
    (hphys : phys ≠ 0#32 → phys.toNat / 4096 * 4096 + start.toNat % 4096 + size.toNat ≤ 2 ^ 32) :
    Covers start size pageDir flags phys m₃ := by
  intro va hle hlt
  have hslot : pgDirIndex va = i := by
    rw [hi]
    refine Fin.ext (show va.toNat / 2 ^ 22 = start.toNat / 2 ^ 22 from ?_)
    omega
  have hfirst : (pgTabIndex tmp : ℕ) = tmp.toNat / 2 ^ 12 % 2 ^ 10 := rfl
  have hindex : (pgTabIndex va : ℕ) = va.toNat / 2 ^ 12 % 2 ^ 10 := rfl
  have hoffset : (pgTabIndex va : ℕ) - pgTabIndex tmp = va.toNat / 4096 - start.toNat / 4096 := by
    omega
  obtain ⟨a, ha, hframe⟩ := hfill.entry (pgTabIndex va) (by omega) (by omega)
  have hdir : m₃.pgTable pageDir va = e := by
    unfold Machine.pgTable
    rw [h.dir, hslot, Function.update_self]
  have hentry : m₃.pgFrame pageDir va = a ||| pagePresent ||| flags := by
    unfold Machine.pgFrame
    rw [hdir, het, h.table, ← ha, Machine.tmp, hfill.tmpPage, hopened.tmpPage]
  refine ⟨a ||| pagePresent ||| flags, ?_, ?_, fun hne => ?_⟩
  · unfold mappedAt
    rw [hdir, hentry, if_pos ⟨he, has_or_left (has_or_right (by decide))⟩]
  · exact or_and_self _ _
  · have hbound := hphys hne
    rw [hoffset] at hframe
    rw [frameNo_flags hflags, hframe hne (by omega)]

theorem Entered.keeps (h : Entered m m₂ m₃ (frameNo pageDir) i t e)
    (hopened : Opened m m₁ (frameNo pageDir) i t) (hi : i = pgDirIndex start)
    (htmp : tmp.toNat = start.toNat / 4096 * 4096)
    (hfill : Filled limit flags (pgTabIndex tmp) tmp phys m₁ m₂)
    (hlimit : limit.toNat = start.toNat + size.toNat) (he : Has e pagePresent) (het : frameNo e = t)
    (hne : ∀ j, Has (m.mem (frameNo pageDir) j) pagePresent →
      frameNo (m.mem (frameNo pageDir) j) ≠ frameNo pageDir)
    (hapart : ∀ j, Has (m.mem (frameNo pageDir) j) pagePresent → j ≠ i →
      frameNo (m.mem (frameNo pageDir) j) ≠ t) :
    Keeps start size pageDir m m₃ := by
  have hstart : (i : ℕ) = start.toNat / 2 ^ 22 := congrArg Fin.val hi
  refine ⟨fun va hva => ?_, fun va hva => ?_⟩
  · have hslot : pgDirIndex va ≠ i := by
      intro heq
      have hval : va.toNat / 2 ^ 22 = start.toNat / 2 ^ 22 := (congrArg Fin.val heq).trans hstart
      omega
    unfold Machine.pgTable
    rw [h.dir, Function.update_of_ne hslot]
  · unfold entryAt
    by_cases hslot : pgDirIndex va = i
    · have hval : va.toNat / 2 ^ 22 = start.toNat / 2 ^ 22 :=
        (congrArg Fin.val hslot).trans hstart
      have hfirst : (pgTabIndex tmp : ℕ) = tmp.toNat / 2 ^ 12 % 2 ^ 10 := rfl
      have hindex : (pgTabIndex va : ℕ) = va.toNat / 2 ^ 12 % 2 ^ 10 := rfl
      have hstay := hfill.outside (pgTabIndex va) (by omega)
      rw [Machine.tmp, Machine.tmp, hfill.tmpPage, hopened.tmpPage, hopened.entry] at hstay
      rw [hslot, h.dir, Function.update_self, if_pos he, het, h.table, hstay]
      rfl
    · rw [h.dir, Function.update_of_ne hslot]
      by_cases hpresent : Has (m.mem (frameNo pageDir) (pgDirIndex va)) pagePresent
      · rw [if_pos hpresent, if_pos hpresent, h.mem _ (hne _ hpresent) (hapart _ hpresent hslot)]
      · rw [if_neg hpresent, if_neg hpresent]

/-- A single round, which comes to all pages of the chunk. -/
theorem mapsChunk_of_one_table {reserved : Set Frame} (halloc : AllocatesOutside reserved alloc)
    (hdir : IsDirectory reserved m pageDir) (hflags : frameNo flags = 0#20)
    (hbelow : start.toNat + size.toNat ≤ kernelVirtBase.toNat) (hsize : size.toNat < 0x400000)
    (hone : start.toNat % 0x400000 + size.toNat ≤ 0x400000)
    (hphys : phys ≠ 0#32 → phys.toNat / 4096 * 4096 + start.toNat % 4096 + size.toNat ≤ 2 ^ 32) :
    MapsChunk alloc initPageDirectory start size pageDir flags phys m := by
  have hbase : kernelVirtBase.toNat = 0xC0000000 := rfl
  have hlimit : (start + size).toNat = start.toNat + size.toNat := by
    rw [BitVec.toNat_add]
    omega
  have htmp := toNat_and_page start
  have hnr : nrTables size = 1 := by
    unfold nrTables
    omega
  obtain ⟨⟨mapped, done⟩, hrun⟩ := mapTables_one alloc (start + size) pageDir flags m.getTmpPage
    (start &&& 0xFFFFF000#32) phys (m.tmpMapPage pageDir)
  refine ⟨_, _, virtMapChunk_eq hdir.notNull (hnr ▸ hrun), fun hret => ?_⟩
  cases done with
  | false => exact absurd rfl hret
  | true =>
      obtain ⟨i, m₁, m₂, pgTable, tmp', phys', hi, ht, hp, hrest⟩ := mapTables_succ hrun
      cases hrest
      have hapart := halloc.apart hdir
      have hopened : Opened (m.tmpMapPage pageDir) m₁ (frameNo pageDir) i (frameNo pgTable) :=
        Apart.opened ⟨hapart.alloc, hapart.table⟩ rfl ht
      have hfill := mapPages_filled (1024 - pgTabIndex (start &&& 0xFFFFF000#32))
        (pgTabIndex (start &&& 0xFFFFF000#32)) (by omega) (by omega) hp
      have hentered := hopened.entered hfill (pgTable ||| pagePresent ||| flags)
      have hslot : i = pgDirIndex start := by
        refine Fin.ext (hi.trans (show _ / 2 ^ 22 + 0 = start.toNat / 2 ^ 22 from ?_))
        omega
      have hpresent : Has (pgTable ||| pagePresent ||| flags) pagePresent :=
        has_or_left (has_or_right (by decide))
      have hcovers := hentered.covers hopened hslot htmp hfill hlimit hpresent
        (frameNo_flags hflags) hflags hone hphys
      have hkeeps := hentered.keeps hopened hslot htmp hfill hlimit hpresent
        (frameNo_flags hflags) hdir.table_ne fun j hj hji => hdir.table_apart halloc ht hj hji
      exact ⟨hcovers.congr rfl, hkeeps.congr rfl rfl⟩

/-! ## Other chunks -/

theorem chunkEntries_table (hlimit : limit.toNat + 1025 * 4096 < 2 ^ 32)
    (haligned : tmp.toNat % 4096 = 0)
    (hfull : (tmp.toNat / 2 ^ 22 + 1) * 2 ^ 22 ≤ limit.toNat + 4096) :
    (chunkEntries limit (entriesFrom tmp) tmp).2.toNat = (tmp.toNat / 2 ^ 22 + 1) * 2 ^ 22 := by
  have hindex : (pgTabIndex tmp : ℕ) = tmp.toNat / 2 ^ 12 % 2 ^ 10 := rfl
  have hlen : (entriesFrom tmp).length = 1024 - pgTabIndex tmp := by
    unfold entriesFrom
    rw [List.length_drop, List.length_finRange]
  have hall : tmp.toNat + (entriesFrom tmp).length * 4096 = (tmp.toNat / 2 ^ 22 + 1) * 2 ^ 22 := by
    rw [hlen]
    omega
  rw [chunkEntries_full (by omega) (by omega), hall]

/-- The first round leaves out the table after its own, and so do the later ones. -/
theorem mapTables_skips {n : ℕ} (hlimit : limit.toNat + 1025 * 4096 < 2 ^ 32)
    (htmp : tmp.toNat ≤ limit.toNat + 4096) (haligned : tmp.toNat % 4096 = 0)
    (hflags : frameNo flags = 0#20) (hapart : Apart alloc m (frameNo pgDir))
    (hn : n = 0 ∨ (tmp.toNat / 2 ^ 22 + 1) * 2 ^ 22 ≤ limit.toNat + 4096)
    (h : mapTables alloc limit pgDir flags old (n + 1) 0 tmp phys m = .ok (m', true)) (k : Index)
    (hk : (k : ℕ) = tmp.toNat / 2 ^ 22 + 1) :
    m'.mem (frameNo pgDir) k = m.mem (frameNo pgDir) k := by
  obtain ⟨i, e, phys', m₃, hi, hdir, -, hapart₃, hrest⟩ :=
    mapTables_round hlimit htmp hflags hapart h
  have hslot : (pgDirIndex tmp : ℕ) = tmp.toNat / 2 ^ 22 := rfl
  have hki : k ≠ i := by
    rintro rfl
    omega
  have hstay : m₃.mem (frameNo pgDir) k = m.mem (frameNo pgDir) k := by
    rw [hdir, Function.update_of_ne hki]
  rw [← hstay]
  rcases hn with rfl | hfull
  · cases hrest
    rfl
  · obtain ⟨-, hle'⟩ := chunkEntries_bounds hlimit htmp
    have hnext := chunkEntries_table hlimit haligned hfull
    have hindex : (pgDirIndex (chunkEntries limit (entriesFrom tmp) tmp).2 : ℕ) =
        (chunkEntries limit (entriesFrom tmp) tmp).2.toNat / 2 ^ 22 := rfl
    exact mapTables_low hlimit hle' hflags hapart₃ hrest k (by omega)

/-- The second round enters the table after that one. -/
theorem mapTables_enters {n : ℕ} (hlimit : limit.toNat + 1025 * 4096 < 2 ^ 32)
    (htmp : tmp.toNat ≤ limit.toNat + 4096) (haligned : tmp.toNat % 4096 = 0)
    (hflags : frameNo flags = 0#20) (hapart : Apart alloc m (frameNo pgDir))
    (hfull : (tmp.toNat / 2 ^ 22 + 1) * 2 ^ 22 ≤ limit.toNat + 4096)
    (h : mapTables alloc limit pgDir flags old (n + 2) 0 tmp phys m = .ok (m', true)) (k : Index)
    (hk : (k : ℕ) = tmp.toNat / 2 ^ 22 + 2) : Has (m'.mem (frameNo pgDir) k) pagePresent := by
  obtain ⟨-, -, phys₁, m₁, -, -, -, hapart₁, hrest₁⟩ := mapTables_round hlimit htmp hflags hapart h
  obtain ⟨-, hle⟩ := chunkEntries_bounds hlimit htmp
  have hnext := chunkEntries_table hlimit haligned hfull
  set tmp₁ := (chunkEntries limit (entriesFrom tmp) tmp).2
  have hslot₁ : (pgDirIndex tmp₁ : ℕ) = tmp₁.toNat / 2 ^ 22 := rfl
  obtain ⟨i, e, phys₂, m₂, hi, hdir, he, hapart₂, hrest₂⟩ :=
    mapTables_round hlimit hle hflags hapart₁ hrest₁
  obtain ⟨hle₁, hle₂⟩ := chunkEntries_bounds hlimit hle
  have hslot₂ : (pgDirIndex tmp₁ : ℕ) ≤
      pgDirIndex (chunkEntries limit (entriesFrom tmp₁) tmp₁).2 := Nat.div_le_div_right hle₁
  obtain rfl : k = i := Fin.ext (by omega)
  rw [mapTables_low hlimit hle₂ hflags hapart₂ hrest₂ k (by omega), hdir, Function.update_self]
  exact he

/-- The address of the directory of `emptyMachine`. -/
def emptyDir : BitVec 32 := 0x1000#32

theorem not_has_zero (flag : BitVec 32) : ¬ Has 0#32 flag := by
  unfold Has
  rw [BitVec.zero_and]
  exact not_not.mpr rfl

theorem isDirectory_empty : IsDirectory {1#20} emptyMachine emptyDir :=
  ⟨by decide, by decide, fun _ h => absurd h (not_has_zero _), fun _ h => absurd h (not_has_zero _),
    fun _ _ h => absurd h (not_has_zero _)⟩

theorem allocatesOutside_firstUncounted : AllocatesOutside {1#20} (firstUncounted (2 ^ 20)) := by
  intro m hno howned
  obtain ⟨f, hf, hne, hzero⟩ := (firstUncounted_cases le_rfl m).resolve_left hno
  rw [hf, frameNo_shiftLeft] at howned
  rcases howned with h | h
  · exact hne h
  · exact h hzero

/-- The run for a directory without page tables does not want for frames. -/
theorem exists_run_of_mapsChunk (hbelow : start.toNat + size.toNat ≤ kernelVirtBase.toNat)
    (h : MapsChunk (firstUncounted (2 ^ 20)) initPageDirectory start size emptyDir flags phys
      emptyMachine) :
    ∃ m', mapTables (firstUncounted (2 ^ 20)) (start + size) emptyDir flags emptyMachine.getTmpPage
        (nrTables size) 0 (start &&& 0xFFFFF000#32) phys (emptyMachine.tmpMapPage emptyDir) =
        .ok (m', true) ∧
      Covers start size emptyDir flags phys m' ∧ Keeps start size emptyDir emptyMachine m' := by
  have hbase : kernelVirtBase.toNat = 0xC0000000 := rfl
  have henough : 2 + nrTables size * 1025 ≤ 2 ^ 20 := by
    unfold nrTables
    omega
  have hcounts : CountsBelow 2 (emptyMachine.tmpMapPage emptyDir) := fun _ _ => rfl
  obtain ⟨m', ret, hrun, hprop⟩ := h
  rcases mapTables_some (start + size) emptyDir flags emptyMachine.getTmpPage 0
    (start &&& 0xFFFFF000#32) phys hcounts le_rfl le_rfl henough with
    ⟨stop, hstop⟩ | ⟨mapped, hmapped⟩
  · unfold virtMapChunk mapChunk at hrun
    simp only [isDirectory_empty.notNull, if_false, false_and] at hrun
    rw [hstop] at hrun
    cases hrun
  · rw [virtMapChunk_eq isDirectory_empty.notNull hmapped] at hrun
    cases hrun
    obtain ⟨hcovers, hkeeps⟩ := hprop isDirectory_empty.notNull
    exact ⟨mapped, hmapped, hcovers.congr rfl, hkeeps.congr rfl rfl⟩

/-- A chunk which is covered does not go on where there is no page table. -/
theorem Covers.le_of_absent (h : Covers start size pageDir flags phys m) {s : ℕ}
    (hs : start.toNat ≤ s * 2 ^ 22) (hlt : s < 1024)
    (habsent : m.mem (frameNo pageDir) ⟨s, hlt⟩ = 0#32) :
    start.toNat + size.toNat ≤ s * 2 ^ 22 := by
  by_contra hgt
  have hva : (BitVec.ofNat 32 (s * 2 ^ 22)).toNat = s * 2 ^ 22 := by
    rw [BitVec.toNat_ofNat]
    omega
  obtain ⟨e, he, -⟩ := h (BitVec.ofNat 32 (s * 2 ^ 22)) (by omega) (by omega)
  have hslot : pgDirIndex (BitVec.ofNat 32 (s * 2 ^ 22)) = ⟨s, hlt⟩ := by
    refine Fin.ext (show (BitVec.ofNat 32 (s * 2 ^ 22)).toNat / 2 ^ 22 = s from ?_)
    omega
  unfold mappedAt Machine.pgTable at he
  rw [hslot, habsent, if_neg fun hand => not_has_zero _ hand.1] at he
  cases he

/-- The chunk goes on in no table but the first one. -/
theorem one_table_of_covers (hbelow : start.toNat + size.toNat ≤ kernelVirtBase.toNat)
    (hflags : frameNo flags = 0#20)
    (hrun : mapTables (firstUncounted (2 ^ 20)) (start + size) emptyDir flags
      emptyMachine.getTmpPage (nrTables size) 0 (start &&& 0xFFFFF000#32) phys
      (emptyMachine.tmpMapPage emptyDir) =
      .ok (m', true)) (hcovers : Covers start size emptyDir flags phys m')
    (hkeeps : Keeps start size emptyDir emptyMachine m') :
    size.toNat < 0x400000 ∧ start.toNat % 0x400000 + size.toNat ≤ 0x400000 := by
  have hbase : kernelVirtBase.toNat = 0xC0000000 := rfl
  have hlimit : (start + size).toNat = start.toNat + size.toNat := by
    rw [BitVec.toNat_add]
    omega
  have htmp := toNat_and_page start
  have hempty := allocatesOutside_firstUncounted.apart isDirectory_empty
  have hapart : Apart (firstUncounted (2 ^ 20)) (emptyMachine.tmpMapPage emptyDir)
      (frameNo emptyDir) := ⟨hempty.alloc, hempty.table⟩
  have hnr : nrTables size = size.toNat / 0x400000 + 1 := rfl
  rw [hnr] at hrun
  have hs : start.toNat / 2 ^ 22 + 1 < 1024 := by omega
  have habsent : m'.mem (frameNo emptyDir) ⟨start.toNat / 2 ^ 22 + 1, hs⟩ = 0#32 :=
    mapTables_skips (by omega) (by omega) (by omega) hflags hapart (by omega) hrun _
      (show start.toNat / 2 ^ 22 + 1 = _ by omega)
  have hend := hcovers.le_of_absent (by omega) hs habsent
  refine ⟨?_, by omega⟩
  by_contra hsize
  have hn : size.toNat / 0x400000 = size.toNat / 0x400000 - 1 + 1 := by omega
  rw [hn] at hrun
  -- the table of the second round is behind the chunk
  have hs₂ : start.toNat / 2 ^ 22 + 2 < 1024 := by omega
  have hpresent := mapTables_enters (by omega) (by omega) (by omega) hflags hapart (by omega) hrun
    ⟨start.toNat / 2 ^ 22 + 2, hs₂⟩ (show start.toNat / 2 ^ 22 + 2 = _ by omega)
  have hva : (BitVec.ofNat 32 ((start.toNat / 2 ^ 22 + 2) * 2 ^ 22)).toNat =
      (start.toNat / 2 ^ 22 + 2) * 2 ^ 22 := by
    rw [BitVec.toNat_ofNat]
    omega
  have hsame := hkeeps.dir (BitVec.ofNat 32 ((start.toNat / 2 ^ 22 + 2) * 2 ^ 22)) (by omega)
  have hslot : pgDirIndex (BitVec.ofNat 32 ((start.toNat / 2 ^ 22 + 2) * 2 ^ 22)) =
      ⟨start.toNat / 2 ^ 22 + 2, hs₂⟩ := by
    refine Fin.ext (show (BitVec.ofNat 32 ((start.toNat / 2 ^ 22 + 2) * 2 ^ 22)).toNat / 2 ^ 22 =
      start.toNat / 2 ^ 22 + 2 from ?_)
    omega
  unfold Machine.pgTable at hsame
  rw [hslot] at hsame
  rw [hsame] at hpresent
  exact not_has_zero _ hpresent

/-- The frame of the last byte has a number of 20 bits. -/
theorem Covers.phys_le (h : Covers start size pageDir flags phys m)
    (hbelow : start.toNat + size.toNat ≤ kernelVirtBase.toNat) (hphys : phys ≠ 0#32) :
    phys.toNat / 4096 * 4096 + start.toNat % 4096 + size.toNat ≤ 2 ^ 32 := by
  by_contra hgt
  have hbase : kernelVirtBase.toNat = 0xC0000000 := rfl
  have hbound := phys.isLt
  have hva : (BitVec.ofNat 32 (start.toNat + size.toNat - 1)).toNat =
      start.toNat + size.toNat - 1 := by
    rw [BitVec.toNat_ofNat]
    omega
  obtain ⟨e, -, -, hframe⟩ := h (BitVec.ofNat 32 (start.toNat + size.toNat - 1)) (by omega)
    (by omega)
  have hlast := hframe hphys
  have hlt := (frameNo e).isLt
  omega

/-- A chunk is mapped, for any page directory and whatever frames there are, exactly when it lies
in one page table, which it does not fill, and its physical addresses are of 32 bits. -/
theorem mapsChunk_iff_one_table (hbelow : start.toNat + size.toNat ≤ kernelVirtBase.toNat)
    (hflags : frameNo flags = 0#20) :
    (∀ (alloc : Machine → BitVec 32) (initPageDirectory : Page) (reserved : Set Frame)
      (m : Machine) (pageDir : BitVec 32), AllocatesOutside reserved alloc →
      IsDirectory reserved m pageDir →
      MapsChunk alloc initPageDirectory start size pageDir flags phys m) ↔
    size.toNat < 0x400000 ∧ start.toNat % 0x400000 + size.toNat ≤ 0x400000 ∧
      (phys ≠ 0#32 →
        phys.toNat / 4096 * 4096 + start.toNat % 4096 + size.toNat ≤ 2 ^ 32) := by
  constructor
  · intro h
    obtain ⟨m', hrun, hcovers, hkeeps⟩ := exists_run_of_mapsChunk hbelow
      (h (firstUncounted (2 ^ 20)) (fun _ => 0#32) {1#20} emptyMachine emptyDir
        allocatesOutside_firstUncounted isDirectory_empty)
    obtain ⟨hsize, hone⟩ := one_table_of_covers hbelow hflags hrun hcovers hkeeps
    exact ⟨hsize, hone, hcovers.phys_le hbelow⟩
  · rintro ⟨hsize, hone, hphys⟩ alloc initPageDirectory reserved m pageDir halloc hdir
    exact mapsChunk_of_one_table halloc hdir hflags hbelow hsize hone hphys

/-- One page of the stack. -/
theorem mapsChunk_one_page :
    MapsChunk (firstUncounted (2 ^ 20)) (fun _ => 0#32) 0xBFFFE000#32 0x1000#32 emptyDir
      (pageUser ||| pageWritable) 0#32 emptyMachine :=
  (mapsChunk_iff_one_table (by decide) (by decide)).mpr
    ⟨by decide, by decide, fun h => absurd rfl h⟩ _ _ _ _ _ allocatesOutside_firstUncounted
    isDirectory_empty

/-- The call does not fail for two pages of which the second one needs another table, but that
page is not mapped. -/
theorem virtMapChunk_two_tables :
    ∃ m', virtMapChunk (firstUncounted (2 ^ 20)) (fun _ => 0#32) 0x3FF000#32 0x2000#32 emptyDir
        (pageUser ||| pageWritable) 0#32 emptyMachine = .ok (m', emptyDir) ∧
      ¬ Covers 0x3FF000#32 0x2000#32 emptyDir (pageUser ||| pageWritable) 0#32 m' := by
  have hcounts : CountsBelow 2 (emptyMachine.tmpMapPage emptyDir) := fun _ _ => rfl
  have hempty := allocatesOutside_firstUncounted.apart isDirectory_empty
  have hapart : Apart (firstUncounted (2 ^ 20)) (emptyMachine.tmpMapPage emptyDir)
      (frameNo emptyDir) := ⟨hempty.alloc, hempty.table⟩
  rcases mapTables_some (r := 1) (0x3FF000#32 + 0x2000#32) emptyDir (pageUser ||| pageWritable)
    emptyMachine.getTmpPage 0 (0x3FF000#32 &&& 0xFFFFF000#32) 0#32 hcounts le_rfl le_rfl
    (by decide) with ⟨stop, hstop⟩ | ⟨mapped, hmapped⟩
  · obtain ⟨r, hr⟩ := mapTables_one (firstUncounted (2 ^ 20)) (0x3FF000#32 + 0x2000#32) emptyDir
      (pageUser ||| pageWritable) emptyMachine.getTmpPage (0x3FF000#32 &&& 0xFFFFF000#32) 0#32
      (emptyMachine.tmpMapPage emptyDir)
    rw [hr] at hstop
    cases hstop
  · refine ⟨_, virtMapChunk_eq (by decide) hmapped, fun hcovers => ?_⟩
    have habsent := mapTables_skips (by decide) (by decide) (by decide) (by decide) hapart
      (Or.inl rfl) hmapped 1 (by decide)
    have hle := hcovers.le_of_absent (s := 1) (by decide) (by decide) habsent
    exact absurd hle (by decide)

end Runs

end Yak.Paging.Chunk
