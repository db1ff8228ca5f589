import Yak.PageTables

/-!
# Sharing of page frames between processes

While a process forks, parent and child have their page tables in common, and the
loop of `copy_address_space` takes them apart one by one.  `Spaces` is the invariant
of the page tables of all processes; its parameters say which tables are still in
common and which of them are already counted.
-/

namespace Yak.Paging

open PageFrames (noFreePage)
open Process (Slot)

/-- What a frame is used for. -/
inductive Role where
  | dir
  | userTable
  | kernelTable
  | data
  deriving DecidableEq

namespace Machine

variable {m m' : Machine} {role : Frame → Role} {p q : Slot} {i j k l : Index} {d t f : Frame}
  {e : BitVec 32}

/-- The page table of a process which the user may go through. -/
def userTable (m : Machine) (p : Slot) (i : Index) : Option Frame :=
  (m.dir p).bind fun d => if OpenAt (m.mem d) i then some (frameNo (m.mem d i)) else none

/-- The page table of a process which only the kernel may go through. -/
def kernelTable (m : Machine) (p : Slot) (i : Index) : Option Frame :=
  (m.dir p).bind fun d =>
    if Has (m.mem d i) pagePresent ∧ ¬ Has (m.mem d i) pageUser then some (frameNo (m.mem d i))
    else none

/-- The frame which a process has at this pair of indices. -/
def frameAt (m : Machine) (p : Slot) (i j : Index) : Option Frame := (m.leaf p i j).map frameNo

/-- The frame holds a page directory, a page table, or a page of the user. -/
def InUse (m : Machine) (f : Frame) : Prop :=
  ∃ p, m.dir p = some f ∨
    ∃ i, m.userTable p i = some f ∨ m.kernelTable p i = some f ∨ ∃ j, m.frameAt p i j = some f

/-- A process has the frame as a page. -/
def Mapped (m : Machine) (f : Frame) : Prop := ∃ q i j, m.frameAt q i j = some f

theorem leaf_eq (m : Machine) (p : Slot) (i j : Index) :
    m.leaf p i j = (m.userTable p i).bind fun t =>
      if Has (m.mem t j) pagePresent then some (m.mem t j) else none := by
  unfold leaf userTable
  cases m.dir p with
  | none => rfl
  | some d =>
      simp only [Option.bind_some]
      by_cases h : OpenAt (m.mem d) i
      · rw [if_pos h]
        exact if_pos h
      · rw [if_neg h]
        exact if_neg h

theorem leaf_eq_some : m.leaf p i j = some e ↔
    ∃ t, m.userTable p i = some t ∧ Has (m.mem t j) pagePresent ∧ m.mem t j = e := by
  rw [leaf_eq, Option.bind_eq_some_iff]
  constructor
  · rintro ⟨t, ht, he⟩
    by_cases h : Has (m.mem t j) pagePresent
    · rw [if_pos h, Option.some_inj] at he
      exact ⟨t, ht, h, he⟩
    · rw [if_neg h] at he
      cases he
  · rintro ⟨t, ht, h, rfl⟩
    exact ⟨t, ht, if_pos h⟩

theorem userTable_eq_some : m.userTable p i = some t ↔
    ∃ d, m.dir p = some d ∧ OpenAt (m.mem d) i ∧ frameNo (m.mem d i) = t := by
  unfold userTable
  rw [Option.bind_eq_some_iff]
  simp

theorem kernelTable_eq_some : m.kernelTable p i = some t ↔
    ∃ d, m.dir p = some d ∧ (Has (m.mem d i) pagePresent ∧ ¬ Has (m.mem d i) pageUser) ∧
      frameNo (m.mem d i) = t := by
  unfold kernelTable
  rw [Option.bind_eq_some_iff]
  simp

theorem frameAt_eq_some : m.frameAt p i j = some f ↔
    ∃ e, m.leaf p i j = some e ∧ frameNo e = f := by
  unfold frameAt
  rw [Option.map_eq_some_iff]

theorem frameAt_of_leaf (h : m.leaf p i j = some e) : m.frameAt p i j = some (frameNo e) := by
  rw [frameAt, h, Option.map_some]

open Classical in
/-- The processes which have the frame at a pair of indices that is counted. -/
noncomputable def sharers (m : Machine) (counted : Slot → Index → Prop) (f : Frame) :
    Finset Slot :=
  Finset.univ.filter fun q => ∃ i j, m.frameAt q i j = some f ∧ counted q i

open Classical in
theorem mem_sharers {counted : Slot → Index → Prop} :
    q ∈ m.sharers counted f ↔ ∃ i j, m.frameAt q i j = some f ∧ counted q i := by
  unfold sharers
  rw [Finset.mem_filter, and_iff_right (Finset.mem_univ q)]

theorem card_sharers_le (m : Machine) (counted : Slot → Index → Prop) (f : Frame) :
    (m.sharers counted f).card ≤ 64 := by
  have := Finset.card_le_univ (m.sharers counted f)
  rwa [Fintype.card_fin] at this

theorem sharers_congr {counted counted' : Slot → Index → Prop}
    (h : ∀ q i j, (m'.frameAt q i j = some f ∧ counted' q i) ↔
      (m.frameAt q i j = some f ∧ counted q i)) :
    m'.sharers counted' f = m.sharers counted f := by
  ext q
  rw [mem_sharers, mem_sharers]
  simp only [h]

/-- The page tables of the processes.  A table may be at the same index of two
directories where `joint` allows it; a reference count is the number of processes
with the frame at an index that is `counted`. -/
structure Spaces (m : Machine) (role : Frame → Role) (joint : Slot → Slot → Index → Prop)
    (counted : Slot → Index → Prop) : Prop where
  dir_role {p : Slot} {d : Frame} : m.dir p = some d → role d = .dir
  user_role {p : Slot} {i : Index} {t : Frame} : m.userTable p i = some t → role t = .userTable
  kernel_role {p : Slot} {i : Index} {t : Frame} : m.kernelTable p i = some t → role t = .kernelTable
  data_role {p : Slot} {i j : Index} {f : Frame} : m.frameAt p i j = some f → role f = .data
  dir_inj {p q : Slot} {d : Frame} : m.dir p = some d → m.dir q = some d → p = q
  table_inj {p q : Slot} {i k : Index} {t : Frame} :
    m.userTable p i = some t → m.userTable q k = some t → i = k ∧ (p = q ∨ joint p q i)
  once {p : Slot} {i j k l : Index} {f : Frame} :
    m.frameAt p i j = some f → m.frameAt p k l = some f → i = k ∧ j = l
  count {p : Slot} {i j : Index} {f : Frame} : m.frameAt p i j = some f →
    m.counts f = BitVec.ofNat 8 (m.sharers counted f).card
  alone {p q : Slot} {i j k l : Index} {e : BitVec 32} :
    m.leaf p i j = some e → Has e pageWritable → m.frameAt q k l = some (frameNo e) → q = p
  pid {p : Slot} {d : Frame} : m.dir p = some d → p.val ≠ 0

/-- The invariant between two system calls. -/
def Sound (m : Machine) (role : Frame → Role) : Prop :=
  m.Spaces role (fun _ _ _ => False) fun _ _ => True

theorem Spaces.congr {joint : Slot → Slot → Index → Prop} {counted : Slot → Index → Prop}
    (h : m.Spaces role joint counted) (hdir : m'.dir = m.dir)
    (huser : m'.userTable = m.userTable) (hkernel : m'.kernelTable = m.kernelTable)
    (hleaf : m'.leaf = m.leaf) (hcounts : m'.counts = m.counts) :
    m'.Spaces role joint counted := by
  have hframe : m'.frameAt = m.frameAt := by
    unfold frameAt
    rw [hleaf]
  refine ⟨?_, ?_, ?_, ?_, ?_, ?_, ?_, ?_, ?_, ?_⟩
  · rw [hdir]
    exact h.dir_role
  · rw [huser]
    exact h.user_role
  · rw [hkernel]
    exact h.kernel_role
  · rw [hframe]
    exact h.data_role
  · rw [hdir]
    exact h.dir_inj
  · rw [huser]
    exact h.table_inj
  · rw [hframe]
    exact h.once
  · intro p i j f hf
    rw [hframe] at hf
    have hsame : m'.sharers counted f = m.sharers counted f := by
      apply sharers_congr
      intro q k l
      rw [hframe]
    rw [hcounts, hsame]
    exact h.count hf
  · rw [hframe, hleaf]
    exact h.alone
  · rw [hdir]
    exact h.pid

/-- Bytes are equal where the same frame is mapped and holds the same. -/
theorem read_congr {va : BitVec 32}
    (hleaf : ∀ i j, ∃ g : BitVec 32 → BitVec 32, (∀ e, frameNo (g e) = frameNo e) ∧
      (∀ e, Has (g e) pageUser ↔ Has e pageUser) ∧ m'.leaf q i j = (m.leaf p i j).map g)
    (hmem : ∀ i j f, m.frameAt p i j = some f → m'.mem f = m.mem f) :
    m'.read q va = m.read p va := by
  obtain ⟨g, hg, huser, h⟩ := hleaf (pgDirIndex va) (pgTabIndex va)
  unfold read
  rw [h]
  cases he : m.leaf p (pgDirIndex va) (pgTabIndex va) with
  | none => rfl
  | some e =>
      simp only [Option.map_some, huser, hg]
      rw [hmem _ _ _ (frameAt_of_leaf he)]

theorem read_congr_self {va : BitVec 32} (hleaf : m'.leaf = m.leaf)
    (hmem : ∀ i j f, m.frameAt p i j = some f → m'.mem f = m.mem f) :
    m'.read p va = m.read p va := by
  apply read_congr _ hmem
  intro i j
  refine ⟨id, fun _ => rfl, fun _ => Iff.rfl, ?_⟩
  rw [hleaf, Option.map_id, id]

/-! ## The first half of `copy_address_space` -/

/-- The machine with a page directory for the child, all page tables being in common
and closed for writing. -/
def joined (m : Machine) (child : Slot) (cr3 new : BitVec 32) : Machine where
  mem f :=
    if f = frameNo new then cowDir (m.mem (frameNo cr3)) (List.finRange 1024)
    else if TableAt (m.mem (frameNo cr3)) (List.finRange 1024) f then cowPage (m.mem f)
    else m.mem f
  counts := Function.update m.counts (frameNo new) 1#8
  tmpPage := frameNo cr3
  cr3 := Function.update m.cr3 child (some new)

section Joined

variable {a c : Slot} {cr3 new : BitVec 32}

theorem openAt_cowDir {page : Page} : OpenAt (cowDir page (List.finRange 1024)) i ↔
    OpenAt page i := by
  unfold cowDir
  by_cases h : OpenAt page i
  · have := h
    unfold OpenAt at this ⊢
    simp [this]
  · unfold OpenAt at *
    simp [h]

theorem frameNo_cowDir {page : Page} :
    frameNo (cowDir page (List.finRange 1024) i) = frameNo (page i) := by
  unfold cowDir
  split
  · exact frameNo_readOnly
  · rfl

theorem cowDir_of_closed {page : Page} (h : ¬ OpenAt page i) :
    cowDir page (List.finRange 1024) i = page i := if_neg fun h' => h h'.2

theorem tableAt_iff (hcr3 : m.cr3 a = some cr3) :
    TableAt (m.mem (frameNo cr3)) (List.finRange 1024) t ↔ ∃ i, m.userTable a i = some t := by
  have hdir : m.dir a = some (frameNo cr3) := by rw [dir, hcr3, Option.map_some]
  unfold TableAt
  simp only [userTable_eq_some, hdir, Option.some_inj, List.mem_finRange, true_and,
    exists_eq_left']

theorem joined_dir (q : Slot) : (m.joined c cr3 new).dir q =
    if q = c then some (frameNo new) else m.dir q := by
  unfold joined dir
  by_cases h : q = c
  · subst h
    simp
  · simp [h]

variable (h : m.Sound role) (hcr3 : m.cr3 a = some cr3) (hc : m.cr3 c = none)
  (hnew : ¬ m.InUse (frameNo new))

include h hcr3 hnew in
theorem joined_mem_dir (hd : m.dir q = some d) : (m.joined c cr3 new).mem d = m.mem d := by
  have hne : d ≠ frameNo new := by
    rintro rfl
    exact hnew ⟨q, Or.inl hd⟩
  have hnot : ¬ TableAt (m.mem (frameNo cr3)) (List.finRange 1024) d := by
    rw [tableAt_iff hcr3]
    rintro ⟨i, hi⟩
    have h1 := h.user_role hi
    rw [h.dir_role hd] at h1
    cases h1
  unfold joined
  simp only [if_neg hne, if_neg hnot]

theorem joined_mem_new : (m.joined c cr3 new).mem (frameNo new) =
    cowDir (m.mem (frameNo cr3)) (List.finRange 1024) := if_pos rfl

include h hcr3 hnew in
theorem joined_mem_data (hf : m.frameAt q i j = some f) :
    (m.joined c cr3 new).mem f = m.mem f := by
  have hne : f ≠ frameNo new := by
    rintro rfl
    exact hnew ⟨q, Or.inr ⟨i, Or.inr (Or.inr ⟨j, hf⟩)⟩⟩
  have hnot : ¬ TableAt (m.mem (frameNo cr3)) (List.finRange 1024) f := by
    rw [tableAt_iff hcr3]
    rintro ⟨k, hk⟩
    have h1 := h.user_role hk
    rw [h.data_role hf] at h1
    cases h1
  unfold joined
  simp only [if_neg hne, if_neg hnot]

include hcr3 in
theorem dir_of_cr3 : m.dir a = some (frameNo cr3) := by rw [dir, hcr3, Option.map_some]

include h hcr3 hnew in
theorem joined_userTable (q : Slot) (i : Index) : (m.joined c cr3 new).userTable q i =
    if q = c then m.userTable a i else m.userTable q i := by
  by_cases hq : q = c
  · rw [if_pos hq]
    unfold userTable
    rw [joined_dir, if_pos hq, dir_of_cr3 hcr3, Option.bind_some, Option.bind_some,
      joined_mem_new]
    simp only [openAt_cowDir, frameNo_cowDir]
  · rw [if_neg hq]
    unfold userTable
    rw [joined_dir, if_neg hq]
    cases hd : m.dir q with
    | none => rfl
    | some d =>
        rw [Option.bind_some, Option.bind_some]
        simp only [joined_mem_dir h hcr3 hnew hd]

include h hcr3 hnew in
theorem joined_kernelTable (q : Slot) (i : Index) : (m.joined c cr3 new).kernelTable q i =
    if q = c then m.kernelTable a i else m.kernelTable q i := by
  by_cases hq : q = c
  · rw [if_pos hq]
    unfold kernelTable
    rw [joined_dir, if_pos hq, dir_of_cr3 hcr3, Option.bind_some, Option.bind_some,
      joined_mem_new]
    by_cases ho : OpenAt (m.mem (frameNo cr3)) i
    · have ho' := openAt_cowDir.mpr ho
      rw [if_neg (fun hh => hh.2 ho'.2), if_neg (fun hh => hh.2 ho.2)]
    · rw [cowDir_of_closed ho]
  · rw [if_neg hq]
    unfold kernelTable
    rw [joined_dir, if_neg hq]
    cases hd : m.dir q with
    | none => rfl
    | some d =>
        rw [Option.bind_some, Option.bind_some]
        simp only [joined_mem_dir h hcr3 hnew hd]

include h hcr3 hnew in
theorem joined_leaf (q : Slot) (i j : Index) : (m.joined c cr3 new).leaf q i j =
    if q = c ∨ q = a then (m.leaf a i j).map readOnly else m.leaf q i j := by
  -- the entries of a table of the forking process, which is closed for writing
  have hshared : ∀ t, m.userTable a i = some t →
      (if Has ((m.joined c cr3 new).mem t j) pagePresent then
        some ((m.joined c cr3 new).mem t j) else none) =
      (if Has (m.mem t j) pagePresent then some (m.mem t j) else none).map readOnly := by
    intro t ht
    have hne : t ≠ frameNo new := by
      rintro rfl
      exact hnew ⟨a, Or.inr ⟨i, Or.inl ht⟩⟩
    have hmem : (m.joined c cr3 new).mem t = cowPage (m.mem t) := by
      unfold joined
      simp only [if_neg hne, if_pos ((tableAt_iff hcr3).mpr ⟨i, ht⟩)]
    rw [hmem]
    unfold cowPage
    by_cases hp : Has (m.mem t j) pagePresent
    · rw [if_pos hp, if_pos (has_cowEntry_present.mpr hp), Option.map_some]
      unfold cowEntry
      rw [if_pos hp]
    · rw [if_neg hp, if_neg (fun hh => hp (has_cowEntry_present.mp hh))]
      rfl
  rw [leaf_eq, joined_userTable h hcr3 hnew]
  by_cases hq : q = c ∨ q = a
  · have htable : (if q = c then m.userTable a i else m.userTable q i) = m.userTable a i := by
      rcases hq with hq | rfl
      · rw [if_pos hq]
      · exact ite_self _
    rw [htable, if_pos hq, leaf_eq]
    cases ht : m.userTable a i with
    | none => rfl
    | some t =>
        rw [Option.bind_some, Option.bind_some]
        exact hshared t ht
  · rw [not_or] at hq
    rw [if_neg hq.1, if_neg (not_or.mpr hq), leaf_eq]
    cases ht : m.userTable q i with
    | none => rfl
    | some t =>
        have hne : t ≠ frameNo new := by
          rintro rfl
          exact hnew ⟨q, Or.inr ⟨i, Or.inl ht⟩⟩
        have hnot : ¬ TableAt (m.mem (frameNo cr3)) (List.finRange 1024) t := by
          rw [tableAt_iff hcr3]
          rintro ⟨k, hk⟩
          exact hq.2 ((h.table_inj ht hk).2.resolve_right id)
        have hmem : (m.joined c cr3 new).mem t = m.mem t := by
          unfold joined
          simp only [if_neg hne, if_neg hnot]
        rw [Option.bind_some, Option.bind_some, hmem]

include h hcr3 hnew in
theorem joined_frameAt (q : Slot) (i j : Index) : (m.joined c cr3 new).frameAt q i j =
    if q = c then m.frameAt a i j else m.frameAt q i j := by
  have hkeep : Option.map frameNo ((m.leaf a i j).map readOnly) = m.frameAt a i j := by
    rw [Option.map_map]
    unfold frameAt
    congr 1
    funext e
    exact frameNo_readOnly
  unfold frameAt at hkeep ⊢
  rw [joined_leaf h hcr3 hnew]
  by_cases hq : q = c
  · rw [if_pos (Or.inl hq), if_pos hq, hkeep]
  · rw [if_neg hq]
    by_cases hqa : q = a
    · rw [if_pos (Or.inr hqa), hkeep, hqa]
    · rw [if_neg (not_or.mpr ⟨hq, hqa⟩)]

end Joined

/-! ## Between the halves -/

/-- Parent and child have the tables at these indices in common. -/
def JointFor (a c : Slot) (todo : List Index) (p q : Slot) (i : Index) : Prop :=
  i ∈ todo ∧ (p = a ∧ q = c ∨ p = c ∧ q = a)

/-- What is in common is counted for the parent only. -/
def CountedFor (c : Slot) (todo : List Index) (q : Slot) (i : Index) : Prop := q = c → i ∉ todo

/-- The invariant of the second loop of `copy_address_space`. -/
structure Forking (m : Machine) (role : Frame → Role) (a c : Slot) (cr3 : BitVec 32)
    (todo : List Index) : Prop where
  spaces : m.Spaces role (JointFor a c todo) (CountedFor c todo)
  same : ∀ i ∈ todo, m.userTable a i = m.userTable c i
  closed : ∀ i j e, m.leaf a i j = some e → readOnly e = e
  ne : a ≠ c
  cr3_eq : m.cr3 a = some cr3
  tmpPage_eq : m.tmpPage = frameNo cr3

theorem InUse.dir (h : m.dir p = some f) : m.InUse f := ⟨p, Or.inl h⟩

theorem InUse.userTable (h : m.userTable p i = some f) : m.InUse f := ⟨p, Or.inr ⟨i, Or.inl h⟩⟩

theorem InUse.kernelTable (h : m.kernelTable p i = some f) : m.InUse f :=
  ⟨p, Or.inr ⟨i, Or.inr (Or.inl h)⟩⟩

theorem InUse.data (h : m.frameAt p i j = some f) : m.InUse f :=
  ⟨p, Or.inr ⟨i, Or.inr (Or.inr ⟨j, h⟩)⟩⟩

theorem update_of_inUse {α : Type} {g : Frame → α} {n : Frame} {x : α} (hn : ¬ m.InUse n)
    (hf : m.InUse f) : Function.update g n x f = g f := by
  apply Function.update_of_ne
  rintro rfl
  exact hn hf

/-- After the first loop everything is in common. -/
theorem Sound.joined {a c : Slot} {cr3 new : BitVec 32} (h : m.Sound role)
    (hcr3 : m.cr3 a = some cr3) (hc : m.cr3 c = none) (hzero : c.val ≠ 0)
    (hnew : ¬ m.InUse (frameNo new)) :
    (m.joined c cr3 new).Forking (Function.update role (frameNo new) .dir) a c cr3
      (List.finRange 1024) := by
  have hac : a ≠ c := by
    rintro rfl
    rw [hcr3] at hc
    cases hc
  have hdirc : m.dir c = none := by rw [dir, hc, Option.map_none]
  -- a process which is not the child has in the new machine what it had, and the child
  -- what its parent has
  have hwho : ∀ q, ∃ q', (q = c ∧ q' = a ∨ q ≠ c ∧ q' = q) ∧
      (∀ i, (m.joined c cr3 new).userTable q i = m.userTable q' i) ∧
      (∀ i, (m.joined c cr3 new).kernelTable q i = m.kernelTable q' i) ∧
      ∀ i j, (m.joined c cr3 new).frameAt q i j = m.frameAt q' i j := by
    intro q
    by_cases hq : q = c
    · refine ⟨a, Or.inl ⟨hq, rfl⟩, ?_, ?_, ?_⟩
      · intro i
        rw [joined_userTable h hcr3 hnew, if_pos hq]
      · intro i
        rw [joined_kernelTable h hcr3 hnew, if_pos hq]
      · intro i j
        rw [joined_frameAt h hcr3 hnew, if_pos hq]
    · refine ⟨q, Or.inr ⟨hq, rfl⟩, ?_, ?_, ?_⟩
      · intro i
        rw [joined_userTable h hcr3 hnew, if_neg hq]
      · intro i
        rw [joined_kernelTable h hcr3 hnew, if_neg hq]
      · intro i j
        rw [joined_frameAt h hcr3 hnew, if_neg hq]
  have hcframe : ∀ i j, m.frameAt c i j = none := by
    intro i j
    rw [frameAt, leaf_eq, userTable, hdirc]
    rfl
  have hspaces : (m.joined c cr3 new).Spaces (Function.update role (frameNo new) .dir)
      (JointFor a c (List.finRange 1024)) (CountedFor c (List.finRange 1024)) := by
    refine ⟨?_, ?_, ?_, ?_, ?_, ?_, ?_, ?_, ?_, ?_⟩
    · intro p d hd
      rw [joined_dir] at hd
      split at hd
      · rw [Option.some_inj] at hd
        rw [← hd, Function.update_self]
      · rw [update_of_inUse hnew (InUse.dir hd)]
        exact h.dir_role hd
    · intro p i t ht
      obtain ⟨p', -, hu, -, -⟩ := hwho p
      rw [hu] at ht
      rw [update_of_inUse hnew (InUse.userTable ht)]
      exact h.user_role ht
    · intro p i t ht
      obtain ⟨p', -, -, hk, -⟩ := hwho p
      rw [hk] at ht
      rw [update_of_inUse hnew (InUse.kernelTable ht)]
      exact h.kernel_role ht
    · intro p i j f hf
      obtain ⟨p', -, -, -, hd⟩ := hwho p
      rw [hd] at hf
      rw [update_of_inUse hnew (InUse.data hf)]
      exact h.data_role hf
    · intro p q d hp hq
      rw [joined_dir] at hp hq
      split at hp
      · rename_i hpc
        split at hq
        · rename_i hqc
          rw [hpc, hqc]
        · rw [Option.some_inj] at hp
          rw [← hp] at hq
          exact absurd (InUse.dir hq) hnew
      · split at hq
        · rw [Option.some_inj] at hq
          rw [← hq] at hp
          exact absurd (InUse.dir hp) hnew
        · exact h.dir_inj hp hq
    · intro p q i k t hp hq
      obtain ⟨p', hpw, hpu, -, -⟩ := hwho p
      obtain ⟨q', hqw, hqu, -, -⟩ := hwho q
      rw [hpu] at hp
      rw [hqu] at hq
      obtain ⟨hik, hpq⟩ := h.table_inj hp hq
      have hpq := hpq.resolve_right id
      refine ⟨hik, ?_⟩
      rcases hpw with ⟨rfl, rfl⟩ | ⟨hpc, rfl⟩
      · rcases hqw with ⟨rfl, -⟩ | ⟨hqc, rfl⟩
        · exact Or.inl rfl
        · exact Or.inr ⟨List.mem_finRange i, Or.inr ⟨rfl, hpq.symm⟩⟩
      · rcases hqw with ⟨rfl, rfl⟩ | ⟨hqc, rfl⟩
        · exact Or.inr ⟨List.mem_finRange i, Or.inl ⟨hpq, rfl⟩⟩
        · exact Or.inl hpq
    · intro p i j k l f hp hq
      obtain ⟨p', -, -, -, hd⟩ := hwho p
      rw [hd] at hp hq
      exact h.once hp hq
    · intro p i j f hf
      obtain ⟨p', -, -, -, hd⟩ := hwho p
      rw [hd] at hf
      have hcount : (m.joined c cr3 new).counts f = m.counts f :=
        update_of_inUse hnew (InUse.data hf)
      rw [hcount, h.count hf]
      -- the child is not counted yet, and it had nothing before
      have hsame : (m.joined c cr3 new).sharers (CountedFor c (List.finRange 1024)) f =
          m.sharers (fun _ _ => True) f := by
        apply sharers_congr
        intro q k l
        rw [joined_frameAt h hcr3 hnew]
        by_cases hq : q = c
        · subst hq
          rw [hcframe]
          constructor
          · exact fun hh => absurd (List.mem_finRange k) (hh.2 rfl)
          · exact fun hh => by cases hh.1
        · rw [if_neg hq]
          constructor
          · exact fun hh => ⟨hh.1, trivial⟩
          · exact fun hh => ⟨hh.1, fun hqc => absurd hqc hq⟩
      rw [hsame]
    · intro p q i j k l e he hw hf
      rw [joined_leaf h hcr3 hnew] at he
      split at he
      · obtain ⟨e', -, rfl⟩ := Option.map_eq_some_iff.mp he
        exact absurd hw not_has_readOnly_writable
      · rename_i hp
        rw [not_or] at hp
        obtain ⟨q', hqw, -, -, hd⟩ := hwho q
        rw [hd] at hf
        have hq := h.alone he hw hf
        rcases hqw with ⟨-, rfl⟩ | ⟨-, rfl⟩
        · exact absurd hq.symm hp.2
        · exact hq
    · intro p d hd
      rw [joined_dir] at hd
      split at hd
      · rename_i hp
        rw [hp]
        exact hzero
      · exact h.pid hd
  refine ⟨hspaces, ?_, ?_, hac, ?_, rfl⟩
  · intro i _
    rw [joined_userTable h hcr3 hnew, joined_userTable h hcr3 hnew, if_pos rfl, if_neg hac]
  · intro i j e he
    rw [joined_leaf h hcr3 hnew, if_pos (Or.inr rfl)] at he
    obtain ⟨e', -, rfl⟩ := Option.map_eq_some_iff.mp he
    exact readOnly_readOnly
  · unfold Machine.joined
    simp only
    rw [Function.update_of_ne hac]
    exact hcr3

/-! ## The second half of `copy_address_space` -/

section Split

variable {a c : Slot} {cr3 new : BitVec 32} {todo : List Index}

/-- Nothing is in common at an index without a page table. -/
theorem Forking.skip (h : m.Forking role a c cr3 (i :: todo)) (hi : m.userTable a i = none) :
    m.Forking role a c cr3 todo := by
  have hci : m.userTable c i = none := by rw [← h.same i List.mem_cons_self, hi]
  have hs := h.spaces
  refine ⟨⟨hs.dir_role, hs.user_role, hs.kernel_role, hs.data_role, hs.dir_inj, ?_, hs.once, ?_,
    hs.alone, hs.pid⟩, fun k hk => h.same k (List.mem_cons_of_mem i hk), h.closed, h.ne, h.cr3_eq,
    h.tmpPage_eq⟩
  · intro p q k k' t hp hq
    obtain ⟨hkk, hpq⟩ := hs.table_inj hp hq
    refine ⟨hkk, hpq.imp_right ?_⟩
    rintro ⟨hk, hwho⟩
    refine ⟨?_, hwho⟩
    rcases List.mem_cons.mp hk with rfl | hk
    · rcases hwho with ⟨rfl, -⟩ | ⟨rfl, -⟩
      · rw [hi] at hp
        cases hp
      · rw [hci] at hp
        cases hp
    · exact hk
  · intro p k l f hf
    rw [hs.count hf]
    have hsame : m.sharers (CountedFor c todo) f = m.sharers (CountedFor c (i :: todo)) f := by
      apply sharers_congr
      intro q k l
      constructor
      · rintro ⟨hq, hcount⟩
        refine ⟨hq, ?_⟩
        rintro rfl hk
        rcases List.mem_cons.mp hk with rfl | hk
        · rw [frameAt, leaf_eq, hci] at hq
          cases hq
        · exact hcount rfl hk
      · rintro ⟨hq, hcount⟩
        exact ⟨hq, fun hqc hk => hcount hqc (List.mem_cons_of_mem i hk)⟩
    rw [hsame]

/-- The machine after the second loop has run at index `i`. -/
theorem split_eq (htmp : m.tmpPage = frameNo cr3) (hne : frameNo new ≠ frameNo cr3) :
    (m.setCount new 1#8).splitTable i new =
      { m with
        mem := Function.update
          (Function.update m.mem (frameNo new)
            (cowPage (m.mem (frameNo (m.mem (frameNo cr3) i)))))
          (frameNo cr3)
          (Function.update (m.mem (frameNo cr3)) i
            (readOnly (redirect new (m.mem (frameNo cr3) i))))
        counts := fun f => Function.update m.counts (frameNo new) 1#8 f +
          BitVec.ofNat 8
            (refs (m.mem (frameNo (m.mem (frameNo cr3) i))) (List.finRange 1024) f) } := by
  have hdir : frameNo new ≠ (m.setCount new 1#8).tmpPage := by
    rw [show (m.setCount new 1#8).tmpPage = m.tmpPage from rfl, htmp]
    exact hne
  rw [splitTable_eq _ _ _ hdir]
  unfold setCount
  simp only [htmp]

variable (h : m.Forking role a c cr3 (i :: todo)) (ho : OpenAt (m.mem (frameNo cr3)) i)
  (hnew : ¬ m.InUse (frameNo new)) (halign : new &&& 0xFFF#32 = 0#32)
  (hm' : m' = (m.setCount new 1#8).splitTable i new)

include h in
theorem Forking.dir_eq : m.dir a = some (frameNo cr3) := dir_of_cr3 h.cr3_eq

include h ho in
theorem Forking.table_parent : m.userTable a i = some (frameNo (m.mem (frameNo cr3) i)) :=
  userTable_eq_some.mpr ⟨_, h.dir_eq, ho, rfl⟩

include h ho in
theorem Forking.table_child : m.userTable c i = some (frameNo (m.mem (frameNo cr3) i)) := by
  rw [← h.same i List.mem_cons_self, h.table_parent ho]

include h hnew hm' in
theorem Forking.split_machine : m' =
    { m with
      mem := Function.update
        (Function.update m.mem (frameNo new)
          (cowPage (m.mem (frameNo (m.mem (frameNo cr3) i)))))
        (frameNo cr3)
        (Function.update (m.mem (frameNo cr3)) i
          (readOnly (redirect new (m.mem (frameNo cr3) i))))
      counts := fun f => Function.update m.counts (frameNo new) 1#8 f +
        BitVec.ofNat 8
          (refs (m.mem (frameNo (m.mem (frameNo cr3) i))) (List.finRange 1024) f) } := by
  rw [hm']
  apply split_eq h.tmpPage_eq
  intro heq
  rw [heq] at hnew
  exact hnew (InUse.dir h.dir_eq)

include h hnew hm' in
theorem Forking.split_dir (q : Slot) : m'.dir q = m.dir q := by
  rw [h.split_machine hnew hm']
  rfl

include h hnew hm' in
/-- A frame in use which is not the page directory of the parent keeps its contents. -/
theorem Forking.split_mem (hf : m.InUse f) (hne : f ≠ frameNo cr3) : m'.mem f = m.mem f := by
  rw [h.split_machine hnew hm']
  simp only
  rw [Function.update_of_ne hne, update_of_inUse hnew hf]

include h hnew hm' in
theorem Forking.split_mem_dir : m'.mem (frameNo cr3) =
    Function.update (m.mem (frameNo cr3)) i
      (readOnly (redirect new (m.mem (frameNo cr3) i))) := by
  rw [h.split_machine hnew hm']
  exact Function.update_self ..

include h hnew hm' in
theorem Forking.split_mem_new : m'.mem (frameNo new) =
    cowPage (m.mem (frameNo (m.mem (frameNo cr3) i))) := by
  rw [h.split_machine hnew hm']
  simp only
  rw [Function.update_of_ne, Function.update_self]
  intro heq
  rw [heq] at hnew
  exact hnew (InUse.dir h.dir_eq)

include h ho hnew halign hm' in
theorem Forking.split_open (k : Index) :
    OpenAt (m'.mem (frameNo cr3)) k ↔ OpenAt (m.mem (frameNo cr3)) k := by
  rw [h.split_mem_dir hnew hm']
  unfold OpenAt
  by_cases hk : k = i
  · subst hk
    rw [Function.update_self, has_readOnly_present, has_readOnly_user,
      has_redirect halign (by decide), has_redirect halign (by decide)]
  · rw [Function.update_of_ne hk]

include h ho hnew halign hm' in
theorem Forking.split_userTable (q : Slot) (k : Index) : m'.userTable q k =
    if q = a ∧ k = i then some (frameNo new) else m.userTable q k := by
  unfold userTable
  rw [h.split_dir hnew hm']
  by_cases hq : q = a
  · subst hq
    rw [h.dir_eq, Option.bind_some, Option.bind_some]
    simp only [h.split_open ho hnew halign hm', true_and]
    rw [h.split_mem_dir hnew hm']
    by_cases hk : k = i
    · subst hk
      rw [if_pos ho, if_pos rfl, Function.update_self, frameNo_readOnly, frameNo_redirect]
    · rw [if_neg hk, Function.update_of_ne hk]
  · rw [if_neg (fun hh => hq hh.1)]
    cases hd : m.dir q with
    | none => rfl
    | some d =>
        have hne : d ≠ frameNo cr3 := by
          rintro rfl
          exact hq (h.spaces.dir_inj hd h.dir_eq)
        rw [Option.bind_some, Option.bind_some, h.split_mem hnew hm' (InUse.dir hd) hne]

include h ho hnew halign hm' in
theorem Forking.split_kernelTable (q : Slot) (k : Index) :
    m'.kernelTable q k = m.kernelTable q k := by
  unfold kernelTable
  rw [h.split_dir hnew hm']
  by_cases hq : q = a
  · subst hq
    rw [h.dir_eq, Option.bind_some, Option.bind_some]
    by_cases hk : k = i
    · subst hk
      have ho' := (h.split_open ho hnew halign hm' k).mpr ho
      rw [if_neg (fun hh => hh.2 ho'.2), if_neg (fun hh => hh.2 ho.2)]
    · rw [h.split_mem_dir hnew hm', Function.update_of_ne hk]
  · cases hd : m.dir q with
    | none => rfl
    | some d =>
        have hne : d ≠ frameNo cr3 := by
          rintro rfl
          exact hq (h.spaces.dir_inj hd h.dir_eq)
        rw [Option.bind_some, Option.bind_some, h.split_mem hnew hm' (InUse.dir hd) hne]

include h ho hnew halign hm' in
/-- No process sees the table change its place. -/
theorem Forking.split_leaf : m'.leaf = m.leaf := by
  funext q k j
  rw [leaf_eq, leaf_eq, h.split_userTable ho hnew halign hm']
  by_cases hq : q = a ∧ k = i
  · obtain ⟨rfl, rfl⟩ := hq
    rw [if_pos ⟨rfl, rfl⟩, h.table_parent ho, Option.bind_some, Option.bind_some,
      h.split_mem_new hnew hm']
    unfold cowPage
    by_cases hp : Has (m.mem (frameNo (m.mem (frameNo cr3) k)) j) pagePresent
    · rw [if_pos hp, if_pos (has_cowEntry_present.mpr hp)]
      unfold cowEntry
      rw [if_pos hp, h.closed k j _ (leaf_eq_some.mpr ⟨_, h.table_parent ho, hp, rfl⟩)]
    · rw [if_neg hp, if_neg (fun hh => hp (has_cowEntry_present.mp hh))]
  · rw [if_neg hq]
    cases ht : m.userTable q k with
    | none => rfl
    | some t =>
        have hne : t ≠ frameNo cr3 := by
          rintro rfl
          have h1 := h.spaces.user_role ht
          rw [h.spaces.dir_role h.dir_eq] at h1
          cases h1
        rw [Option.bind_some, Option.bind_some, h.split_mem hnew hm' (InUse.userTable ht) hne]

include h ho hnew hm' in
/-- The counts grow by one where the table that was in common has the frame. -/
theorem Forking.split_counts (hnodup : (i :: todo).Nodup) (hf : m.frameAt p k j = some f) :
    m'.counts f = BitVec.ofNat 8 (m.sharers (CountedFor c todo) f).card := by
  have hs := h.spaces
  have hcounts : m'.counts f = m.counts f + BitVec.ofNat 8
      (refs (m.mem (frameNo (m.mem (frameNo cr3) i))) (List.finRange 1024) f) := by
    rw [h.split_machine hnew hm']
    simp only
    rw [update_of_inUse hnew (InUse.data hf)]
  have hentry : ∀ l, Has (m.mem (frameNo (m.mem (frameNo cr3) i)) l) pagePresent →
      frameNo (m.mem (frameNo (m.mem (frameNo cr3) i)) l) = f → m.frameAt c i l = some f := by
    intro l hp hl
    rw [← hl]
    exact frameAt_of_leaf (leaf_eq_some.mpr ⟨_, h.table_child ho, hp, rfl⟩)
  rw [hcounts, hs.count hf]
  by_cases hhas : ∃ l, m.frameAt c i l = some f
  · obtain ⟨l, hl⟩ := hhas
    -- the child has the frame at this index, and so it was not counted before
    have hout : c ∉ m.sharers (CountedFor c (i :: todo)) f := by
      rw [mem_sharers]
      rintro ⟨k', j', hk', hcount⟩
      obtain ⟨rfl, -⟩ := hs.once hk' hl
      exact hcount rfl List.mem_cons_self
    have hinsert : m.sharers (CountedFor c todo) f =
        insert c (m.sharers (CountedFor c (i :: todo)) f) := by
      ext q
      rw [Finset.mem_insert, mem_sharers, mem_sharers]
      constructor
      · rintro ⟨k', j', hk', hcount⟩
        by_cases hq : q = c
        · exact Or.inl hq
        · exact Or.inr ⟨k', j', hk', fun hqc => absurd hqc hq⟩
      · rintro (rfl | ⟨k', j', hk', hcount⟩)
        · exact ⟨i, l, hl, fun _ => (List.nodup_cons.mp hnodup).1⟩
        · exact ⟨k', j', hk', fun hqc hmem => hcount hqc (List.mem_cons_of_mem i hmem)⟩
    obtain ⟨e, he, hef⟩ := frameAt_eq_some.mp hl
    obtain ⟨t, ht, hp, hte⟩ := leaf_eq_some.mp he
    rw [h.table_child ho, Option.some_inj] at ht
    subst ht
    have hone : refs (m.mem (frameNo (m.mem (frameNo cr3) i))) (List.finRange 1024) f = 1 := by
      apply refs_eq_one hp (by rw [hte, hef])
      intro l' hp' hl'
      exact (hs.once (hentry l' hp' hl') hl).2
    rw [hone, hinsert, Finset.card_insert_of_notMem hout, BitVec.ofNat_add]
  · have hzero : refs (m.mem (frameNo (m.mem (frameNo cr3) i))) (List.finRange 1024) f = 0 := by
      apply refs_eq_zero
      intro l hp hl
      exact hhas ⟨l, hentry l hp hl⟩
    have hsame : m.sharers (CountedFor c todo) f = m.sharers (CountedFor c (i :: todo)) f := by
      apply sharers_congr
      intro q k' j'
      constructor
      · rintro ⟨hq, hcount⟩
        refine ⟨hq, ?_⟩
        rintro rfl hk
        rcases List.mem_cons.mp hk with rfl | hk
        · exact hhas ⟨j', hq⟩
        · exact hcount rfl hk
      · rintro ⟨hq, hcount⟩
        exact ⟨hq, fun hqc hk => hcount hqc (List.mem_cons_of_mem i hk)⟩
    rw [hzero, hsame, BitVec.add_zero]

include h ho hnew halign hm' in
theorem Forking.split (hnodup : (i :: todo).Nodup) :
    m'.Forking (Function.update role (frameNo new) .userTable) a c cr3 todo := by
  have hs := h.spaces
  have hleaf := h.split_leaf ho hnew halign hm'
  have hframe : m'.frameAt = m.frameAt := by
    unfold frameAt
    rw [hleaf]
  have hdir : m'.dir = m.dir := funext (h.split_dir hnew hm')
  have hkernel : m'.kernelTable = m.kernelTable := by
    funext q k
    exact h.split_kernelTable ho hnew halign hm' q k
  have hi : i ∉ todo := (List.nodup_cons.mp hnodup).1
  have huser := h.split_userTable ho hnew halign hm'
  refine ⟨⟨?_, ?_, ?_, ?_, ?_, ?_, ?_, ?_, ?_, ?_⟩, ?_, ?_, h.ne, ?_, ?_⟩
  · intro p d hd
    rw [hdir] at hd
    rw [update_of_inUse hnew (InUse.dir hd)]
    exact hs.dir_role hd
  · intro p k t ht
    rw [huser] at ht
    split at ht
    · rw [Option.some_inj] at ht
      rw [← ht, Function.update_self]
    · rw [update_of_inUse hnew (InUse.userTable ht)]
      exact hs.user_role ht
  · intro p k t ht
    rw [hkernel] at ht
    rw [update_of_inUse hnew (InUse.kernelTable ht)]
    exact hs.kernel_role ht
  · intro p k j f hf
    rw [hframe] at hf
    rw [update_of_inUse hnew (InUse.data hf)]
    exact hs.data_role hf
  · rw [hdir]
    exact hs.dir_inj
  · intro p q k k' t hp hq
    rw [huser] at hp hq
    split at hp
    · rename_i hpa
      split at hq
      · rename_i hqa
        exact ⟨by rw [hpa.2, hqa.2], Or.inl (by rw [hpa.1, hqa.1])⟩
      · rw [Option.some_inj] at hp
        rw [← hp] at hq
        exact absurd (InUse.userTable hq) hnew
    · rename_i hpa
      split at hq
      · rw [Option.some_inj] at hq
        rw [← hq] at hp
        exact absurd (InUse.userTable hp) hnew
      · rename_i hqa
        obtain ⟨hkk, hpq⟩ := hs.table_inj hp hq
        refine ⟨hkk, hpq.imp_right ?_⟩
        rintro ⟨hk, hwho⟩
        refine ⟨?_, hwho⟩
        rcases List.mem_cons.mp hk with rfl | hk
        · rcases hwho with ⟨rfl, -⟩ | ⟨-, rfl⟩
          · exact absurd ⟨rfl, rfl⟩ hpa
          · exact absurd ⟨rfl, hkk.symm⟩ hqa
        · exact hk
  · rw [hframe]
    exact hs.once
  · intro p k j f hf
    rw [hframe] at hf
    have hsame : m'.sharers (CountedFor c todo) f = m.sharers (CountedFor c todo) f := by
      apply sharers_congr
      intro q k' j'
      rw [hframe]
    rw [hsame]
    exact h.split_counts ho hnew hm' hnodup hf
  · rw [hframe, hleaf]
    exact hs.alone
  · rw [hdir]
    exact hs.pid
  · intro k hk
    have hki : k ≠ i := by
      rintro rfl
      exact hi hk
    rw [huser, huser, if_neg (fun hh => hki hh.2), if_neg (fun hh => hki hh.2)]
    exact h.same k (List.mem_cons_of_mem i hk)
  · rw [hleaf]
    exact h.closed
  · rw [h.split_machine hnew hm']
    exact h.cr3_eq
  · rw [h.split_machine hnew hm']
    exact h.tmpPage_eq

end Split

end Machine

end Yak.Paging
