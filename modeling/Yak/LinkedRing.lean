import Mathlib.Data.List.Chain
import Mathlib.Data.List.Nodup
import Mathlib.Logic.Function.Basic
import Mathlib.Tactic

/-!
# Circular doubly linked lists

Intrusive rings, as C programs keep them: every node carries two pointers
which may be null, and a ring is a closed walk along `next` whose inverse is
`prev`.  The module is generic in the type of nodes and in the type of keys
that select a ring.  It provides the two primitive edits (unlinking a node and
inserting one at the end), the two loops that walk a ring, and families of
disjoint rings reached from an array of head pointers.
-/

namespace LinkedRing

/-- The two link fields of every node; `none` is the null pointer. -/
structure Links (α : Type*) where
  next : α → Option α
  prev : α → Option α

variable {α κ : Type*}

namespace Links

/-! ## Rings -/

/-- `b` follows `a`, seen from both ends. -/
def Succ (L : Links α) (a b : α) : Prop :=
  L.next a = some b ∧ L.prev b = some a

/-- The list enumerates a closed ring, in the order of `next`. -/
def IsRing (L : Links α) : List α → Prop
  | [] => False
  | a :: l => (a :: l).Nodup ∧ List.IsChain L.Succ (a :: (l ++ [a]))

theorem IsRing.nodup {L : Links α} {l : List α} (h : L.IsRing l) : l.Nodup := by
  cases l with
  | nil => exact h.elim
  | cons a l => exact h.1

/-- A ring only depends on the links of its own nodes. -/
theorem IsRing.congr {L L' : Links α} {l : List α} (h : L.IsRing l)
    (hnext : ∀ a ∈ l, L'.next a = L.next a)
    (hprev : ∀ a ∈ l, L'.prev a = L.prev a) : L'.IsRing l := by
  cases l with
  | nil => exact h.elim
  | cons a l =>
      refine ⟨h.1, h.2.imp_of_mem_imp ?_⟩
      intro x y hx hy hxy
      have hx' : x ∈ a :: l := by
        simpa [or_comm, or_assoc] using hx
      have hy' : y ∈ a :: l := by
        simpa [or_comm, or_assoc] using hy
      exact ⟨(hnext x hx').trans hxy.1, (hprev y hy').trans hxy.2⟩

theorem IsRing.rotate {L : Links α} {l₁ l₂ : List α} (h : L.IsRing (l₁ ++ l₂)) :
    L.IsRing (l₂ ++ l₁) := by
  cases l₁ with
  | nil => simpa using h
  | cons a l₁ =>
      cases l₂ with
      | nil => simpa using h
      | cons b l₂ =>
          have hnodup : (b :: l₂ ++ a :: l₁).Nodup := by
            exact List.nodup_append_comm.mp h.nodup
          refine ⟨hnodup, ?_⟩
          have hchain : List.IsChain L.Succ ((a :: l₁) ++ b :: (l₂ ++ [a])) := by
            simpa using h.2
          rw [List.isChain_split] at hchain
          have hleft : List.IsChain L.Succ (a :: (l₁ ++ [b])) := by
            simpa using hchain.1
          have hright : List.IsChain L.Succ ((b :: l₂) ++ [a]) := by
            simpa using hchain.2
          have hall : List.IsChain L.Succ ((b :: l₂) ++ a :: (l₁ ++ [b])) :=
            List.isChain_split.mpr ⟨hright, hleft⟩
          simpa using hall

theorem IsRing.toFront {L : Links α} {l₁ l₂ : List α} {x : α}
    (h : L.IsRing (l₁ ++ x :: l₂)) : L.IsRing (x :: (l₂ ++ l₁)) := by
  simpa using h.rotate

theorem IsRing.next_getLast {L : Links α} {a : α} {l : List α}
    (h : L.IsRing (a :: l)) :
    L.Succ ((a :: l).getLast (List.cons_ne_nil a l)) a := by
  have hchain : List.IsChain L.Succ ((a :: l) ++ [a]) := h.2
  have hsplit : a :: l = (a :: l).dropLast ++ [(a :: l).getLast (List.cons_ne_nil a l)] :=
    (List.dropLast_append_getLast (List.cons_ne_nil a l)).symm
  rw [hsplit, List.append_assoc] at hchain
  exact (List.isChain_append_cons_cons.mp hchain).2.1

theorem isRing_single {L : Links α} {x : α} :
    L.IsRing [x] ↔ L.next x = some x ∧ L.prev x = some x := by
  simp [IsRing, Succ]

theorem isRing_two_cons {L : Links α} {a b : α} {l : List α}
    (h : L.IsRing (a :: b :: l)) : L.Succ a b := by
  have hchain : List.IsChain L.Succ (a :: b :: (l ++ [a])) := by
    simpa using h.2
  exact (List.isChain_cons_cons.mp hchain).1

theorem IsRing.links_of_mem {L : Links α} {l : List α} {x : α}
    (h : L.IsRing l) (hx : x ∈ l) :
    ∃ n p, L.next x = some n ∧ L.prev x = some p ∧ n ∈ l ∧ p ∈ l := by
  obtain ⟨l₁, l₂, rfl⟩ := List.append_of_mem hx
  have hfront := h.toFront
  have hlast := hfront.next_getLast
  have hmem : ((x :: (l₂ ++ l₁)).getLast (List.cons_ne_nil _ _)) ∈ l₁ ++ x :: l₂ := by
    have := List.getLast_mem (List.cons_ne_nil x (l₂ ++ l₁))
    simp only [List.mem_cons, List.mem_append] at this ⊢
    tauto
  cases hrest : l₂ ++ l₁ with
  | nil =>
      rw [hrest] at hfront
      have hself := isRing_single.mp hfront
      exact ⟨x, x, hself.1, hself.2, hx, hx⟩
  | cons b rest =>
      refine ⟨b, _, ?_, hlast.2, ?_, hmem⟩
      · rw [hrest] at hfront
        exact (isRing_two_cons hfront).1
      · have hb : b ∈ l₂ ++ l₁ := by
          rw [hrest]
          exact List.mem_cons_self
        simp only [List.mem_append, List.mem_cons] at hb ⊢
        tauto

/-- The ring has a single node exactly when that node points at itself. -/
theorem IsRing.next_eq_self_iff {L : Links α} {x : α} {l : List α}
    (h : L.IsRing (x :: l)) : L.next x = some x ↔ l = [] := by
  constructor
  · intro hself
    cases l with
    | nil => rfl
    | cons b l =>
        have hsucc := isRing_two_cons h
        have hxb : x = b := Option.some.inj (hself.symm.trans hsucc.1)
        have := h.nodup
        simp [hxb] at this
  · rintro rfl
    exact (isRing_single.mp h).1

theorem isRing_of_chain {L : Links α} {a : α} {l : List α}
    (hnodup : (a :: l).Nodup) (hchain : List.IsChain L.Succ (a :: l))
    (hclose : L.Succ ((a :: l).getLast (List.cons_ne_nil a l)) a) :
    L.IsRing (a :: l) := by
  refine ⟨hnodup, ?_⟩
  have happend : List.IsChain L.Succ ((a :: l) ++ [a]) := by
    apply List.IsChain.append hchain (List.isChain_singleton a)
    intro x hx y hy
    have hxlast : x = (a :: l).getLast (List.cons_ne_nil a l) := by
      rw [List.getLast?_eq_getLast_of_ne_nil (List.cons_ne_nil a l)] at hx
      exact (Option.some.inj hx).symm
    have hya : y = a := by
      simpa using hy.symm
    rw [hxlast, hya]
    exact hclose
  simpa using happend

theorem IsRing.chain {L : Links α} {l : List α} (h : L.IsRing l) :
    List.IsChain L.Succ l := by
  cases l with
  | nil => exact h.elim
  | cons a l =>
      have hchain : List.IsChain L.Succ ((a :: l) ++ [a]) := h.2
      exact hchain.left_of_append

/-- A chain survives a change of its relation which leaves alone every pair
other than those out of its last node and into its first one. -/
theorem isChain_of_inner {R S : α → α → Prop} {l : List α} (hne : l ≠ [])
    (hnodup : l.Nodup) (hchain : List.IsChain R l)
    (hinner : ∀ a ∈ l, ∀ b ∈ l, a ≠ l.getLast hne → b ≠ l.head hne →
      R a b → S a b) :
    List.IsChain S l := by
  rw [List.isChain_iff_getElem] at hchain ⊢
  intro i hi
  apply hinner _ (List.getElem_mem _) _ (List.getElem_mem _) _ _ (hchain i hi)
  · rw [List.getLast_eq_getElem]
    intro heq
    have := (hnodup.getElem_inj_iff).mp heq
    omega
  · rw [List.head_eq_getElem]
    intro heq
    have := (hnodup.getElem_inj_iff).mp heq
    omega

/-! ## Edits -/

variable [DecidableEq α]

def setNext (L : Links α) (a : α) (v : Option α) : Links α :=
  { L with next := Function.update L.next a v }

def setPrev (L : Links α) (a : α) (v : Option α) : Links α :=
  { L with prev := Function.update L.prev a v }

/-- Let the neighbours `p` and `n` of a node point at each other. -/
def join (L : Links α) (p n : α) : Links α :=
  (L.setNext p (some n)).setPrev n (some p)

/-- Null both links of a node. -/
def clear (L : Links α) (x : α) : Links α :=
  (L.setNext x none).setPrev x none

/-- Put `x` between `t` and `h`. -/
def insert (L : Links α) (t h x : α) : Links α :=
  (((L.setNext t (some x)).setPrev x (some t)).setNext x (some h)).setPrev h (some x)

/-- Let a node point at itself in both directions. -/
def single (L : Links α) (x : α) : Links α :=
  (L.setNext x (some x)).setPrev x (some x)

@[simp] theorem setNext_next (L : Links α) (a b : α) (v : Option α) :
    (L.setNext a v).next b = if b = a then v else L.next b := by
  simp [setNext, Function.update_apply]

@[simp] theorem setNext_prev (L : Links α) (a : α) (v : Option α) :
    (L.setNext a v).prev = L.prev := rfl

@[simp] theorem setPrev_prev (L : Links α) (a b : α) (v : Option α) :
    (L.setPrev a v).prev b = if b = a then v else L.prev b := by
  simp [setPrev, Function.update_apply]

@[simp] theorem setPrev_next (L : Links α) (a : α) (v : Option α) :
    (L.setPrev a v).next = L.next := rfl

/-- Unlinking the first node of a longer ring leaves the ring of the others. -/
theorem IsRing.join {L : Links α} {x n p : α} {rest : List α}
    (h : L.IsRing (x :: rest)) (hrest : rest ≠ [])
    (hn : L.next x = some n) (hp : L.prev x = some p) :
    (L.join p n).IsRing rest := by
  cases rest with
  | nil => exact (hrest rfl).elim
  | cons b l =>
      have hnb : n = b := by
        have := (isRing_two_cons h).1
        exact Option.some.inj (hn.symm.trans this)
      have hpl : p = (b :: l).getLast (List.cons_ne_nil b l) := by
        have := h.next_getLast.2
        rw [List.getLast_cons (List.cons_ne_nil b l)] at this
        exact Option.some.inj (hp.symm.trans this)
      have hnodup : (b :: l).Nodup := (List.nodup_cons.mp h.nodup).2
      have hchain : List.IsChain L.Succ (b :: l) := h.chain.tail
      apply isRing_of_chain hnodup
      · apply isChain_of_inner (List.cons_ne_nil b l) hnodup hchain
        intro u _ v _ hu hv huv
        have hup : u ≠ p := by
          rw [hpl]
          exact hu
        have hvn : v ≠ n := by
          rw [hnb]
          simpa using hv
        simp only [Succ, Links.join, setPrev_next, setNext_next, setPrev_prev,
          setNext_prev, if_neg hup, if_neg hvn]
        exact huv
      · rw [← hpl, ← hnb]
        simp [Succ, Links.join]

theorem IsRing.clear {L : Links α} {x : α} {l : List α}
    (h : L.IsRing l) (hx : x ∉ l) : (L.clear x).IsRing l := by
  apply h.congr
  · intro a ha
    have hax : a ≠ x := fun heq => hx (heq ▸ ha)
    simp [Links.clear, hax]
  · intro a ha
    have hax : a ≠ x := fun heq => hx (heq ▸ ha)
    simp [Links.clear, hax]

/-- Inserting a new node between the last and the first node of a ring
appends it. -/
theorem IsRing.insert {L : Links α} {a t x : α} {l : List α}
    (h : L.IsRing (a :: l)) (ht : (a :: l).getLast (List.cons_ne_nil a l) = t)
    (hx : x ∉ a :: l) :
    (L.insert t a x).IsRing (a :: (l ++ [x])) := by
  have hta : t ∈ a :: l := by
    rw [← ht]
    exact List.getLast_mem _
  have htx : t ≠ x := fun heq => hx (heq ▸ hta)
  have hax : a ≠ x := fun heq => hx (heq ▸ List.mem_cons_self)
  have hnodup : (a :: (l ++ [x])).Nodup := by
    rw [← List.cons_append]
    refine List.nodup_append.mpr ⟨h.nodup, List.nodup_singleton x, ?_⟩
    intro u hu v hv
    rw [List.mem_singleton.mp hv]
    exact fun heq => hx (heq ▸ hu)
  have hchain : List.IsChain (L.insert t a x).Succ (a :: l) := by
    apply isChain_of_inner (List.cons_ne_nil a l) h.nodup h.chain
    intro u hu v hv hulast hvhead huv
    have hut : u ≠ t := by
      rw [← ht]
      exact hulast
    have hux : u ≠ x := fun heq => hx (heq ▸ hu)
    have hva : v ≠ a := by
      simpa using hvhead
    have hvx : v ≠ x := fun heq => hx (heq ▸ hv)
    simp only [Succ, Links.insert, setPrev_next, setNext_next, setPrev_prev,
      setNext_prev, if_neg hut, if_neg hux, if_neg hva, if_neg hvx]
    exact huv
  apply isRing_of_chain hnodup
  · have happend : List.IsChain (L.insert t a x).Succ ((a :: l) ++ [x]) := by
      apply List.IsChain.append hchain (List.isChain_singleton x)
      intro u hu v hv
      have hulast : u = t := by
        rw [List.getLast?_eq_getLast_of_ne_nil (List.cons_ne_nil a l), ht] at hu
        exact (Option.some.inj hu).symm
      have hvx : v = x := by
        simpa using hv.symm
      subst u v
      simp [Succ, Links.insert, htx, hax.symm]
    simpa using happend
  · have hlast : (a :: (l ++ [x])).getLast (List.cons_ne_nil _ _) = x := by
      rw [List.getLast_cons (by simp)]
      simp
    rw [hlast]
    simp [Succ, Links.insert]

theorem isRing_single_self (L : Links α) (x : α) : (L.single x).IsRing [x] := by
  rw [isRing_single]
  simp [Links.single]

/-! ## Walks -/

/-- `for (p = h; p->next != h; p = p->next);` run with a step bound.  A null
link, or a walk that does not come back, has no result. -/
def walkLast (L : Links α) (h : α) : ℕ → α → Option α
  | 0, _ => none
  | fuel + 1, p =>
      match L.next p with
      | none => none
      | some n => if n = h then some p else walkLast L h fuel n

/-- `do { if (found(p)) return p; p = p->next; } while (p != h);` run with a
step bound.  The inner option is the value returned. -/
def search (L : Links α) (found : α → Bool) (h : α) : ℕ → α → Option (Option α)
  | 0, _ => none
  | fuel + 1, p =>
      if found p then some (some p)
      else
        match L.next p with
        | none => none
        | some n => if n = h then some none else search L found h fuel n

private theorem walkLast_of_chain {L : Links α} {h p : α} {l : List α} {fuel : ℕ}
    (hchain : List.IsChain L.Succ (p :: (l ++ [h]))) (hh : h ∉ l)
    (hfuel : l.length < fuel) :
    L.walkLast h fuel p = some ((p :: l).getLast (List.cons_ne_nil p l)) := by
  induction l generalizing p fuel with
  | nil =>
      obtain ⟨fuel, rfl⟩ := Nat.exists_eq_succ_of_ne_zero (Nat.ne_of_gt hfuel)
      have hnext : L.next p = some h := by
        have hpair : List.IsChain L.Succ (p :: h :: []) := by
          simpa using hchain
        exact (List.isChain_cons_cons.mp hpair).1.1
      simp [walkLast, hnext]
  | cons b l ih =>
      obtain ⟨fuel, rfl⟩ := Nat.exists_eq_succ_of_ne_zero (Nat.ne_of_gt (Nat.zero_lt_of_lt hfuel))
      have hsplit := List.isChain_cons_cons.mp hchain
      have hb : b ≠ h := fun heq => hh (heq ▸ List.mem_cons_self)
      have hfuel' : l.length < fuel := by
        simpa using hfuel
      rw [walkLast, hsplit.1.1]
      simp only [if_neg hb]
      rw [ih hsplit.2 (fun hmem => hh (List.mem_cons_of_mem b hmem)) hfuel']
      simp

theorem IsRing.walkLast {L : Links α} {a : α} {l : List α} {fuel : ℕ}
    (h : L.IsRing (a :: l)) (hfuel : l.length < fuel) :
    L.walkLast a fuel a = some ((a :: l).getLast (List.cons_ne_nil a l)) :=
  walkLast_of_chain h.2 (List.nodup_cons.mp h.nodup).1 hfuel

private theorem search_of_chain {L : Links α} {found : α → Bool} {h p : α}
    {l : List α} {fuel : ℕ}
    (hchain : List.IsChain L.Succ (p :: (l ++ [h]))) (hh : h ∉ l)
    (hfuel : l.length < fuel) :
    L.search found h fuel p = some ((p :: l).find? found) := by
  induction l generalizing p fuel with
  | nil =>
      obtain ⟨fuel, rfl⟩ := Nat.exists_eq_succ_of_ne_zero (Nat.ne_of_gt hfuel)
      have hnext : L.next p = some h := by
        have hpair : List.IsChain L.Succ (p :: h :: []) := by
          simpa using hchain
        exact (List.isChain_cons_cons.mp hpair).1.1
      cases hfound : found p with
      | true => simp [search, hfound]
      | false => simp [search, hfound, hnext]
  | cons b l ih =>
      obtain ⟨fuel, rfl⟩ := Nat.exists_eq_succ_of_ne_zero (Nat.ne_of_gt (Nat.zero_lt_of_lt hfuel))
      have hsplit := List.isChain_cons_cons.mp hchain
      have hb : b ≠ h := fun heq => hh (heq ▸ List.mem_cons_self)
      have hfuel' : l.length < fuel := by
        simpa using hfuel
      cases hfound : found p with
      | true => simp [search, hfound]
      | false =>
          rw [search, hsplit.1.1]
          simp only [hfound, if_neg hb, Bool.false_eq_true, if_false]
          rw [ih hsplit.2 (fun hmem => hh (List.mem_cons_of_mem b hmem)) hfuel']
          simp [hfound]

theorem IsRing.search {L : Links α} {found : α → Bool} {a : α} {l : List α}
    {fuel : ℕ} (h : L.IsRing (a :: l)) (hfuel : l.length < fuel) :
    L.search found a fuel a = some ((a :: l).find? found) :=
  search_of_chain h.2 (List.nodup_cons.mp h.nodup).1 hfuel

/-- The nodes that a walk along `next` passes from `p` on, up to the node before `h`, with a step
bound. -/
def collect (L : Links α) (h : α) : ℕ → α → List α
  | 0, _ => []
  | fuel + 1, p =>
      p :: match L.next p with
        | none => []
        | some n => if n = h then [] else collect L h fuel n

private theorem collect_of_chain {L : Links α} {h p : α} {l : List α} {fuel : ℕ}
    (hchain : List.IsChain L.Succ (p :: (l ++ [h]))) (hh : h ∉ l)
    (hfuel : l.length < fuel) : L.collect h fuel p = p :: l := by
  induction l generalizing p fuel with
  | nil =>
      obtain ⟨fuel, rfl⟩ := Nat.exists_eq_succ_of_ne_zero (Nat.ne_of_gt hfuel)
      have hnext : L.next p = some h := by
        have hpair : List.IsChain L.Succ (p :: h :: []) := by
          simpa using hchain
        exact (List.isChain_cons_cons.mp hpair).1.1
      simp [collect, hnext]
  | cons b l ih =>
      obtain ⟨fuel, rfl⟩ := Nat.exists_eq_succ_of_ne_zero (Nat.ne_of_gt (Nat.zero_lt_of_lt hfuel))
      have hsplit := List.isChain_cons_cons.mp hchain
      have hb : b ≠ h := fun heq => hh (heq ▸ List.mem_cons_self)
      have hfuel' : l.length < fuel := by
        simpa using hfuel
      rw [collect, hsplit.1.1]
      simp only [if_neg hb]
      rw [ih hsplit.2 (fun hmem => hh (List.mem_cons_of_mem b hmem)) hfuel']

theorem IsRing.collect {L : Links α} {a : α} {l : List α} {fuel : ℕ}
    (h : L.IsRing (a :: l)) (hfuel : l.length < fuel) : L.collect a fuel a = a :: l :=
  collect_of_chain h.2 (List.nodup_cons.mp h.nodup).1 hfuel

/-- A search returns a match, which is its start or somebody's successor. -/
theorem search_spec {L : Links α} {found : α → Bool} {h p x : α} {fuel : ℕ}
    (hrun : L.search found h fuel p = some (some x)) :
    found x = true ∧ (x = p ∨ ∃ y, L.next y = some x) := by
  induction fuel generalizing p with
  | zero => cases hrun
  | succ fuel ih =>
      unfold search at hrun
      split at hrun
      next hfound =>
        cases hrun
        exact ⟨hfound, Or.inl rfl⟩
      next =>
        split at hrun
        next => cases hrun
        next n hn =>
          split at hrun
          next => cases hrun
          next =>
            obtain ⟨hfound, hstart | hsucc⟩ := ih hrun
            · exact ⟨hfound, Or.inr ⟨p, hstart ▸ hn⟩⟩
            · exact ⟨hfound, Or.inr hsucc⟩

/-- The search does not look at `prev`. -/
theorem search_setPrev (L : Links α) (a : α) (v : Option α) (found : α → Bool) (h : α)
    (fuel : ℕ) (p : α) : (L.setPrev a v).search found h fuel p = L.search found h fuel p := by
  induction fuel generalizing p with
  | zero => rfl
  | succ fuel ih => simp only [search, setPrev_next, ih]

end Links

/-! ## Families of rings -/

/-- Disjoint rings selected by a key, each entered through the head pointer
stored for that key. -/
structure Family (L : Links α) (heads : κ → Option α) (rings : κ → List α) :
    Prop where
  head_eq : ∀ q, heads q = (rings q).head?
  isRing : ∀ q, rings q ≠ [] → L.IsRing (rings q)
  disjoint : ∀ q q' a, a ∈ rings q → a ∈ rings q' → q = q'

variable {L L' : Links α} {heads : κ → Option α} {rings : κ → List α}

theorem Family.congr (h : Family L heads rings)
    (hnext : ∀ q, ∀ a ∈ rings q, L'.next a = L.next a)
    (hprev : ∀ q, ∀ a ∈ rings q, L'.prev a = L.prev a) :
    Family L' heads rings where
  head_eq := h.head_eq
  isRing q hq := (h.isRing q hq).congr (hnext q) (hprev q)
  disjoint := h.disjoint

theorem Family.isRing_of_mem (h : Family L heads rings) {q : κ} {a : α}
    (ha : a ∈ rings q) : L.IsRing (rings q) :=
  h.isRing q (List.ne_nil_of_mem ha)

/-- Following `next` from the head of a ring never leaves the ring. -/
theorem Family.mem_of_reaches (h : Family L heads rings) {q : κ} {a b : α}
    (hq : heads q = some a)
    (hreach : Relation.ReflTransGen (fun x y => L.next x = some y) a b) :
    b ∈ rings q := by
  induction hreach with
  | refl =>
      rw [h.head_eq q] at hq
      exact List.mem_of_mem_head? hq
  | tail _ hstep ih =>
      obtain ⟨n, _, hn, _, hmem, _⟩ := (h.isRing_of_mem ih).links_of_mem ih
      rw [hstep, Option.some.injEq] at hn
      rw [hn]
      exact hmem

theorem Family.eq_nil_iff (h : Family L heads rings) (q : κ) :
    heads q = none ↔ rings q = [] := by
  rw [h.head_eq q]
  exact List.head?_eq_none_iff

theorem Family.eq_cons (h : Family L heads rings) {q : κ} {a : α}
    (hq : heads q = some a) : ∃ l, rings q = a :: l := by
  rw [h.head_eq q] at hq
  exact List.head?_eq_some_iff.mp hq

variable [DecidableEq κ]

/-- Replace one ring of a family, provided the links of the others stay. -/
theorem Family.update {q : κ} {l : List α} {v : Option α}
    (h : Family L heads rings) (hv : v = l.head?)
    (hring : l ≠ [] → L'.IsRing l)
    (hnext : ∀ q' ≠ q, ∀ a ∈ rings q', L'.next a = L.next a)
    (hprev : ∀ q' ≠ q, ∀ a ∈ rings q', L'.prev a = L.prev a)
    (hnew : ∀ a ∈ l, ∀ q', a ∈ rings q' → q' = q) :
    Family L' (Function.update heads q v) (Function.update rings q l) := by
  refine ⟨?_, ?_, ?_⟩
  · intro q'
    by_cases hq : q' = q
    · subst q'
      simpa using hv
    · simpa [Function.update_of_ne hq] using h.head_eq q'
  · intro q' hne
    by_cases hq : q' = q
    · subst q'
      rw [Function.update_self] at hne ⊢
      exact hring hne
    · rw [Function.update_of_ne hq] at hne ⊢
      exact (h.isRing q' hne).congr (hnext q' hq) (hprev q' hq)
  · intro q₁ q₂ a h₁ h₂
    by_cases hq₁ : q₁ = q
    · by_cases hq₂ : q₂ = q
      · rw [hq₁, hq₂]
      · subst q₁
        rw [Function.update_self] at h₁
        rw [Function.update_of_ne hq₂] at h₂
        exact (hnew a h₁ q₂ h₂).symm
    · by_cases hq₂ : q₂ = q
      · subst q₂
        rw [Function.update_self] at h₂
        rw [Function.update_of_ne hq₁] at h₁
        exact hnew a h₂ q₁ h₁
      · rw [Function.update_of_ne hq₁] at h₁
        rw [Function.update_of_ne hq₂] at h₂
        exact h.disjoint q₁ q₂ a h₁ h₂

variable [DecidableEq α]

theorem Family.addFirst (h : Family L heads rings) {q : κ} {x : α}
    (hx : ∀ q', x ∉ rings q') :
    Family (L.single x) (Function.update heads q (some x))
      (Function.update rings q [x]) := by
  have hne : ∀ q', ∀ a ∈ rings q', a ≠ x := by
    intro q' a ha heq
    exact hx q' (heq ▸ ha)
  refine h.update (l := [x]) rfl ?_ ?_ ?_ ?_
  · intro _
    exact L.isRing_single_self x
  · intro q' _ a ha
    simp [Links.single, hne q' a ha]
  · intro q' _ a ha
    simp [Links.single, hne q' a ha]
  · intro a ha q' haq
    rw [List.mem_singleton.mp ha] at haq
    exact (hx q' haq).elim

theorem Family.addLast (h : Family L heads rings) {q : κ} {a t x : α} {l : List α}
    (hq : rings q = a :: l) (ht : (a :: l).getLast (List.cons_ne_nil a l) = t)
    (hx : ∀ q', x ∉ rings q') :
    Family (L.insert t a x) heads (Function.update rings q (a :: (l ++ [x]))) := by
  have hring : L.IsRing (a :: l) := by
    rw [← hq]
    exact h.isRing q (by simp [hq])
  have hxq : x ∉ a :: l := by
    rw [← hq]
    exact hx q
  have htq : t ∈ rings q := by
    rw [hq, ← ht]
    exact List.getLast_mem _
  have haq : a ∈ rings q := by
    simp [hq]
  have hother : ∀ q' ≠ q, ∀ b ∈ rings q', b ≠ t ∧ b ≠ a ∧ b ≠ x := by
    intro q' hne b hb
    refine ⟨?_, ?_, ?_⟩
    · rintro rfl
      exact hne (h.disjoint q' q b hb htq)
    · rintro rfl
      exact hne (h.disjoint q' q b hb haq)
    · rintro rfl
      exact hx q' hb
  have hheads : heads = Function.update heads q (some a) := by
    rw [Function.eq_update_iff]
    refine ⟨?_, fun _ _ => rfl⟩
    rw [h.head_eq q, hq]
    rfl
  rw [hheads]
  refine h.update (l := a :: (l ++ [x])) rfl ?_ ?_ ?_ ?_
  · intro _
    exact hring.insert ht hxq
  · intro q' hne b hb
    obtain ⟨hbt, hba, hbx⟩ := hother q' hne b hb
    simp [Links.insert, hbt, hbx]
  · intro q' hne b hb
    obtain ⟨hbt, hba, hbx⟩ := hother q' hne b hb
    simp [Links.insert, hba, hbx]
  · intro b hb q' hbq'
    simp only [List.mem_cons, List.mem_append, List.not_mem_nil, or_false] at hb
    rcases hb with rfl | hb | rfl
    · exact h.disjoint q' q b hbq' haq
    · exact h.disjoint q' q b hbq' (by simp [hq, hb])
    · exact (hx q' hbq').elim

theorem Family.removeSole (h : Family L heads rings) {q : κ} {x : α}
    (hq : rings q = [x]) :
    Family (L.clear x) (Function.update heads q none) (Function.update rings q []) := by
  have hother : ∀ q' ≠ q, ∀ b ∈ rings q', b ≠ x := by
    rintro q' hne b hb rfl
    exact hne (h.disjoint q' q b hb (by simp [hq]))
  refine h.update (l := []) rfl ?_ ?_ ?_ ?_
  · intro hne
    exact (hne rfl).elim
  · intro q' hne b hb
    simp [Links.clear, hother q' hne b hb]
  · intro q' hne b hb
    simp [Links.clear, hother q' hne b hb]
  · intro b hb
    exact (List.not_mem_nil hb).elim

omit [DecidableEq κ] in
private theorem Family.remove_aux (h : Family L heads rings) {q : κ} {x n p : α}
    {l₁ l₂ : List α} (hq : rings q = l₁ ++ x :: l₂) (hne : l₂ ++ l₁ ≠ [])
    (hn : L.next x = some n) (hp : L.prev x = some p) :
    ((L.join p n).clear x).IsRing (l₂ ++ l₁) ∧
      (∀ q' ≠ q, ∀ a ∈ rings q',
        ((L.join p n).clear x).next a = L.next a ∧
          ((L.join p n).clear x).prev a = L.prev a) ∧
      (∀ a ∈ l₂ ++ l₁, ∀ q', a ∈ rings q' → q' = q) := by
  have hring : L.IsRing (l₁ ++ x :: l₂) := by
    rw [← hq]
    exact h.isRing q (by simp [hq])
  have hfront := hring.toFront
  have hxrest : x ∉ l₂ ++ l₁ := (List.nodup_cons.mp hfront.nodup).1
  have hxq : x ∈ rings q := by
    simp [hq]
  obtain ⟨n', p', hn', hp', hnmem, hpmem⟩ := (h.isRing_of_mem hxq).links_of_mem hxq
  obtain rfl : n' = n := Option.some.inj (hn'.symm.trans hn)
  obtain rfl : p' = p := Option.some.inj (hp'.symm.trans hp)
  refine ⟨(hfront.join hne hn hp).clear hxrest, ?_, ?_⟩
  · intro q' hne' a ha
    have hax : a ≠ x := by
      rintro rfl
      exact hne' (h.disjoint q' q a ha hxq)
    have han : a ≠ n' := by
      rintro rfl
      exact hne' (h.disjoint q' q a ha hnmem)
    have hap : a ≠ p' := by
      rintro rfl
      exact hne' (h.disjoint q' q a ha hpmem)
    simp [Links.clear, Links.join, hax, han, hap]
  · intro a ha q' haq'
    apply h.disjoint q' q a haq'
    rw [hq]
    simp only [List.mem_append, List.mem_cons] at ha ⊢
    tauto

theorem Family.removeAdvance (h : Family L heads rings) {q : κ} {x n p : α}
    {l₁ l₂ : List α} (hq : rings q = l₁ ++ x :: l₂) (hne : l₂ ++ l₁ ≠ [])
    (hn : L.next x = some n) (hp : L.prev x = some p) :
    Family ((L.join p n).clear x) (Function.update heads q (some n))
      (Function.update rings q (l₂ ++ l₁)) := by
  obtain ⟨hring, hother, hmem⟩ := h.remove_aux hq hne hn hp
  have hfront : L.IsRing (x :: (l₂ ++ l₁)) := by
    apply Links.IsRing.toFront
    rw [← hq]
    exact h.isRing q (by simp [hq])
  have hhead : some n = (l₂ ++ l₁).head? := by
    cases hrest : l₂ ++ l₁ with
    | nil => exact (hne hrest).elim
    | cons b rest =>
        rw [hrest] at hfront
        rw [← hn, (Links.isRing_two_cons hfront).1]
        rfl
  exact h.update hhead (fun _ => hring) (fun q' hq' a ha => (hother q' hq' a ha).1)
    (fun q' hq' a ha => (hother q' hq' a ha).2) hmem

/-- Remove a node which is not the head of its ring; no head pointer moves. -/
theorem Family.removeInner (h : Family L heads rings) {q : κ} {a x n p : α}
    {l₁ l₂ : List α} (hq : rings q = a :: (l₁ ++ x :: l₂))
    (hn : L.next x = some n) (hp : L.prev x = some p) :
    Family ((L.join p n).clear x) heads
      (Function.update rings q (a :: (l₁ ++ l₂))) := by
  have hq' : rings q = (a :: l₁) ++ x :: l₂ := by
    simpa using hq
  obtain ⟨hring, hother, hmem⟩ := h.remove_aux hq' (by simp) hn hp
  have hheads : heads = Function.update heads q (some a) := by
    rw [Function.eq_update_iff]
    refine ⟨?_, fun _ _ => rfl⟩
    rw [h.head_eq q, hq]
    rfl
  rw [hheads]
  refine h.update rfl (fun _ => ?_) (fun q' hq' b hb => (hother q' hq' b hb).1)
    (fun q' hq' b hb => (hother q' hq' b hb).2) ?_
  · simpa using hring.rotate
  · intro b hb q₁ hbq
    apply hmem b _ q₁ hbq
    simp only [List.mem_append, List.mem_cons] at hb ⊢
    tauto

end LinkedRing
