import Mathlib.Tactic

/-!
# Lists of places that end

Places with a link each, which is the next place or nothing.  `Follows` says which places
the links lead through, and `walkLast` is the walk to the last of them.
-/

namespace LinkedList

universe u

variable {α : Type u} {next next' : α → Option α} {o : Option α} {l : List α} {a r t : α} {n : ℕ}

/-- The links lead from `o` through these places, and end behind them. -/
def Follows (next : α → Option α) : Option α → List α → Prop
  | o, [] => o = none
  | o, a :: l => o = some a ∧ Follows next (next a) l

/-- The last place of a walk of at most `n` links. -/
def walkLast (next : α → Option α) : ℕ → α → α
  | 0, a => a
  | n + 1, a =>
      match next a with
      | none => a
      | some b => walkLast next n b

theorem Follows.head? (h : Follows next o l) : o = l.head? := by
  cases l with
  | nil => exact h
  | cons a l => exact h.1

theorem Follows.congr (h : Follows next o l) (hsame : ∀ a ∈ l, next' a = next a) :
    Follows next' o l := by
  induction l generalizing o with
  | nil => exact h
  | cons a l ih =>
      refine ⟨h.1, ?_⟩
      rw [hsame a List.mem_cons_self]
      exact ih h.2 fun b hb => hsame b (List.mem_cons_of_mem a hb)

/-- A place that is linked behind the last one. -/
theorem Follows.concat [DecidableEq α] (h : Follows next o l) (hnodup : l.Nodup)
    (ht : l.getLast? = some t) (hr : r ∉ l) (hnone : next r = none) :
    Follows (Function.update next t (some r)) o (l ++ [r]) := by
  induction l generalizing o with
  | nil => cases ht
  | cons a l ih =>
      obtain ⟨hhead, hrest⟩ := h
      rw [List.nodup_cons] at hnodup
      refine ⟨hhead, ?_⟩
      cases l with
      | nil =>
          obtain rfl : a = t := Option.some.inj ht
          have hne : r ≠ a := fun heq => hr (heq ▸ List.mem_cons_self)
          refine ⟨Function.update_self .., ?_⟩
          rw [Function.update_of_ne hne]
          exact hnone
      | cons b l =>
          have hlast : (b :: l).getLast? = some t := by
            rw [List.getLast?_cons_cons] at ht
            exact ht
          have hne : a ≠ t := by
            rintro rfl
            exact hnodup.1 (List.mem_of_getLast? hlast)
          rw [Function.update_of_ne hne]
          exact ih hrest hnodup.2 hlast fun hmem => hr (List.mem_cons_of_mem a hmem)

theorem Follows.walkLast (h : Follows next (some a) l) (hn : l.length ≤ n + 1) :
    l.getLast? = some (walkLast next n a) := by
  induction n generalizing a l with
  | zero =>
      cases l with
      | nil => cases h
      | cons b l =>
          obtain rfl := Option.some.inj h.1
          have hnil : l = [] := List.eq_nil_of_length_eq_zero (by simpa using hn)
          rw [hnil]
          rfl
  | succ n ih =>
      cases l with
      | nil => cases h
      | cons b l =>
          obtain ⟨hhead, hrest⟩ := h
          obtain rfl := Option.some.inj hhead
          rw [LinkedList.walkLast]
          cases hnext : next a with
          | none =>
              rw [hnext] at hrest
              cases l with
              | nil => rfl
              | cons c l => cases hrest.1
          | some b =>
              rw [hnext] at hrest
              have hlast := ih hrest (by simpa using hn)
              cases l with
              | nil => cases hrest
              | cons c l =>
                  rw [List.getLast?_cons_cons]
                  exact hlast

end LinkedList
