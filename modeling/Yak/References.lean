import Mathlib.Algebra.BigOperators.Fin
import Mathlib.Tactic

/-!
# Pointers in tables

How many slots of a table point to an object, and how many slots of a family of tables do.
-/

namespace Yak.References

open Finset

variable {ι κ τ : Type*} [DecidableEq κ]

theorem sum_update_add [Fintype ι] [DecidableEq ι] (g : ι → ℕ) (i : ι) (v : ℕ) :
    ∑ j, Function.update g i v j + g i = ∑ j, g j + v := by
  have hrest : ∑ j ∈ univ.erase i, Function.update g i v j = ∑ j ∈ univ.erase i, g j :=
    sum_congr rfl fun j hj => Function.update_of_ne (ne_of_mem_erase hj) v g
  have hnew := add_sum_erase univ (Function.update g i v) (mem_univ i)
  have hold := add_sum_erase univ g (mem_univ i)
  rw [hrest, Function.update_self] at hnew
  omega

/-- The number of slots which point to `f`. -/
def slots [Fintype ι] (t : ι → Option κ) (f : κ) : ℕ := ∑ i, if t i = some f then 1 else 0

theorem slots_update [Fintype ι] [DecidableEq ι] (t : ι → Option κ) (i : ι) (v : Option κ) (f : κ) :
    slots (Function.update t i v) f + (if t i = some f then 1 else 0) =
      slots t f + if v = some f then 1 else 0 := by
  have hterm : (fun j => if Function.update t i v j = some f then 1 else 0) =
      Function.update (fun j => if t j = some f then 1 else 0) i (if v = some f then 1 else 0) := by
    funext j
    by_cases hj : j = i
    · rw [hj, Function.update_self, Function.update_self]
    · rw [Function.update_of_ne hj, Function.update_of_ne hj]
  unfold slots
  rw [hterm]
  exact sum_update_add _ i _

theorem slots_eq_zero_iff [Fintype ι] {t : ι → Option κ} {f : κ} :
    slots t f = 0 ↔ ∀ i, t i ≠ some f := by
  unfold slots
  rw [sum_eq_zero_iff]
  constructor
  · intro h i hi
    have hzero := h i (mem_univ i)
    rw [if_pos hi] at hzero
    exact one_ne_zero hzero
  · intro h i _
    exact if_neg (h i)

/-- The slots which point to `f`, over a family of tables. -/
def total [Fintype τ] [Fintype ι] (t : τ → ι → Option κ) (f : κ) : ℕ := ∑ p, slots (t p) f

variable [Fintype τ] [Fintype ι]

theorem total_update [DecidableEq τ] (t : τ → ι → Option κ) (p : τ) (v : ι → Option κ) (f : κ) :
    total (Function.update t p v) f + slots (t p) f = total t f + slots v f := by
  have hterm : (fun q => slots (Function.update t p v q) f) =
      Function.update (fun q => slots (t q) f) p (slots v f) := by
    funext q
    by_cases hq : q = p
    · rw [hq, Function.update_self, Function.update_self]
    · rw [Function.update_of_ne hq, Function.update_of_ne hq]
  unfold total
  rw [hterm]
  exact sum_update_add _ p _

theorem total_eq_zero_iff {t : τ → ι → Option κ} {f : κ} :
    total t f = 0 ↔ ∀ p i, t p i ≠ some f := by
  unfold total
  rw [sum_eq_zero_iff]
  exact ⟨fun h p => slots_eq_zero_iff.mp (h p (mem_univ p)),
    fun h p _ => slots_eq_zero_iff.mpr (h p)⟩

/-- Counts `c'` differ from `c` by what the table `t'` has more than `t`. -/
def Conserves (c c' : κ → ℕ) (t t' : ι → Option κ) : Prop :=
  ∀ f, c' f + slots t f = c f + slots t' f

section Conserves

variable {c c' c'' : κ → ℕ} {t t' t'' : ι → Option κ}

theorem Conserves.refl : Conserves c c t t := fun _ => rfl

theorem Conserves.trans (h : Conserves c c' t t') (h' : Conserves c' c'' t' t'') :
    Conserves c c'' t t'' := by
  intro f
  have h₁ := h f
  have h₂ := h' f
  omega

/-- Where the counts are right, they stay right when one table changes with its counts. -/
theorem Conserves.total [DecidableEq τ] {T : τ → ι → Option κ} {p : τ}
    (h : Conserves c c' (T p) t')
    (hcount : ∀ f, c f = total T f) (f : κ) : c' f = References.total (Function.update T p t') f := by
  have h₁ := h f
  have h₂ := total_update T p t' f
  have h₃ := hcount f
  omega

end Conserves

end Yak.References
