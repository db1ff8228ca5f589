import Mathlib.Logic.Relation
import Mathlib.Tactic

/-!
# Loops with a bound on their turns

The body of a loop takes a state to the next one, or it ends the loop with a result or with an
error.  A run stops with an error of its own when the bound is reached.
-/

namespace BoundedLoop

universe u v

variable {ε : Type v} {σ ρ : Type u}

/-- So many turns of a loop. -/
def run (late : ε) (body : σ → Except ε (ρ ⊕ σ)) : (turns : ℕ) → σ → Except ε ρ
  | 0, _ => .error late
  | turns + 1, s => body s >>= Sum.elim .ok (run late body turns)

/-- The turn which goes on. -/
def Next (body : σ → Except ε (ρ ⊕ σ)) (s s' : σ) : Prop := body s = .ok (.inr s')

/-- From some number of turns on, the loop ends in this way. -/
def Settles (late : ε) (body : σ → Except ε (ρ ⊕ σ)) (s : σ) (x : Except ε ρ) : Prop :=
  ∃ n, (∀ turns ≤ n, run late body turns s = .error late) ∧
    ∀ turns, n < turns → run late body turns s = x

/-- No number of turns is enough. -/
def Endless (late : ε) (body : σ → Except ε (ρ ⊕ σ)) (s : σ) : Prop :=
  ∀ turns, run late body turns s = .error late

variable {late e : ε} {body : σ → Except ε (ρ ⊕ σ)} {s s' : σ} {r : ρ} {x : Except ε ρ}

theorem run_next (h : Next body s s') (turns : ℕ) :
    run late body (turns + 1) s = run late body turns s' := by
  unfold Next at h
  rw [run, h]
  rfl

theorem run_invariant {turns : ℕ} (inv : σ → Prop) (post : ρ → Prop)
    (hturn : ∀ s y, inv s → body s = .ok y → y.elim post inv) (hs : inv s)
    (h : run late body turns s = .ok r) : post r := by
  induction turns generalizing s with
  | zero => cases h
  | succ turns ih =>
      rw [run] at h
      cases hbody : body s with
      | error e =>
          rw [hbody] at h
          cases h
      | ok y =>
          rw [hbody] at h
          have hy := hturn s y hs hbody
          cases y with
          | inl r' =>
              obtain rfl := Except.ok.inj h
              exact hy
          | inr s' => exact ih hy h

/-- What every turn that goes on keeps holds wherever the loop comes to. -/
theorem leads_invariant (inv : σ → Prop) (hturn : ∀ s s', inv s → Next body s s' → inv s')
    (hs : inv s) (h : Relation.ReflTransGen (Next body) s s') : inv s' := by
  induction h with
  | refl => exact hs
  | tail _ hnext ih => exact hturn _ _ ih hnext

theorem run_mono {turns turns' : ℕ} (h : run late body turns s = .ok r) (hle : turns ≤ turns') :
    run late body turns' s = .ok r := by
  induction turns generalizing s turns' with
  | zero => cases h
  | succ turns ih =>
      obtain ⟨turns', rfl⟩ := Nat.exists_eq_add_of_le' (Nat.le_of_add_left_le hle)
      rw [run] at h ⊢
      cases hbody : body s with
      | error e =>
          rw [hbody] at h
          cases h
      | ok y =>
          rw [hbody] at h
          cases y with
          | inl r' => exact h
          | inr s' => exact ih h (Nat.le_of_succ_le_succ hle)

/-! ## Ends of a loop -/

theorem settles_of_body (h : ∀ turns, run late body (turns + 1) s = x) :
    Settles late body s x := by
  refine ⟨0, ?_, ?_⟩
  · intro turns hturns
    rw [Nat.le_zero.mp hturns]
    rfl
  · intro turns hturns
    obtain ⟨turns, rfl⟩ := Nat.exists_eq_succ_of_ne_zero hturns.ne'
    exact h turns

theorem settles_of_ok (h : body s = .ok (.inl r)) : Settles late body s (.ok r) := by
  apply settles_of_body
  intro turns
  rw [run, h]
  rfl

theorem settles_of_error (h : body s = .error e) : Settles late body s (.error e) := by
  apply settles_of_body
  intro turns
  rw [run, h]
  rfl

theorem Settles.of_next (h : Next body s s') (hs : Settles late body s' x) :
    Settles late body s x := by
  obtain ⟨n, hlate, hdone⟩ := hs
  refine ⟨n + 1, ?_, ?_⟩
  · intro turns hturns
    cases turns with
    | zero => rfl
    | succ turns =>
        rw [run_next h]
        exact hlate turns (Nat.le_of_succ_le_succ hturns)
  · intro turns hturns
    cases turns with
    | zero => cases hturns
    | succ turns =>
        rw [run_next h]
        exact hdone turns (Nat.lt_of_succ_lt_succ hturns)

theorem Settles.of_leads (h : Relation.ReflTransGen (Next body) s s')
    (hs : Settles late body s' x) : Settles late body s x := by
  induction h using Relation.ReflTransGen.head_induction_on with
  | refl => exact hs
  | head hnext _ ih => exact ih.of_next hnext

theorem Settles.run_eq (h : Settles late body s x) (turns : ℕ) :
    run late body turns s = .error late ∨ run late body turns s = x := by
  obtain ⟨n, hlate, hdone⟩ := h
  rcases Nat.lt_or_ge n turns with hlt | hle
  · exact Or.inr (hdone turns hlt)
  · exact Or.inl (hlate turns hle)

theorem Settles.exists_run (h : Settles late body s x) : ∃ turns, run late body turns s = x := by
  obtain ⟨n, -, hdone⟩ := h
  exact ⟨n + 1, hdone (n + 1) (Nat.lt_succ_self n)⟩

theorem Settles.eq_of_run {turns : ℕ} (h : Settles late body s x)
    (hrun : run late body turns s = .ok r) : x = .ok r := by
  rcases h.run_eq turns with hlate | hdone
  · rw [hlate] at hrun
    cases hrun
  · rw [← hdone, hrun]

/-! ## Loops without end -/

theorem Endless.of_next (h : Next body s s') (hs : Endless late body s') : Endless late body s := by
  intro turns
  cases turns with
  | zero => rfl
  | succ turns =>
      rw [run_next h]
      exact hs turns

theorem Endless.of_leads (h : Relation.ReflTransGen (Next body) s s')
    (hs : Endless late body s') : Endless late body s := by
  induction h using Relation.ReflTransGen.head_induction_on with
  | refl => exact hs
  | head hnext _ ih => exact ih.of_next hnext

/-- A loop which goes on from every state of a kind, to one of the same kind, does not end. -/
theorem endless_of_invariant (inv : σ → Prop) (hkeep : ∀ s, inv s → ∃ s', Next body s s' ∧ inv s')
    (hs : inv s) : Endless late body s := by
  intro turns
  induction turns generalizing s with
  | zero => rfl
  | succ turns ih =>
      obtain ⟨s', hnext, hs'⟩ := hkeep s hs
      rw [run_next hnext]
      exact ih hs'

end BoundedLoop
