import Mathlib.Tactic

/-!
# Ways in which kernel code stops

The kernel is modelled by total functions into `Except Halt`.  A halt is an
execution which does not come back to its caller: a call of `panic`, a use of
a null pointer, an access outside an object, a loop over a pointer structure
which never closes, a division by zero, a loop without end, or a sleep which
only somebody else can end.
-/

namespace Yak

universe u v

/-- Why a piece of kernel code did not return. -/
inductive Halt where
  /-- `panic` was called with this text. -/
  | panic (message : String)
  /-- A null pointer was dereferenced. -/
  | nullDeref
  /-- Memory outside the addressed object was accessed. -/
  | outOfBounds
  /-- A walk along links met a null link or never returned to its start. -/
  | badWalk
  /-- The process went to sleep. -/
  | asleep
  /-- The processor raised a divide error. -/
  | divideByZero
  /-- A loop went on for longer than it was given. -/
  | endless
  deriving DecidableEq, Repr

section Stages

variable {ε : Type u} {α β : Type v} {f : α → Except ε β}

@[simp] theorem ok_bind (a : α) : (Except.ok a >>= f) = f a := rfl

@[simp] theorem error_bind (e : ε) : ((Except.error e : Except ε α) >>= f) = .error e := rfl

/-- Split a successful two-stage computation into its stages. -/
theorem bind_eq_ok {x : Except ε α} {b : β} :
    x >>= f = .ok b ↔ ∃ a, x = .ok a ∧ f a = .ok b := by
  cases x with
  | error e => simp
  | ok a => simp

end Stages

/-- The computation makes no access outside an object, and if it comes to a result
then the result has this property. -/
def InBounds {α : Type v} (P : α → Prop) : Except Halt α → Prop
  | .ok a => P a
  | .error e => e ≠ .outOfBounds

section InBounds

variable {α β : Type v} {P P' : α → Prop} {Q : β → Prop} {x : Except Halt α}

theorem InBounds.imp (hx : InBounds P x) (h : ∀ a, P a → P' a) : InBounds P' x := by
  cases x with
  | error e => exact hx
  | ok a => exact h a hx

theorem InBounds.bind {f : α → Except Halt β} (hx : InBounds P x)
    (hf : ∀ a, P a → InBounds Q (f a)) : InBounds Q (x >>= f) := by
  cases x with
  | error e => exact hx
  | ok a => exact hf a hx

theorem InBounds.ne_outOfBounds (hx : InBounds P x) : x ≠ .error .outOfBounds := by
  rintro rfl
  exact hx rfl

end InBounds

/-- If the computation comes to a result then the result has this property. -/
def Yields {ε : Type u} {α : Type v} (P : α → Prop) (x : Except ε α) : Prop :=
  ∀ a, x = .ok a → P a

section Yields

variable {ε : Type u} {α β : Type v} {P P' : α → Prop} {Q : β → Prop} {x : Except ε α}

theorem Yields.ok {a : α} (h : P a) : Yields P (.ok a : Except ε α) := by
  intro a' ha
  rw [← Except.ok.inj ha]
  exact h

theorem Yields.error (e : ε) : Yields P (.error e) := by
  intro a ha
  cases ha

theorem Yields.imp (hx : Yields P x) (h : ∀ a, P a → P' a) : Yields P' x :=
  fun a ha => h a (hx a ha)

theorem Yields.bind {f : α → Except ε β} (hx : Yields P x) (hf : ∀ a, P a → Yields Q (f a)) :
    Yields Q (x >>= f) := by
  intro b hb
  obtain ⟨a, ha, hfa⟩ := bind_eq_ok.mp hb
  exact hf a (hx a ha) b hfa

theorem Yields.of_forall {f : α → Except ε β} (hf : ∀ a, Yields Q (f a)) : Yields Q (x >>= f) :=
  Yields.bind (P := fun _ => True) (fun _ _ => trivial) fun a _ => hf a

end Yields

/-- If the first computation comes to a result then so does the second, with a related one. -/
def Matches {ε : Type u} {α β : Type v} (R : α → β → Prop) (x : Except ε α) (y : Except ε β) :
    Prop :=
  ∀ a, x = .ok a → ∃ b, y = .ok b ∧ R a b

section Matches

variable {ε : Type u} {α β α' β' : Type v} {R : α → β → Prop} {S : α' → β' → Prop}
  {x : Except ε α} {y : Except ε β}

theorem Matches.ok {a : α} {b : β} (h : R a b) : Matches R (.ok a : Except ε α) (.ok b) := by
  intro a' ha
  exact ⟨b, rfl, Except.ok.inj ha ▸ h⟩

theorem Matches.error (e : ε) : Matches R (.error e) y := by
  intro a ha
  cases ha

theorem Matches.same (x : Except ε α) : Matches Eq x x := fun a ha => ⟨a, ha, rfl⟩

theorem Matches.bind {f : α → Except ε α'} {g : β → Except ε β'} (hx : Matches R x y)
    (hf : ∀ a b, x = .ok a → R a b → Matches S (f a) (g b)) : Matches S (x >>= f) (y >>= g) := by
  intro a' ha'
  obtain ⟨a, ha, hfa⟩ := bind_eq_ok.mp ha'
  obtain ⟨b, hb, hab⟩ := hx a ha
  obtain ⟨b', hb', hab'⟩ := hf a b ha hab a' hfa
  exact ⟨b', bind_eq_ok.mpr ⟨b, hb, hb'⟩, hab'⟩

end Matches

section Loops

variable {ε σ α β : Type*} {f g : σ → α → Except ε σ} {l : List α} {s s' : σ}

theorem foldlM_invariant (inv : σ → Prop)
    (hkeep : ∀ s a s', a ∈ l → inv s → f s a = .ok s' → inv s') (hs : inv s)
    (h : l.foldlM f s = .ok s') : inv s' := by
  induction l generalizing s with
  | nil => exact Except.ok.inj h ▸ hs
  | cons a l ih =>
      rw [List.foldlM_cons] at h
      cases hf : f s a with
      | error e =>
          rw [hf] at h
          cases h
      | ok s₁ =>
          rw [hf, ok_bind] at h
          exact ih (fun s b s' hb => hkeep s b s' (List.mem_cons_of_mem a hb))
            (hkeep s a s₁ List.mem_cons_self hs hf) h

/-- Two loops agree as long as their turns agree on the states which are reached. -/
theorem foldlM_congr_of_invariant (inv : σ → Prop)
    (hkeep : ∀ s a s', a ∈ l → inv s → f s a = .ok s' → inv s')
    (hsame : ∀ s a, a ∈ l → inv s → f s a = g s a) (hs : inv s) :
    l.foldlM f s = l.foldlM g s := by
  induction l generalizing s with
  | nil => rfl
  | cons a l ih =>
      rw [List.foldlM_cons, List.foldlM_cons, ← hsame s a List.mem_cons_self hs]
      cases hf : f s a with
      | error e => rfl
      | ok s' =>
          exact ih (fun s b s' hb => hkeep s b s' (List.mem_cons_of_mem a hb))
            (fun s b hb => hsame s b (List.mem_cons_of_mem a hb))
            (hkeep s a s' List.mem_cons_self hs hf)

theorem foldlM_flatMap {f : α → List β} {g : σ → β → Except ε σ} :
    (l.flatMap f).foldlM g s = l.foldlM (fun s a => (f a).foldlM g s) s := by
  induction l generalizing s with
  | nil => rfl
  | cons a l ih => simp [ih]

end Loops

/-- The result of a computation which a decision procedure has looked at. -/
theorem exists_of_map_decide {ε α : Type*} {x : Except ε α} {P : α → Prop} [DecidablePred P]
    (h : x.map (fun a => decide (P a)) = .ok true) : ∃ a, x = .ok a ∧ P a := by
  cases x with
  | error e => cases h
  | ok a => exact ⟨a, rfl, of_decide_eq_true (Except.ok.inj h)⟩

end Yak
