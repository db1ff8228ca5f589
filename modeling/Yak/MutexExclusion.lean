import Yak.Mutex

/-!
# Exclusion by a mutex

Any number of processes lock and unlock one mutex.  `mutex_lock` lets the owner in again but
keeps no count, and `mutex_unlock` frees the mutex whatever the number of locks was.
-/

namespace Yak.MutexExclusion

/-- Where a process is with respect to `mutex_lock`. -/
inductive Phase where
  | running
  /-- In `sleep` on the mutex. -/
  | asleep
  /-- Woken up, and about to look at the lock again. -/
  | woken
  deriving DecidableEq

/-- The mutex and its processes.  `depth` counts the completed locks without an unlock. -/
structure Contention where
  mutex : Mutex
  phase : ℕ → Phase
  depth : ℕ → ℕ

inductive Event where
  | lock (p : ℕ)
  | retry (p : ℕ)
  | unlock (p : ℕ)
  /-- A signal ends the sleep. -/
  | signal (p : ℕ)

namespace Contention

/-- After `mutex_init`. -/
def init : Contention where
  mutex := mutexUnlock
  phase _ := .running
  depth _ := 0

def goto (s : Contention) (p : ℕ) (x : Phase) : Contention :=
  { s with phase := Function.update s.phase p x }

/-- `mutex_lock` returns to `p`. -/
def take (s : Contention) (p : ℕ) : Contention where
  mutex := taken p
  phase := Function.update s.phase p .running
  depth := Function.update s.depth p (s.depth p + 1)

/-- `mutex_unlock` by `p`; `wakeup` wakes all who sleep on the mutex. -/
def free (s : Contention) (p : ℕ) : Contention where
  mutex := mutexUnlock
  phase q := if s.phase q = .asleep then .woken else s.phase q
  depth := Function.update s.depth p (s.depth p - 1)

/-- One step, if the process can take it.  There is none after a panic. -/
def step (s : Contention) : Event → Option Contention
  | .lock p =>
      if s.phase p = .running then
        match mutexLock s.mutex p with
        | .ok _ => some (s.take p)
        | .error .asleep => some (s.goto p .asleep)
        | .error _ => none
      else none
  | .retry p =>
      if s.phase p = .woken then some (if s.mutex.lock then s.goto p .asleep else s.take p)
      else none
  | .unlock p => if s.phase p = .running ∧ s.depth p ≠ 0 then some (s.free p) else none
  | .signal p => if s.phase p = .asleep then some (s.goto p .woken) else none

def run (s : Contention) : List Event → Option Contention
  | [] => some s
  | e :: es => s.step e >>= fun s => s.run es

/-- At most one process has completed more locks than unlocks. -/
def Exclusive (s : Contention) : Prop := ∀ p q, s.depth p ≠ 0 → s.depth q ≠ 0 → p = q

/-- So it is all along the run, as far as it goes. -/
def ExclusiveRun (s : Contention) : List Event → Prop
  | [] => s.Exclusive
  | e :: es => s.Exclusive ∧ ∀ s', s.step e = some s' → s'.ExclusiveRun es

/-- The process which unlocks has locked the mutex once. -/
def SafeStep (s : Contention) : Event → Prop
  | .unlock p => s.depth p ≤ 1
  | _ => True

def SafeRun (s : Contention) : List Event → Prop
  | [] => True
  | e :: es => s.SafeStep e ∧ ∀ s', s.step e = some s' → s'.SafeRun es

variable {s s' : Contention} {e : Event} {es : List Event} {p q : ℕ}

/-! ## The owner -/

/-- The mutex is free and nobody holds it, or one process holds it and owns it. -/
inductive Inv (s : Contention) : Prop where
  | free (hmutex : s.mutex = mutexUnlock) (hdepth : ∀ q, s.depth q = 0)
  | held (p : ℕ) (hmutex : s.mutex = taken p) (hp : s.depth p ≠ 0)
      (hdepth : ∀ q, q ≠ p → s.depth q = 0)

theorem inv_init : init.Inv := .free rfl fun _ => rfl

theorem Inv.exclusive (h : s.Inv) : s.Exclusive := by
  intro p q hp hq
  cases h with
  | free _ hdepth => exact (hp (hdepth p)).elim
  | held r _ _ hdepth =>
      have hpr : p = r := by_contra fun hne => hp (hdepth p hne)
      have hqr : q = r := by_contra fun hne => hq (hdepth q hne)
      rw [hpr, hqr]

theorem Inv.goto (h : s.Inv) (p : ℕ) (x : Phase) : (s.goto p x).Inv := by
  cases h with
  | free hmutex hdepth => exact .free hmutex hdepth
  | held r hmutex hr hdepth => exact .held r hmutex hr hdepth

theorem Inv.take (h : s.Inv) (hown : s.mutex.lock = false ∨ s.mutex.owner = some p) :
    (s.take p).Inv := by
  refine .held p rfl ?_ ?_
  · unfold Contention.take
    dsimp only
    rw [Function.update_self]
    exact Nat.succ_ne_zero _
  · intro q hq
    unfold Contention.take
    dsimp only
    rw [Function.update_of_ne hq]
    cases h with
    | free _ hdepth => exact hdepth q
    | held r hmutex _ hdepth =>
        rw [hmutex] at hown
        have hrp : r = p := by simpa [taken] using hown
        exact hdepth q (hrp ▸ hq)

/-- What `mutex_lock` returns tells whether the mutex was free. -/
theorem mutexLock_cases (m : Mutex) (p : ℕ) :
    (mutexLock m p = .ok (taken p) ∧ (m.lock = false ∨ m.owner = some p)) ∨
      mutexLock m p = .error .asleep ∨
      mutexLock m p = .error (.panic "mutex_lock: Corrupt mutex\r\n") := by
  by_cases hown : m.lock = false ∨ m.owner = some p
  · refine Or.inl ⟨mutexLock_of_usable ?_, hown⟩
    intro hlock
    exact hown.resolve_left fun hfalse => Bool.false_ne_true (hfalse.symm.trans hlock)
  · right
    rw [not_or, Bool.not_eq_false] at hown
    unfold mutexLock
    by_cases hcorrupt : m.owner = none ∧ m.lock = true
    · exact Or.inr (if_pos hcorrupt)
    · left
      rw [if_neg hcorrupt]
      exact if_pos ⟨hown.2, hown.1⟩

theorem Inv.step (h : s.Inv) (hsafe : s.SafeStep e) (hstep : s.step e = some s') : s'.Inv := by
  cases e with
  | lock p =>
      unfold Contention.step at hstep
      dsimp only at hstep
      split at hstep
      next =>
        rcases mutexLock_cases s.mutex p with ⟨heq, hown⟩ | heq | heq
        · rw [heq] at hstep
          exact Option.some.inj hstep ▸ h.take hown
        · rw [heq] at hstep
          exact Option.some.inj hstep ▸ h.goto p .asleep
        · rw [heq] at hstep
          cases hstep
      next => cases hstep
  | retry p =>
      unfold Contention.step at hstep
      dsimp only at hstep
      split at hstep
      next =>
        rw [← Option.some.inj hstep]
        split
        next => exact h.goto p .asleep
        next hlock => exact h.take (Or.inl (Bool.eq_false_of_not_eq_true hlock))
      next => cases hstep
  | unlock p =>
      unfold Contention.step at hstep
      dsimp only at hstep
      split at hstep
      next hen =>
        rw [← Option.some.inj hstep]
        refine .free rfl ?_
        intro q
        unfold Contention.free
        dsimp only
        by_cases hq : q = p
        · rw [hq, Function.update_self]
          exact Nat.sub_eq_zero_of_le hsafe
        · rw [Function.update_of_ne hq]
          by_contra hne
          exact hq (h.exclusive q p hne hen.2)
      next => cases hstep
  | signal p =>
      unfold Contention.step at hstep
      dsimp only at hstep
      split at hstep
      next => exact Option.some.inj hstep ▸ h.goto p .woken
      next => cases hstep

theorem Inv.exclusiveRun (h : s.Inv) (hsafe : s.SafeRun es) : s.ExclusiveRun es := by
  induction es generalizing s with
  | nil => exact h.exclusive
  | cons e es ih =>
      refine ⟨h.exclusive, ?_⟩
      intro s' hstep
      exact ih (h.step hsafe.1 hstep) (hsafe.2 s' hstep)

/-! ## An inner unlock -/

theorem ExclusiveRun.last (h : s.ExclusiveRun es) (hrun : s.run es = some s') : s'.Exclusive := by
  induction es generalizing s with
  | nil => exact Option.some.inj hrun ▸ h
  | cons e es ih =>
      obtain ⟨s₁, hstep, hrest⟩ := Option.bind_eq_some_iff.mp hrun
      exact ih (h.2 s₁ hstep) hrest

theorem run_append {fs : List Event} (hrun : s.run es = some s') :
    s.run (es ++ fs) = s'.run fs := by
  induction es generalizing s with
  | nil => exact Option.some.inj hrun ▸ rfl
  | cons e es ih =>
      obtain ⟨s₁, hstep, hrest⟩ := Option.bind_eq_some_iff.mp hrun
      rw [List.cons_append, run, hstep]
      exact ih hrest

/-- After an unlock by a process which has locked twice, another process gets in beside it. -/
theorem not_exclusive_inner (hp : s.phase p = .running) (hdepth : 2 ≤ s.depth p)
    (hq : s.phase q = .running) (hne : q ≠ p) :
    ∃ s', s.run [.unlock p, .lock q] = some s' ∧ ¬s'.Exclusive := by
  have hunlock : s.step (.unlock p) = some (s.free p) := if_pos ⟨hp, by omega⟩
  have hphase : (s.free p).phase q = .running := by
    unfold free
    dsimp only
    rw [hq]
    rfl
  have hlock : (s.free p).step (.lock q) = some ((s.free p).take q) := by
    unfold step
    dsimp only
    rw [if_pos hphase]
    rfl
  refine ⟨(s.free p).take q, ?_, ?_⟩
  · simp only [run, hunlock, hlock, Option.bind_eq_bind, Option.bind_some]
  · intro hex
    apply hne
    apply hex q p
    · unfold take
      dsimp only
      rw [Function.update_self]
      exact Nat.succ_ne_zero _
    · unfold take free
      dsimp only
      rw [Function.update_of_ne hne.symm, Function.update_self]
      omega

/-- Exclusion holds in every run whose unlocks are those of processes which have locked once.
Where a process unlocks after two locks, exclusion is lost as soon as another process locks. -/
theorem exclusive_of_safeRun (es : List Event) :
    (init.SafeRun es → init.ExclusiveRun es) ∧
      ∀ s p q, init.run es = some s → s.phase p = .running → 2 ≤ s.depth p →
        s.phase q = .running → q ≠ p → ¬init.ExclusiveRun (es ++ [.unlock p, .lock q]) := by
  refine ⟨inv_init.exclusiveRun, ?_⟩
  intro s p q hrun hp hdepth hq hne hex
  obtain ⟨s', hlast, hnot⟩ := not_exclusive_inner hp hdepth hq hne
  exact hnot (hex.last ((run_append hrun).trans hlast))

/-- Process 2 waits for process 1 and gets the mutex. -/
theorem exclusive_of_safeRun_handover :
    init.ExclusiveRun [.lock 1, .lock 2, .unlock 1, .retry 2] ∧
      ¬init.ExclusiveRun ([.lock 1, .lock 1] ++ [.unlock 1, .lock 2]) :=
  ⟨(exclusive_of_safeRun [.lock 1, .lock 2, .unlock 1, .retry 2]).1 (by
      refine ⟨trivial, fun s₁ h₁ => ⟨trivial, fun s₂ h₂ => ⟨?_, fun s₃ _ => ⟨trivial, fun _ _ => trivial⟩⟩⟩⟩
      obtain rfl := Option.some.inj h₁
      obtain rfl := Option.some.inj h₂
      unfold SafeStep
      decide),
    (exclusive_of_safeRun [.lock 1, .lock 1]).2 _ 1 2 rfl rfl (by decide) rfl (by decide)⟩

/-- Process 1 locks twice and unlocks once, then process 2 locks. -/
theorem not_exclusive_reentered :
    ¬init.ExclusiveRun [.lock 1, .lock 1, .unlock 1, .lock 2] := by
  intro hex
  have hrun : init.run [.lock 1, .lock 1, .unlock 1, .lock 2] =
      some (((((init.take 1).take 1).free 1)).take 2) := rfl
  have heq : 1 = 2 := hex.last hrun 1 2 (by decide) (by decide)
  cases heq

end Contention

end Yak.MutexExclusion
