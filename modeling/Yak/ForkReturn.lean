import Yak.QueueInvariant
import Mathlib.Tactic

/-!
# What `kernel_fork` returns

`kernel_fork` calls `schedule` and then returns the global `last_pid`.  Here the scheduler may
make any live process the current one, and the processes may do whatever else leaves exited
slots exited.  The links of the run queues play no part.
-/

namespace Yak.Process

/-- The kernel, and for each process which was switched out inside `kernel_fork` the pid of the
slot which its call has allocated. -/
structure Forks where
  kernel : Kernel
  pending : Slot → Option ℤ

inductive ForkStep where
  /-- `kernel_fork` up to its call of `schedule`, or to a failure. -/
  | enter (archOk : Bool)
  /-- `schedule`, called by anybody. -/
  | switch (q : Slot)
  /-- The return from `kernel_fork`. -/
  | ret
  /-- Sleep, wake-up, stop, exit or the reaping of a process. -/
  | setState (p : Slot) (state : ProcState)

namespace Forks

open Kernel

def init : Forks where
  kernel := processesInit
  pending _ := none

/-- The slot `c` becomes a child of the current process. -/
def allocate (s : Forks) (c : Slot) (k : Kernel) : Forks where
  kernel := (k.forkCopy c).forkBuild c
  pending := Function.update (Function.update s.pending c none) s.kernel.currentProcess
    (some (((k.forkCopy c).forkBuild c).processTable c).pid)

def step (s : Forks) : ForkStep → Option Forks
  | .enter archOk =>
      if s.kernel.current.state.dead ∨ s.pending s.kernel.currentProcess ≠ none then none
      else
        match s.kernel.getFreeProc with
        | none => some s
        | some (c, k) =>
            some (if archOk then s.allocate c k else { s with kernel := (k.forkCopy c).forkFail c })
  | .switch q =>
      if (s.kernel.processTable q).state.dead then none
      else some { s with kernel := { s.kernel with currentProcess := q } }
  | .ret =>
      if s.pending s.kernel.currentProcess = none then none
      else some { s with pending := Function.update s.pending s.kernel.currentProcess none }
  | .setState p state =>
      if (s.kernel.processTable p).state = .exited ∨
          ((s.kernel.processTable p).state = .zombie ∧ state ≠ .exited) then none
      else some { kernel := s.kernel.setState p state
                  pending := if state.dead then Function.update s.pending p none else s.pending }

/-- No two processes which are not exited have the same pid. -/
def Distinct (s : Forks) : Prop :=
  ∀ p q, (s.kernel.processTable p).state ≠ .exited → (s.kernel.processTable q).state ≠ .exited →
    (s.kernel.processTable p).pid = (s.kernel.processTable q).pid → p = q

/-- The value which `kernel_fork` would return now is the pid of its own child. -/
def ReturnsOwn (s : Forks) : Prop :=
  ∀ child, s.pending s.kernel.currentProcess = some child → (s.kernel.lastPid : ℤ) = child

/-- Along the run the pids are distinct, and every return is right. -/
def Keeps (s : Forks) : List ForkStep → Prop
  | [] => s.Distinct
  | st :: sts =>
      s.Distinct ∧ (st = .ret → s.ReturnsOwn) ∧ ∀ s', s.step st = some s' → s'.Keeps sts

/-- A call of `kernel_fork` gets the slot of every call which has not returned yet. -/
def SafeStep (s : Forks) : ForkStep → Prop
  | .enter _ => ∀ r ∈ s.kernel.getFreeProc, ∀ p, ∀ child ∈ s.pending p, child = r.1.val
  | _ => True

def SafeRun (s : Forks) : List ForkStep → Prop
  | [] => True
  | st :: sts => s.SafeStep st ∧ ∀ s', s.step st = some s' → s'.SafeRun sts

variable {s s' : Forks} {st : ForkStep} {p c : Slot}

/-! ## Pids are slots -/

structure Inv (s : Forks) : Prop where
  pid : ∀ p, (s.kernel.processTable p).state ≠ .exited → (s.kernel.processTable p).pid = p.val
  pending : ∀ p, ∀ child ∈ s.pending p, (s.kernel.lastPid : ℤ) = child

theorem Inv.distinct (h : s.Inv) : s.Distinct := by
  intro p q hp hq heq
  rw [h.pid p hp, h.pid q hq] at heq
  exact Fin.ext (Int.natCast_inj.mp heq)

theorem Inv.returnsOwn (h : s.Inv) : s.ReturnsOwn := fun child => h.pending _ child

theorem inv_init : init.Inv where
  pid := by
    intro p hp
    unfold init processesInit at hp ⊢
    dsimp only at hp ⊢
    split at hp
    next hzero =>
      rw [if_pos hzero, hzero]
      rfl
    next => exact (hp rfl).elim
  pending _ _ hchild := by cases hchild

theorem forkBuild_child (k : Kernel) (c : Slot) (p : Slot) :
    (((k.forkCopy c).forkBuild c).processTable p).pid =
        (if p = c then (k.lastPid : ℤ) else (k.processTable p).pid) ∧
      (((k.forkCopy c).forkBuild c).processTable p).state =
        (if p = c then .runnable else (k.processTable p).state) := by
  unfold forkBuild
  rw [modify_processTable]
  by_cases hp : p = c
  · rw [if_pos hp, if_pos hp, if_pos hp]
    exact ⟨rfl, rfl⟩
  · rw [if_neg hp, if_neg hp, if_neg hp]
    unfold forkCopy
    rw [modify_processTable, if_neg hp]
    exact ⟨rfl, rfl⟩

theorem Inv.allocate (h : s.Inv) (hsafe : ∀ p, ∀ child ∈ s.pending p, child = c.val) :
    (s.allocate c { s.kernel with lastPid := c.val }).Inv := by
  have hlast : (s.allocate c { s.kernel with lastPid := c.val }).kernel.lastPid = c.val := rfl
  constructor
  · intro p hp
    unfold Forks.allocate at hp ⊢
    dsimp only at hp ⊢
    obtain ⟨hpid, hstate⟩ := forkBuild_child { s.kernel with lastPid := c.val } c p
    rw [hstate] at hp
    rw [hpid]
    by_cases hpc : p = c
    · rw [if_pos hpc, hpc]
    · rw [if_neg hpc] at hp ⊢
      exact h.pid p hp
  · intro p child hchild
    rw [hlast]
    unfold Forks.allocate at hchild
    dsimp only at hchild
    by_cases hcur : p = s.kernel.currentProcess
    · rw [hcur, Function.update_self, (forkBuild_child _ c c).1, if_pos rfl] at hchild
      exact Option.some.inj hchild
    · rw [Function.update_of_ne hcur] at hchild
      by_cases hpc : p = c
      · rw [hpc, Function.update_self] at hchild
        cases hchild
      · rw [Function.update_of_ne hpc] at hchild
        exact (hsafe p child hchild).symm

theorem Inv.fail (h : s.Inv) (hsafe : ∀ p, ∀ child ∈ s.pending p, child = c.val) :
    Inv { s with kernel := (({ s.kernel with lastPid := c.val } : Kernel).forkCopy c).forkFail c } where
  pid := by
    intro p hp
    unfold forkFail setState at hp ⊢
    dsimp only at hp ⊢
    rw [modify_processTable] at hp ⊢
    by_cases hpc : p = c
    · rw [if_pos hpc] at hp
      exact (hp rfl).elim
    · rw [if_neg hpc] at hp ⊢
      unfold forkCopy at hp ⊢
      rw [modify_processTable, if_neg hpc] at hp ⊢
      exact h.pid p hp
  pending p child hchild := (hsafe p child hchild).symm

theorem Inv.setState (h : s.Inv) {state : ProcState} (hp : (s.kernel.processTable p).state ≠ .exited)
    {pending : Slot → Option ℤ} (hpending : ∀ q, ∀ child ∈ pending q, child ∈ s.pending q) :
    Inv ⟨s.kernel.setState p state, pending⟩ where
  pid := by
    intro q hq
    unfold Kernel.setState at hq ⊢
    dsimp only at hq ⊢
    rw [modify_processTable] at hq ⊢
    by_cases hqp : q = p
    · subst hqp
      rw [if_pos rfl]
      exact h.pid q hp
    · rw [if_neg hqp] at hq ⊢
      exact h.pid q hq
  pending q child hchild := h.pending q child (hpending q child hchild)

theorem update_none_mem {f : Slot → Option ℤ} {q : Slot} {child : ℤ}
    (h : child ∈ Function.update f p none q) : child ∈ f q := by
  by_cases hq : q = p
  · rw [hq, Function.update_self] at h
    cases h
  · rw [Function.update_of_ne hq] at h
    exact h

theorem Inv.step (h : s.Inv) (hsafe : s.SafeStep st) (hstep : s.step st = some s') : s'.Inv := by
  unfold Forks.step at hstep
  cases st with
  | enter archOk =>
      dsimp only at hstep
      split at hstep
      next => cases hstep
      next =>
        cases hfree : s.kernel.getFreeProc with
        | none =>
            rw [hfree] at hstep
            exact Option.some.inj hstep ▸ h
        | some r =>
            obtain ⟨c, k⟩ := r
            have hslot : ∀ p, ∀ child ∈ s.pending p, child = c.val := hsafe (c, k) hfree
            obtain ⟨_, rfl⟩ := getFreeProc_eq hfree
            rw [hfree] at hstep
            rw [← Option.some.inj hstep]
            split
            next => exact h.allocate hslot
            next => exact h.fail hslot
  | switch q =>
      dsimp only at hstep
      split at hstep
      next => cases hstep
      next => exact Option.some.inj hstep ▸ ⟨h.pid, h.pending⟩
  | ret =>
      dsimp only at hstep
      split at hstep
      next => cases hstep
      next =>
        rw [← Option.some.inj hstep]
        exact ⟨h.pid, fun q child hchild => h.pending q child (update_none_mem hchild)⟩
  | setState p state =>
      dsimp only at hstep
      split at hstep
      next => cases hstep
      next hlive =>
        rw [not_or] at hlive
        rw [← Option.some.inj hstep]
        apply h.setState hlive.1
        intro q child hchild
        split at hchild
        next => exact update_none_mem hchild
        next => exact hchild

/-- In every interleaving in which no fork takes another slot while one has yet to return, every
`kernel_fork` returns its own child. -/
theorem fork_keeps_of_safeRun (steps : List ForkStep) (hsafe : init.SafeRun steps) :
    init.Keeps steps := by
  have hrun : ∀ (steps : List ForkStep) (s : Forks), s.Inv → s.SafeRun steps → s.Keeps steps := by
    intro steps
    induction steps with
    | nil => exact fun s h _ => h.distinct
    | cons st steps ih =>
        intro s h hs
        refine ⟨h.distinct, fun _ => h.returnsOwn, ?_⟩
        intro s' hstep
        exact ih s' (h.step hs.1 hstep) (hs.2 s' hstep)
  exact hrun steps init inv_init hsafe

/-! ## Two forks -/

instance (s : Forks) : (st : ForkStep) → Decidable (s.SafeStep st)
  | .enter _ => inferInstanceAs (Decidable (∀ r ∈ s.kernel.getFreeProc, _))
  | .switch _ | .ret | .setState _ _ => isTrue trivial

def decidableSafeRun : (steps : List ForkStep) → (s : Forks) → Decidable (s.SafeRun steps)
  | [], _ => isTrue trivial
  | st :: steps, s =>
      match h : s.step st with
      | some s' =>
          have := decidableSafeRun steps s'
          decidable_of_iff (s.SafeStep st ∧ s'.SafeRun steps) (by simp [SafeRun, h])
      | none => decidable_of_iff (s.SafeStep st) (by simp [SafeRun, h])

instance (s : Forks) (steps : List ForkStep) : Decidable (s.SafeRun steps) :=
  decidableSafeRun steps s

def one : Slot := ⟨1, one_lt_nrProc⟩

def zero : Slot := ⟨0, zero_lt_nrProc⟩

/-- The child runs before the parent returns, and forks after it. -/
theorem fork_keeps_of_safeRun_turns :
    init.Keeps [.enter true, .switch one, .switch zero, .ret, .switch one, .enter true, .ret] :=
  fork_keeps_of_safeRun _ (by decide +kernel)

/-- The child forks before the parent returns. -/
def childFirst : List ForkStep := [.enter true, .switch one, .enter true, .switch zero]

def run (s : Forks) : List ForkStep → Option Forks
  | [] => some s
  | st :: steps => s.step st >>= fun s => s.run steps

theorem Keeps.returns {steps : List ForkStep} (h : s.Keeps (steps ++ [.ret]))
    (hrun : s.run steps = some s') : s'.ReturnsOwn := by
  induction steps generalizing s with
  | nil => exact Option.some.inj hrun ▸ h.2.1 rfl
  | cons st steps ih =>
      obtain ⟨s₁, hstep, hrest⟩ := Option.bind_eq_some_iff.mp hrun
      exact ih (h.2.2 s₁ hstep) hrest

/-- The first call of `kernel_fork` allocates slot 1 and returns 2. -/
theorem not_fork_keeps_childFirst : ¬init.Keeps (childFirst ++ [.ret]) := by
  intro hkeeps
  have hfacts : (init.run childFirst).map (fun s =>
      (s.pending s.kernel.currentProcess, s.kernel.lastPid)) = some (some 1, 2) := by
    decide +kernel
  cases hrun : init.run childFirst with
  | none =>
      rw [hrun] at hfacts
      cases hfacts
  | some s =>
      rw [hrun] at hfacts
      obtain ⟨hpending, hlast⟩ := Prod.mk.inj (Option.some.inj hfacts)
      have hsame := hkeeps.returns hrun 1 hpending
      rw [hlast] at hsame
      cases hsame

end Forks

-- the scheduler itself goes this way when both children wait afterwards
example :
    (Kernel.processesInit.exec [.fork true, .fork true, .pause, .pause]).map (fun k =>
      (k.currentProcess.val, k.lastPid)) = .ok (0, 2) := by
  decide

end Yak.Process
