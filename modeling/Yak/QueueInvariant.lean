import Yak.ProcessEdits
import Mathlib.Tactic

/-!
# The run queues in every reachable state

The invariant of the run queues: each queue is empty or the head of a closed
ring, the processes on rings are those which are runnable or running, and each
is on the ring of its priority.  The file follows it along runs of the system
calls, the signal code and the timer interrupt.

Two kinds of steps break it.  `kernel_nice` writes the new priority before
`remove_from_queue` uses the field to find the old queue, and `schedule` relinks
a slot given up by `kernel_fork`, whose links are still those of the parent,
when the copied terminal timer runs out.
-/

namespace Yak.Process

open LinkedRing

namespace Kernel

/-- The invariant of `process_queues`. -/
def QueueInvariant (k : Kernel) : Prop :=
  ∃ rings : ℕ → List Slot,
    Family k.links k.processQueues rings ∧
    (∀ p, (k.processTable p).state.queued = true ↔ OnRing rings p) ∧
    (∀ q p, p ∈ rings q → (k.processTable p).priority = q) ∧
    ∀ p, (k.processTable p).priority < procQuanta

/-- An exited slot with non-null links, as a failed `arch_fork` leaves it. -/
def leftover (k : Kernel) (r : Slot) : Bool :=
  (k.processTable r).state = .exited ∧ k.inAQueue r

/-! ## Operations -/

/-- What a process, or the timer, may ask of the kernel. -/
inductive Op where
  | fork (archOk : Bool)
  | exit (status : ℕ)
  | sleep (addr : ℕ) (type : ProcState)
  | wakeup (addr : ℕ) (switch : Bool)
  | nice (inc : ℤ)
  | pause
  | alarm (seconds : ℕ)
  | signal (sig : ℤ) (handler : SigHandler)
  | kill (pid sig : ℤ)
  | deliver (i : ℕ)
  | waitpid (pid : ℤ) (wnohang : Bool)
  | waitpidWoken
  | ttySetTimer (vtime : ℕ)
  | ttyClearTimer
  | tick
  | schedule

def Op.exec (k : Kernel) : Op → Except Halt Kernel
  | .fork archOk => k.kernelFork archOk
  | .exit status => k.kernelExit status
  | .sleep addr type => k.sleep addr type
  | .wakeup addr switch => k.wakeup addr switch
  | .nice inc => k.kernelNice inc
  | .pause => k.kernelPause
  | .alarm seconds => .ok (k.kernelAlarm seconds).1
  | .signal sig handler => .ok (k.kernelSignal sig handler)
  | .kill pid sig => (k.kernelKill pid sig).map Prod.fst
  | .deliver i => (k.deliverSignal i).map Prod.fst
  | .waitpid pid wnohang => k.kernelWaitpid pid wnohang
  | .waitpidWoken => .ok k.waitpidWoken
  | .ttySetTimer vtime => .ok (k.ttySetTimer vtime)
  | .ttyClearTimer => .ok k.ttyClearTimer
  | .tick => k.timerIrq
  | .schedule => k.schedule

/-- `timer_ticks` while the operation runs. -/
def Op.ticks (k : Kernel) : Op → ℕ
  | .tick => (k.timerTicks + 1) % 2 ^ 32
  | _ => k.timerTicks

/-- The operation does not move the current process to another priority. -/
def Op.KeepsPriority (k : Kernel) : Op → Prop
  | .nice inc => niceToPri (niceSum k.current.nice inc) = k.current.priority
  | _ => True

/-- Neither of the two defects is reached. -/
def Op.Safe (k : Kernel) (op : Op) : Prop :=
  op.KeepsPriority k ∧
    ∀ r, k.leftover r = true →
      (k.processTable r).ttyBlock = 0 ∨ op.ticks k ≤ (k.processTable r).ttyBlock

def exec (k : Kernel) (ops : List Op) : Except Halt Kernel :=
  ops.foldlM Op.exec k

/-- Every operation of the run is safe in the state in which it starts. -/
def SafeRun (k : Kernel) : List Op → Prop
  | [] => True
  | op :: ops =>
      op.Safe k ∧
        match op.exec k with
        | .ok k' => SafeRun k' ops
        | .error _ => True

instance (k : Kernel) : (op : Op) → Decidable (op.KeepsPriority k)
  | .nice inc =>
      inferInstanceAs
        (Decidable (niceToPri (niceSum k.current.nice inc) = k.current.priority))
  | .fork _ | .exit _ | .sleep _ _ | .wakeup _ _ | .pause | .alarm _ | .signal _ _
  | .kill _ _ | .deliver _ | .waitpid _ _ | .waitpidWoken | .ttySetTimer _
  | .ttyClearTimer | .tick | .schedule => .isTrue trivial

instance (k : Kernel) (op : Op) : Decidable (op.Safe k) :=
  inferInstanceAs (Decidable (_ ∧ _))

def decidableSafeRun : (ops : List Op) → (k : Kernel) → Decidable (k.SafeRun ops)
  | [], _ => .isTrue trivial
  | op :: ops, k =>
      match h : op.exec k with
      | .ok k' =>
          let _ := decidableSafeRun ops k'
          decidable_of_iff (op.Safe k ∧ k'.SafeRun ops) (by rw [SafeRun, h])
      | .error _ => decidable_of_iff (op.Safe k) (by rw [SafeRun, h]; simp)

instance (k : Kernel) (ops : List Op) : Decidable (k.SafeRun ops) :=
  decidableSafeRun ops k

/-! ## The invariant with its leftover slots -/

/-- The inductive form: `loose` are the slots given up by `kernel_fork`. -/
structure Settled (k : Kernel) (rings : ℕ → List Slot) (loose : Slot → Prop) :
    Prop where
  linked : Linked k rings loose
  onRing_iff : ∀ r, OnRing rings r ↔ (k.processTable r).state.queued = true
  loose_leftover : ∀ r, loose r → k.leftover r = true
  priority_lt : ∀ r, (k.processTable r).priority < procQuanta

/-- The same except for one process, which `adjust_proc_queues` is to repair. -/
structure SettledBut (k : Kernel) (rings : ℕ → List Slot) (loose : Slot → Prop)
    (p : Slot) : Prop where
  linked : Linked k rings loose
  onRing_iff : ∀ r ≠ p, (OnRing rings r ↔ (k.processTable r).state.queued = true)
  loose_leftover : ∀ r, loose r → k.leftover r = true
  priority_lt : ∀ r, (k.processTable r).priority < procQuanta

/-- Between two operations the current process is on a queue. -/
def Sane (k : Kernel) : Prop :=
  ∃ rings loose, Settled k rings loose ∧ k.current.state.queued = true

variable {k k' k₁ : Kernel} {rings rings' : ℕ → List Slot} {loose s : Slot → Prop}
variable {p : Slot}

theorem Settled.queueInvariant (h : Settled k rings loose) : QueueInvariant k :=
  ⟨rings, h.linked.family, fun p => (h.onRing_iff p).symm, h.linked.priority_of_mem,
    h.priority_lt⟩

theorem Settled.not_loose (h : Settled k rings loose)
    (hp : (k.processTable p).state ≠ .exited) : ¬ loose p := by
  intro hl
  have hleft := h.loose_leftover p hl
  simp only [leftover, Bool.decide_and, Bool.and_eq_true, decide_eq_true_eq] at hleft
  exact hp hleft.1

/-- Safe operations leave the slots given up by `kernel_fork` alone. -/
theorem Settled.quiet (h : Settled k rings loose)
    (hsafe : ∀ r, k.leftover r = true →
      (k.processTable r).ttyBlock = 0 ∨ k.timerTicks ≤ (k.processTable r).ttyBlock) :
    Quiet k loose := by
  intro r hr
  have hleft := h.loose_leftover r hr
  have htimer := hsafe r hleft
  simp only [leftover, Bool.decide_and, Bool.and_eq_true, decide_eq_true_eq] at hleft
  constructor
  · unfold ttyExpired
    simp only [decide_eq_false_iff_not, not_and, not_lt]
    intro hne
    rcases htimer with hzero | hle
    · exact (hne hzero).elim
    · exact hle
  · rw [hleft.1]
    simp

theorem ne_exited_of_queued {state : ProcState} (h : state.queued = true) :
    state ≠ .exited := by
  intro heq
  rw [heq] at h
  simp [ProcState.queued] at h

theorem inAQueue_of_links {r : Slot}
    (hnext : k'.links.next r = k.links.next r) (hprev : k'.links.prev r = k.links.prev r) :
    k'.inAQueue r = k.inAQueue r := by
  unfold links at hnext hprev
  dsimp only at hnext hprev
  unfold inAQueue
  rw [hnext, hprev]

theorem leftover_eq {r : Slot}
    (hstate : (k'.processTable r).state = (k.processTable r).state)
    (hin : k'.inAQueue r = k.inAQueue r) : k'.leftover r = k.leftover r := by
  unfold leftover
  rw [hstate, hin]

/-! ## Steps of the kernel -/

theorem Settled.touches (h : Settled k rings loose) (ht : Touches s k k')
    (hs : ∀ r, s r → (k'.processTable r).state.queued = (k.processTable r).state.queued ∧
      ¬ loose r) :
    Settled k' rings loose := by
  constructor
  · exact ht.linked h.linked
  · intro r
    rw [h.onRing_iff]
    by_cases hr : s r
    · rw [(hs r hr).1]
    · rw [ht.state r hr]
  · intro r hr
    have hrs : ¬ s r := fun hsr => (hs r hsr).2 hr
    rw [leftover_eq (ht.state r hrs) (ht.inAQueue r)]
    exact h.loose_leftover r hr
  · intro r
    rw [ht.priority]
    exact h.priority_lt r

theorem SettledBut.adjust (h : SettledBut k rings loose p) (hp : ¬ loose p) :
    ∃ k' rings', k.adjustProcQueues p = .ok k' ∧ Settled k' rings' loose ∧
      SameCore k k' := by
  obtain ⟨k', rings', hrun, hadj⟩ := h.linked.adjust hp
  refine ⟨k', rings', hrun, ?_, hadj.core⟩
  constructor
  · exact hadj.linked
  · intro r
    rw [hadj.core.state]
    by_cases hr : r = p
    · subst r
      exact hadj.here
    · rw [hadj.others r hr]
      exact h.onRing_iff r hr
  · intro r hr
    have hin : k'.inAQueue r = k.inAQueue r := by
      unfold inAQueue
      rw [hadj.frame r hr]
    rw [leftover_eq (hadj.core.state r) hin]
    exact h.loose_leftover r hr
  · intro r
    rw [hadj.core.priority]
    exact h.priority_lt r

/-- A stretch of code which writes one process, then `adjust_proc_queues`. -/
theorem Settled.adjust (h : Settled k rings loose) (ht : Touches (· = p) k k₁)
    (hp : ¬ loose p) :
    ∃ k' rings', k₁.adjustProcQueues p = .ok k' ∧ Settled k' rings' loose ∧
      SameCore k₁ k' := by
  refine SettledBut.adjust ⟨ht.linked h.linked, ?_, ?_, ?_⟩ hp
  · intro r hr
    rw [h.onRing_iff, ht.state r hr]
  · intro r hr
    have hrp : r ≠ p := fun heq => hp (heq ▸ hr)
    rw [leftover_eq (ht.state r hrp) (ht.inAQueue r)]
    exact h.loose_leftover r hr
  · intro r
    rw [ht.priority]
    exact h.priority_lt r

theorem Settled.schedule (h : Settled k rings loose) (hquiet : Quiet k loose)
    (hrun : k.schedule = .ok k') : Sane k' := by
  obtain ⟨k₁, rings₁, c, hadv, hlinked, hc, rfl⟩ := h.linked.schedule hquiet hrun
  have hcloose : ¬ loose c := fun hl => hlinked.not_loose c hl hc
  have hqueued₁ : ∀ r, OnRing rings₁ r ↔ (k₁.processTable r).state.queued = true := by
    intro r
    rcases hadv.slot r with ⟨hstate, hring⟩ | ⟨hstate, hring, _⟩
    · rw [hstate, hring]
      exact h.onRing_iff r
    · rw [hstate]
      simp [ProcState.queued, hring]
  refine ⟨rings₁, loose, ?_, ?_⟩
  · constructor
    · exact hlinked.run c
    · intro r
      rw [run_processTable]
      split
      next hr =>
        subst r
        simp [ProcState.queued, hc]
      next => exact hqueued₁ r
    · intro r hr
      have hrc : r ≠ c := fun heq => hcloose (heq ▸ hr)
      have hstate : ((k₁.run c).processTable r).state = (k.processTable r).state := by
        rw [run_processTable, if_neg hrc]
        rcases hadv.slot r with ⟨hstate, _⟩ | ⟨_, _, hexp | hsleep⟩
        · exact hstate
        · rw [(hquiet r hr).1] at hexp
          simp at hexp
        · exact ((hquiet r hr).2 hsleep).elim
      have hlinks := hadv.links r hr
      rw [← run_links k₁ c] at hlinks
      rw [leftover_eq hstate (inAQueue_of_links hlinks.1 hlinks.2)]
      exact h.loose_leftover r hr
    · intro r
      have hpri := hadv.priority r
      rw [run_processTable]
      split
      · dsimp only
        rw [hpri]
        exact h.priority_lt r
      · rw [hpri]
        exact h.priority_lt r
  · unfold current
    rw [run_processTable]
    simp [run, ProcState.queued]

theorem Touches.quiet (ht : Touches s k k') (hs : ∀ r, s r → ¬ loose r)
    (hquiet : Quiet k loose) : Quiet k' loose := by
  intro r hr
  have hrs : ¬ s r := fun hsr => hs r hsr hr
  have hslot := hquiet r hr
  unfold ttyExpired at hslot ⊢
  rw [ht.state r hrs, ht.ttyBlock r hrs, ht.timerTicks]
  exact hslot

theorem SameCore.quiet (hcore : SameCore k k') (hquiet : Quiet k loose) :
    Quiet k' loose := by
  intro r hr
  have hslot := hquiet r hr
  unfold ttyExpired at hslot ⊢
  rw [hcore.state, hcore.ttyBlock, hcore.timerTicks]
  exact hslot

/-- A stretch of code which writes the current process, then
`adjust_proc_queues`, then `schedule`: the common shape of `sleep`,
`kernel_pause`, `kernel_exit` and the stop signals. -/
theorem Settled.adjust_schedule (h : Settled k rings loose) (hquiet : Quiet k loose)
    (hp : ¬ loose p) (ht : Touches (· = p) k k₁)
    (hrun : (k₁.adjustProcQueues p >>= Kernel.schedule) = .ok k') : Sane k' := by
  obtain ⟨k₂, rings₂, hadj, h₂, hcore⟩ := h.adjust ht hp
  have hquiet₁ : Quiet k₁ loose := ht.quiet (fun r hr => hr ▸ hp) hquiet
  rw [hadj] at hrun
  exact h₂.schedule (hcore.quiet hquiet₁) hrun

/-! ## System calls -/

theorem Settled.sleep (h : Settled k rings loose) (hquiet : Quiet k loose)
    (hp : ¬ loose k.currentProcess) {addr : ℕ} {type : ProcState}
    (hrun : k.sleep addr type = .ok k') : Sane k' := by
  unfold Kernel.sleep at hrun
  split at hrun
  · simp at hrun
  · split at hrun
    · simp at hrun
    · have ht : Touches (· = k.currentProcess) k (k.modify k.currentProcess fun x =>
          { x with state := type, sleepingOn := some addr }) :=
        touches_modify k ⟨rfl, rfl, rfl⟩
      exact h.adjust_schedule hquiet hp ht hrun

theorem Settled.kernelPause (h : Settled k rings loose) (hquiet : Quiet k loose)
    (hp : ¬ loose k.currentProcess) (hrun : k.kernelPause = .ok k') : Sane k' :=
  h.adjust_schedule hquiet hp (touches_setState k _) hrun

theorem Settled.kernelExit (h : Settled k rings loose) (hquiet : Quiet k loose)
    (hp : ¬ loose k.currentProcess) {status : ℕ} (hrun : k.kernelExit status = .ok k') :
    Sane k' := by
  unfold Kernel.kernelExit at hrun
  rw [bind_eq_ok] at hrun
  obtain ⟨k₁, hmark, hrun⟩ := hrun
  have ht := exitMark_touches hmark
  rw [ht.currentProcess] at hrun
  exact h.adjust_schedule hquiet hp ht hrun

/-- Writing the fields which the scheduler does not look at. -/
theorem Sane.touches (h : Sane k) (ht : Touches (fun _ => False) k k') : Sane k' := by
  obtain ⟨rings, loose, hsettled, hcurrent⟩ := h
  refine ⟨rings, loose, hsettled.touches ht fun _ hr => hr.elim, ?_⟩
  unfold current at hcurrent ⊢
  rw [ht.currentProcess, ht.state _ not_false]
  exact hcurrent

/-- The terminal timer of the current process is never one of a leftover slot. -/
theorem Settled.setTimer (h : Settled k rings loose)
    (hcurrent : k.current.state.queued = true) (ttyBlock : ℕ) :
    Sane (k.modify k.currentProcess fun x => { x with ttyBlock := ttyBlock }) := by
  have hp : ¬ loose k.currentProcess := h.not_loose (ne_exited_of_queued hcurrent)
  have ht : Touches (· = k.currentProcess) k (k.modify k.currentProcess fun x =>
      { x with ttyBlock := ttyBlock }) :=
    touches_modify k ⟨rfl, rfl, rfl⟩
  refine ⟨rings, loose, ?_, ?_⟩
  · apply h.touches ht
    intro r hr
    subst hr
    rw [modify_processTable, if_pos rfl]
    exact ⟨rfl, hp⟩
  · unfold current at hcurrent ⊢
    rw [modify_currentProcess, modify_processTable, if_pos rfl]
    exact hcurrent

theorem Settled.wakeupSlot (h : Settled k rings loose) (hquiet : Quiet k loose)
    (hcurrent : k.current.state.queued = true) {addr : ℕ} {flag : Bool} {r : Kernel × Bool}
    (hrun : Kernel.wakeupSlot addr (k, flag) p = .ok r) :
    ∃ rings', Settled r.1 rings' loose ∧ Quiet r.1 loose ∧ r.1.current.state.queued = true := by
  unfold Kernel.wakeupSlot at hrun
  split at hrun
  next hsleep =>
    have hp : ¬ loose p := by
      apply h.not_loose
      intro heq
      have hstate : (k.processTable p).state.sleeping = true := hsleep.1
      rw [heq] at hstate
      simp [ProcState.sleeping] at hstate
    have ht : Touches (· = p) k (k.modify p fun x =>
        { x with state := .runnable, sleepingOn := none }) :=
      touches_modify k ⟨rfl, rfl, rfl⟩
    obtain ⟨k₂, rings₂, hadj, h₂, hcore⟩ := h.adjust ht hp
    obtain ⟨k₃, hadj', hret⟩ := bind_eq_ok.mp hrun
    obtain rfl := Except.ok.inj hret
    rw [hadj] at hadj'
    obtain rfl := Except.ok.inj hadj'
    refine ⟨rings₂, h₂, hcore.quiet (ht.quiet (fun r hr => hr ▸ hp) hquiet), ?_⟩
    unfold current at hcurrent ⊢
    rw [hcore.currentProcess, hcore.state, modify_currentProcess, modify_processTable]
    split
    · rfl
    · exact hcurrent
  next =>
    obtain rfl := Except.ok.inj hrun
    exact ⟨rings, h, hquiet, hcurrent⟩

theorem Settled.wakeupSlots (h : Settled k rings loose) (hquiet : Quiet k loose)
    (hcurrent : k.current.state.queued = true) {addr : ℕ} (slots : List Slot)
    {flag : Bool} {r : Kernel × Bool}
    (hrun : slots.foldlM (Kernel.wakeupSlot addr) (k, flag) = .ok r) :
    ∃ rings', Settled r.1 rings' loose ∧ Quiet r.1 loose ∧
      r.1.current.state.queued = true := by
  refine foldlM_invariant (fun r : Kernel × Bool => ∃ rings', Settled r.1 rings' loose ∧
    Quiet r.1 loose ∧ r.1.current.state.queued = true) ?_ ⟨rings, h, hquiet, hcurrent⟩ hrun
  rintro r₁ p r₂ _ ⟨rings₁, h₁, hquiet₁, hcurrent₁⟩ hstep
  exact h₁.wakeupSlot hquiet₁ hcurrent₁ hstep

theorem Settled.wakeup (h : Settled k rings loose) (hquiet : Quiet k loose)
    (hcurrent : k.current.state.queued = true) {addr : ℕ} {switch : Bool}
    (hrun : k.wakeup addr switch = .ok k') : Sane k' := by
  unfold Kernel.wakeup at hrun
  rw [bind_eq_ok] at hrun
  obtain ⟨r, hloop, hrun⟩ := hrun
  obtain ⟨rings', hsettled, hquiet', hcurrent'⟩ := h.wakeupSlots hquiet hcurrent _ hloop
  split at hrun
  · exact hsettled.schedule hquiet' hrun
  · simp only [Except.ok.injEq] at hrun
    rw [← hrun]
    exact ⟨rings', loose, hsettled, hcurrent'⟩

theorem Settled.waitpidScan (h : Settled k rings loose) (hquiet : Quiet k loose)
    (hcurrent : k.current.state.queued = true) (pid : ℤ) :
    Settled (k.waitpidScan pid).kernel rings loose ∧ Quiet (k.waitpidScan pid).kernel loose ∧
      (k.waitpidScan pid).kernel.current.state.queued = true := by
  have hreaps := waitpidScan_reaps k pid
  have hzombie : ∀ r, (k.processTable r).state = .zombie → ¬ loose r := by
    intro r hr
    apply h.not_loose
    rw [hr]
    simp
  refine ⟨?_, hreaps.touches.quiet hzombie hquiet, ?_⟩
  · apply h.touches hreaps.touches
    intro r hr
    refine ⟨?_, hzombie r hr⟩
    rcases hreaps.state r with heq | ⟨hz, hexit, _⟩
    · rw [heq]
    · rw [hz, hexit]
      rfl
  · unfold current at hcurrent ⊢
    rw [hreaps.touches.currentProcess]
    rcases hreaps.state k.currentProcess with heq | ⟨hz, _, _⟩
    · rw [heq]
      exact hcurrent
    · rw [hz] at hcurrent
      simp [ProcState.queued] at hcurrent

theorem Settled.kernelWaitpid (h : Settled k rings loose) (hquiet : Quiet k loose)
    (hcurrent : k.current.state.queued = true) {pid : ℤ} {wnohang : Bool}
    (hrun : k.kernelWaitpid pid wnohang = .ok k') : Sane k' := by
  obtain ⟨hsettled, hquiet', hcurrent'⟩ := h.waitpidScan hquiet hcurrent pid
  unfold Kernel.kernelWaitpid at hrun
  dsimp only at hrun
  generalize k.waitpidScan pid = w at hrun hsettled hquiet' hcurrent'
  split at hrun
  · simp only [Except.ok.injEq] at hrun
    rw [← hrun]
    exact ⟨rings, loose, hsettled, hcurrent'⟩
  · exact hsettled.sleep hquiet' (hsettled.not_loose (ne_exited_of_queued hcurrent')) hrun

/-- `kernel_nice` is harmless if the priority stays. -/
theorem Settled.kernelNice (h : Settled k rings loose)
    (hcurrent : k.current.state.queued = true) {inc : ℤ}
    (hkeeps : niceToPri (niceSum k.current.nice inc) = k.current.priority)
    (hrun : k.kernelNice inc = .ok k') : Sane k' := by
  have hp : ¬ loose k.currentProcess := h.not_loose (ne_exited_of_queued hcurrent)
  unfold Kernel.kernelNice at hrun
  dsimp only at hrun
  rw [hkeeps, modify_currentProcess] at hrun
  have ht : Touches (· = k.currentProcess) k (k.modify k.currentProcess fun x =>
      { x with
        nice := niceSum k.current.nice inc, priority := k.current.priority,
        counter := k.current.priority, quanta := k.current.priority }) :=
    touches_modify k ⟨rfl, rfl, rfl⟩
  obtain ⟨k₂, rings₂, hadj, h₂, hcore⟩ := h.adjust ht hp
  rw [hadj] at hrun
  simp only [Except.ok.injEq] at hrun
  subst hrun
  refine ⟨rings₂, loose, h₂, ?_⟩
  unfold current at hcurrent ⊢
  rw [hcore.currentProcess, hcore.state, modify_currentProcess, modify_processTable, if_pos rfl]
  exact hcurrent

/-- The slot given up after a failed `arch_fork` keeps the links of the parent. -/
theorem Settled.forkFail (h : Settled k rings loose)
    (hcurrent : k.current.state.queued = true) {c : Slot}
    (hexited : (k.processTable c).state = .exited) (n : ℕ) :
    Settled ((forkCopy { k with lastPid := n } c).forkFail c) rings
      fun r => loose r ∨ r = c := by
  have htable : ∀ r, ((forkCopy { k with lastPid := n } c).forkFail c).processTable r =
      if r = c then { k.current with state := .exited } else k.processTable r := by
    intro r
    unfold Kernel.forkFail setState forkCopy
    rw [modify_processTable, modify_processTable]
    by_cases hr : r = c
    · simp [hr, current]
    · simp [hr]
  have hother : ∀ r ≠ c, ((forkCopy { k with lastPid := n } c).forkFail c).processTable r =
      k.processTable r := by
    intro r hr
    rw [htable, if_neg hr]
  have hoff : ¬ OnRing rings c := by
    rw [h.onRing_iff, hexited]
    simp [ProcState.queued]
  constructor
  · exact h.linked.overwrite hoff rfl hother
  · intro r
    rw [htable]
    split
    next hr =>
      subst r
      simp [ProcState.queued, hoff]
    next => exact h.onRing_iff r
  · intro r hr
    by_cases hrc : r = c
    · have hon : OnRing rings k.currentProcess := (h.onRing_iff _).mpr hcurrent
      have hloose : ¬ loose k.currentProcess := h.not_loose (ne_exited_of_queued hcurrent)
      have hin : k.inAQueue k.currentProcess = true := (h.linked.inAQueue hloose).mpr hon
      unfold leftover inAQueue
      rw [htable, if_pos hrc]
      unfold inAQueue at hin
      simpa [current] using hin
    · have hl : loose r := hr.resolve_right hrc
      unfold leftover inAQueue
      rw [hother r hrc]
      exact h.loose_leftover r hl
  · intro r
    rw [htable]
    split
    · exact h.priority_lt k.currentProcess
    · exact h.priority_lt r

/-- A successful fork: the child starts with null links. -/
theorem Settled.forkBuild (h : Settled k rings loose) {c : Slot}
    (hexited : (k.processTable c).state = .exited) (n : ℕ) :
    SettledBut ((forkCopy { k with lastPid := n } c).forkBuild c) rings
      (fun r => loose r ∧ r ≠ c) c := by
  have hother : ∀ r ≠ c, ((forkCopy { k with lastPid := n } c).forkBuild c).processTable r =
      k.processTable r := by
    intro r hr
    unfold Kernel.forkBuild forkCopy
    rw [modify_processTable, modify_processTable, if_neg hr, if_neg hr]
  have hoff : ¬ OnRing rings c := by
    rw [h.onRing_iff, hexited]
    simp [ProcState.queued]
  have hun : ((forkCopy { k with lastPid := n } c).forkBuild c).Unlinked c := by
    simp [Unlinked, Kernel.forkBuild, modify_processTable]
  have hover : Linked ((forkCopy { k with lastPid := n } c).forkBuild c) rings
      fun r => loose r ∨ r = c := h.linked.overwrite hoff rfl hother
  have hlinked := hover.tighten hun
  constructor
  · constructor
    · exact hlinked.family
    · exact hlinked.priority_of_mem
    · intro r hr
      exact hlinked.not_loose r ⟨Or.inl hr.1, hr.2⟩
    · intro r hr
      apply hlinked.unlinked r
      tauto
  · intro r hr
    rw [hother r hr]
    exact h.onRing_iff r
  · intro r hr
    unfold leftover inAQueue
    rw [hother r hr.2]
    exact h.loose_leftover r hr.1
  · intro r
    by_cases hr : r = c
    · unfold Kernel.forkBuild
      rw [modify_processTable, if_pos hr]
      dsimp only
      split
      · decide
      · unfold current forkCopy
        rw [modify_processTable, modify_currentProcess]
        split
        · exact h.priority_lt k.currentProcess
        · exact h.priority_lt k.currentProcess
    · rw [hother r hr]
      exact h.priority_lt r

theorem Settled.kernelFork (h : Settled k rings loose) (hquiet : Quiet k loose)
    (hcurrent : k.current.state.queued = true) {archOk : Bool}
    (hrun : k.kernelFork archOk = .ok k') : Sane k' := by
  unfold Kernel.kernelFork at hrun
  cases hfree : k.getFreeProc with
  | none =>
      rw [hfree] at hrun
      simp only [Except.ok.injEq] at hrun
      rw [← hrun]
      exact ⟨rings, loose, h, hcurrent⟩
  | some found =>
      obtain ⟨c, k₁⟩ := found
      obtain ⟨hexited, rfl⟩ := getFreeProc_eq hfree
      have hc : k.currentProcess ≠ c := by
        intro heq
        unfold current at hcurrent
        rw [heq, hexited] at hcurrent
        simp [ProcState.queued] at hcurrent
      rw [hfree] at hrun
      dsimp only at hrun
      cases archOk with
      | true =>
          have hbut := h.forkBuild hexited c.val
          obtain ⟨k₂, rings₂, hadj, h₂, hcore⟩ := hbut.adjust fun hl => hl.2 rfl
          rw [if_pos rfl, hadj] at hrun
          refine h₂.schedule (hcore.quiet ?_) hrun
          intro r hr
          have hslot := hquiet r hr.1
          unfold ttyExpired at hslot ⊢
          unfold Kernel.forkBuild forkCopy
          rw [modify_processTable, modify_processTable, if_neg hr.2, if_neg hr.2]
          exact hslot
      | false =>
          simp only [Bool.false_eq_true, if_false, Except.ok.injEq] at hrun
          rw [← hrun]
          refine ⟨rings, _, h.forkFail hcurrent hexited c.val, ?_⟩
          unfold current at hcurrent ⊢
          unfold Kernel.forkFail setState forkCopy
          rw [modify_currentProcess, modify_currentProcess, modify_processTable,
            modify_processTable, if_neg hc, if_neg hc]
          exact hcurrent

/-! ## Signals and the timer -/

theorem Settled.deliverSignal (h : Settled k rings loose) (hquiet : Quiet k loose)
    (hcurrent : k.current.state.queued = true) {i : ℕ} {r : Kernel × Option ℕ}
    (hrun : k.deliverSignal i = .ok r) : Sane r.1 := by
  have hp : ¬ loose k.currentProcess := h.not_loose (ne_exited_of_queued hcurrent)
  unfold Kernel.deliverSignal at hrun
  split at hrun
  · have hclear : Touches (fun _ => False) k (k.modify k.currentProcess fun x =>
        { x with sigpending := x.sigpending &&& ~~~(1#32 <<< i) }) :=
      touches_modify_quiet k fun _ => ⟨rfl, rfl, rfl, rfl, rfl⟩
    generalize hk₁ : (k.modify k.currentProcess fun x =>
        { x with sigpending := x.sigpending &&& ~~~(1#32 <<< i) }) = k₁ at hrun hclear
    have h₁ : Settled k₁ rings loose := h.touches hclear fun _ hr => hr.elim
    have hquiet₁ : Quiet k₁ loose := hclear.quiet (fun _ hr => hr.elim) hquiet
    have hp₁ : ¬ loose k₁.currentProcess := by
      rw [hclear.currentProcess]
      exact hp
    have hcurrent₁ : k₁.current.state.queued = true := by
      unfold current at hcurrent ⊢
      rw [hclear.currentProcess, hclear.state _ not_false]
      exact hcurrent
    have hsane₁ : Sane k₁ := ⟨rings, loose, h₁, hcurrent₁⟩
    unfold getSignalHandler at hrun
    split at hrun
    · simp only [Except.ok.injEq] at hrun
      rw [← hrun]
      exact hsane₁
    · simp only [Except.ok.injEq] at hrun
      rw [← hrun]
      exact hsane₁
    · split at hrun
      case h_1 | h_2 =>
        rw [bind_eq_ok] at hrun
        obtain ⟨k₂, hexit, hrun⟩ := hrun
        simp only [Except.ok.injEq] at hrun
        rw [← hrun]
        exact h₁.kernelExit hquiet₁ hp₁ hexit
      case h_3 =>
        simp only [Except.ok.injEq] at hrun
        rw [← hrun]
        exact hsane₁
      case h_4 =>
        split at hrun
        next hstopped =>
          rw [hstopped] at hcurrent₁
          simp [ProcState.queued] at hcurrent₁
        next =>
          simp only [Except.ok.injEq] at hrun
          rw [← hrun]
          exact hsane₁
      case h_5 =>
        rw [bind_eq_ok] at hrun
        obtain ⟨r₂, hkill, hrun⟩ := hrun
        rw [bind_eq_ok] at hrun
        obtain ⟨k₃, hadj, hrun⟩ := hrun
        rw [bind_eq_ok] at hrun
        obtain ⟨k₄, hsched, hrun⟩ := hrun
        simp only [Except.ok.injEq] at hrun
        rw [← hrun]
        have ht : Touches (· = k₁.currentProcess) k₁ r₂.1 :=
          (touches_setState k₁ .stopped).trans (kernelKill_touches hkill)
        rw [ht.currentProcess] at hadj
        refine h₁.adjust_schedule hquiet₁ hp₁ ht ?_
        rw [hadj]
        exact hsched
  · simp only [Except.ok.injEq] at hrun
    rw [← hrun]
    exact ⟨rings, loose, h, hcurrent⟩

theorem Settled.timerIrq (h : Settled k rings loose)
    (hcurrent : k.current.state.queued = true)
    (hquiet : Quiet { k with timerTicks := (k.timerTicks + 1) % 2 ^ 32 } loose)
    (hrun : k.timerIrq = .ok k') : Sane k' := by
  have hp : ¬ loose k.currentProcess := h.not_loose (ne_exited_of_queued hcurrent)
  unfold Kernel.timerIrq at hrun
  generalize hk₀ : ({ k with timerTicks := (k.timerTicks + 1) % 2 ^ 32 } : Kernel) = k₀
    at hrun hquiet
  have h₀ : Settled k₀ rings loose := by
    rw [← hk₀]
    exact ⟨h.linked.congr rfl rfl fun _ => rfl, h.onRing_iff, h.loose_leftover, h.priority_lt⟩
  have hp₀ : ¬ loose k₀.currentProcess := by
    rw [← hk₀]
    exact hp
  unfold chargeQuantum at hrun
  split at hrun
  · have ht : Touches (· = k₀.currentProcess) k₀ (k₀.modify k₀.currentProcess fun x =>
        { x with counter := 0, state := .runnable }) :=
      touches_modify k₀ ⟨rfl, rfl, rfl⟩
    exact h₀.adjust_schedule hquiet hp₀ ht hrun
  · have ht : Touches (fun _ => False) k₀ (k₀.modify k₀.currentProcess fun x =>
        { x with counter := x.counter - 1 }) :=
      touches_modify_quiet k₀ fun _ => ⟨rfl, rfl, rfl, rfl, rfl⟩
    exact (h₀.touches ht fun _ hr => hr.elim).schedule
      (ht.quiet (fun _ hr => hr.elim) hquiet) hrun

/-! ## Runs -/

theorem map_fst_eq_ok {α β : Type} {x : Except Halt (α × β)} {a : α}
    (h : x.map Prod.fst = .ok a) : ∃ r, x = .ok r ∧ r.1 = a := by
  cases x with
  | error e => simp [Except.map] at h
  | ok r =>
      simp only [Except.map, Except.ok.injEq] at h
      exact ⟨r, rfl, h⟩

theorem Sane.step (h : Sane k) {op : Op} (hsafe : op.Safe k)
    (hrun : op.exec k = .ok k') : Sane k' := by
  have hsane := h
  obtain ⟨rings, loose, hsettled, hcurrent⟩ := h
  obtain ⟨hkeeps, htimers⟩ := hsafe
  have hp : ¬ loose k.currentProcess := hsettled.not_loose (ne_exited_of_queued hcurrent)
  have hwrite : ∀ k₁, Touches (fun _ => False) k k₁ → (.ok k₁ : Except Halt Kernel) = .ok k' →
      Sane k' := by
    intro k₁ ht heq
    simp only [Except.ok.injEq] at heq
    rw [← heq]
    exact hsane.touches ht
  cases op with
  | tick =>
      refine hsettled.timerIrq hcurrent ?_ hrun
      have h₀ : Settled { k with timerTicks := (k.timerTicks + 1) % 2 ^ 32 } rings loose :=
        ⟨hsettled.linked.congr rfl rfl fun _ => rfl, hsettled.onRing_iff,
          hsettled.loose_leftover, hsettled.priority_lt⟩
      exact h₀.quiet htimers
  | fork archOk => exact hsettled.kernelFork (hsettled.quiet htimers) hcurrent hrun
  | exit status => exact hsettled.kernelExit (hsettled.quiet htimers) hp hrun
  | sleep addr type => exact hsettled.sleep (hsettled.quiet htimers) hp hrun
  | wakeup addr switch => exact hsettled.wakeup (hsettled.quiet htimers) hcurrent hrun
  | nice inc => exact hsettled.kernelNice hcurrent hkeeps hrun
  | pause => exact hsettled.kernelPause (hsettled.quiet htimers) hp hrun
  | alarm seconds => exact hwrite _ (kernelAlarm_touches k seconds) hrun
  | signal sig handler => exact hwrite _ (kernelSignal_touches k sig handler) hrun
  | kill pid sig =>
      obtain ⟨r, hkill, hr⟩ := map_fst_eq_ok hrun
      rw [← hr]
      exact hsane.touches (kernelKill_touches hkill)
  | deliver i =>
      obtain ⟨r, hdeliver, hr⟩ := map_fst_eq_ok hrun
      rw [← hr]
      exact hsettled.deliverSignal (hsettled.quiet htimers) hcurrent hdeliver
  | waitpid pid wnohang =>
      unfold Op.exec at hrun
      exact hsettled.kernelWaitpid (hsettled.quiet htimers) hcurrent hrun
  | waitpidWoken => exact hwrite _ (waitpidWoken_touches k) hrun
  | ttySetTimer vtime =>
      simp only [Op.exec, Except.ok.injEq] at hrun
      rw [← hrun]
      exact hsettled.setTimer hcurrent _
  | ttyClearTimer =>
      simp only [Op.exec, Except.ok.injEq] at hrun
      rw [← hrun]
      exact hsettled.setTimer hcurrent _
  | schedule => exact hsettled.schedule (hsettled.quiet htimers) hrun

theorem Sane.run (h : Sane k) {ops : List Op} (hsafe : k.SafeRun ops)
    (hrun : k.exec ops = .ok k') : Sane k' := by
  unfold exec at hrun
  induction ops generalizing k with
  | nil =>
      simp only [List.foldlM_nil, pure, Except.pure, Except.ok.injEq] at hrun
      rw [← hrun]
      exact h
  | cons op ops ih =>
      rw [List.foldlM_cons, bind_eq_ok] at hrun
      obtain ⟨k₁, hstep, hrun⟩ := hrun
      rw [SafeRun, hstep] at hsafe
      exact ih (h.step hsafe.1 hstep) hsafe.2 hrun

theorem processesInit_sane : Sane processesInit := by
  have hqueued : ∀ r, (processesInit.processTable r).state.queued = true ↔ r.val = 0 := by
    decide
  refine ⟨initRings, fun _ => False, ?_, by decide⟩
  constructor
  · exact processesInit_linked
  · intro r
    rw [onRing_initRings, hqueued]
  · exact fun r hr => hr.elim
  · decide

/-- In every state reached by safe operations the run queues are in order. -/
theorem queueInvariant_of_safeRun (ops : List Op) (k : Kernel)
    (hsafe : processesInit.SafeRun ops) (hrun : processesInit.exec ops = .ok k) :
    k.QueueInvariant := by
  obtain ⟨rings, loose, hsettled, _⟩ := processesInit_sane.run hsafe hrun
  exact hsettled.queueInvariant

/-- A safe run with forks, a nice value that keeps the priority, an exit, a
wait and timer interrupts. -/
theorem queueInvariant_of_safeRun_forks :
    ∃ k, processesInit.exec
        [.fork true, .fork true, .nice 12, .tick, .exit 3, .fork false, .tick] = .ok k ∧
      k.QueueInvariant := by
  have hok : (processesInit.exec
      [.fork true, .fork true, .nice 12, .tick, .exit 3, .fork false, .tick]).isOk = true := by
    decide +kernel
  cases hrun : processesInit.exec
      [.fork true, .fork true, .nice 12, .tick, .exit 3, .fork false, .tick] with
  | error e => simp [hrun, Except.isOk, Except.toBool] at hok
  | ok k => exact ⟨k, rfl, queueInvariant_of_safeRun _ k (by decide +kernel) hrun⟩

/-- After a fork, `nice(0)` raises the child from queue 1 to queue 4, and both
queues then start at the child. -/
theorem not_queueInvariant_nice :
    ∃ k, processesInit.exec [.fork true, .nice 0] = .ok k ∧ ¬ k.QueueInvariant := by
  have hheads : (processesInit.exec [.fork true, .nice 0]).map
      (fun k => (k.processQueues 1, k.processQueues 4)) =
        .ok (some ⟨1, by decide⟩, some ⟨1, by decide⟩) := by
    decide +kernel
  cases hrun : processesInit.exec [.fork true, .nice 0] with
  | error e => simp [hrun, Except.map] at hheads
  | ok k =>
      rw [hrun] at hheads
      simp only [Except.map, Except.ok.injEq, Prod.mk.injEq] at hheads
      refine ⟨k, rfl, ?_⟩
      intro ⟨rings, hfamily, _⟩
      obtain ⟨l₁, h₁⟩ := hfamily.eq_cons hheads.1
      obtain ⟨l₄, h₄⟩ := hfamily.eq_cons hheads.2
      have hsame : (1 : ℕ) = 4 :=
        hfamily.disjoint 1 4 ⟨1, by decide⟩ (by simp [h₁]) (by simp [h₄])
      omega

end Kernel

end Yak.Process
