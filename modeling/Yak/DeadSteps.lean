import Yak.DeadSlots
import Mathlib.Tactic

/-!
# Single steps and dead processes

A zombie may only become an exited slot, through its parent's wait, and an
exited slot may only be taken by a fork.  The scheduler writes the runnable
state into every slot whose terminal timer has run out, and into the current
process whenever its quantum is used up, so this fails for runs in which a dead
or half-built slot has a timer that runs out, in which the timer interrupt
finds the current process dead, in which it comes while the links are being
written, and in which two forks take the same slot.  Dead slots stay dead along
all other runs.
-/

namespace Yak.Process

open LinkedRing

/-- The points at which the current process runs with a live state. -/
def Pc.live : Pc → Bool
  | .user => true
  | .linking _ resched => !resched
  | pc => pc.claims.isSome

namespace Machine

open Kernel

/-! ## Steps -/

/-- The step runs `schedule`. -/
def schedules (m : Machine) (s : Step) : Bool :=
  match s, m.here with
  | .tick, _ => true
  | .wakeup _ switch, _ => switch
  | .call (.sleep _ _), .user => true
  | .call .pause, .user => true
  | .call .schedule, .user => true
  | .leave, .leaving => true
  | _, _ => false

/-- The kernel as far as timers are concerned when the step runs `schedule`. -/
def atStep (m : Machine) : Step → Kernel
  | .tick => { m.kernel with timerTicks := (m.kernel.timerTicks + 1) % 2 ^ 32 }
  | _ => m.kernel

/-- None of the defects is reached by the step. -/
def Safe (m : Machine) (s : Step) : Prop :=
  (m.schedules s = true → NoLateTimer (m.atStep s) m.pc) ∧
    match s with
    | .tick => m.here.isLinking = false ∧
        (m.kernel.current.state.dead = false ∨
          (m.here = .leaving ∧ m.kernel.current.counter ≠ 0))
    | .wakeup _ switch => m.here.isLinking = false ∧ (switch = true → m.here ≠ .exiting)
    | .pick => ∀ c ∈ m.kernel.getFreeProc.map Prod.fst, ∀ r, (m.pc r).claims ≠ some c
    | _ => True

/-- Dead slots change only as they should in the step. -/
structure StaysDead (m : Machine) (s : Step) (m' : Machine) : Prop where
  zombie : ∀ p, (m.kernel.processTable p).state = .zombie →
    (m'.kernel.processTable p).state = .zombie ∨
      ((m'.kernel.processTable p).state = .exited ∧ (∃ pid, s = .call (.reap pid p)) ∧
        (m.kernel.processTable p).ppid = m.kernel.current.pid)
  exited : ∀ p, (m.kernel.processTable p).state = .exited →
    (m'.kernel.processTable p).state = .exited ∨
      (m.here = .forkPicked p ∧ ((∃ x, s = .copyPart x) ∨ s = .copy))
  queues : m.schedules s = true → ∀ p q,
    (m'.kernel.processTable p).state.dead = true → ¬ m'.kernel.OnQueue q p

/-- The invariant of the machine. -/
def Inv (m : Machine) : Prop :=
  ∃ rings loose, Base m.done m.pc rings loose ∧
    (m.here.live = true → m.kernel.current.state.queued = true)

variable {m m' : Machine} {s : Step} {rings : ℕ → List Slot} {loose : Slot → Prop}
variable {k k' : Kernel}

theorem done_eq (h : m.here.isLinking = false) : m.done = m.kernel := by
  unfold done
  cases hpc : m.here with
  | linking ws resched =>
      rw [hpc] at h
      simp [Pc.isLinking] at h
  | user | forkPicked | forkCopied | forkBuilt | exiting | stopping | leaving => rfl

theorem staysDead_of_keepsDead (hkeeps : KeepsDead m.kernel m'.kernel)
    (hqueues : m.schedules s = true → ∀ p q,
      (m'.kernel.processTable p).state.dead = true → ¬ m'.kernel.OnQueue q p) :
    StaysDead m s m' := by
  constructor
  · intro p hp
    left
    rw [hkeeps p (by rw [hp]; rfl), hp]
  · intro p hp
    left
    rw [hkeeps p (by rw [hp]; rfl), hp]
  · exact hqueues

theorem not_onQueue_of_off (h : Base k m.pc rings loose)
    (hoff : ∀ r, (k.processTable r).state.dead = true → ¬ OnRing rings r) (p : Slot) (q : ℕ)
    (hp : (k.processTable p).state.dead = true) : ¬ k.OnQueue q p :=
  fun hq => hoff p hp (h.linked.onRing_of_onQueue hq)

theorem inv_staysDead_self (h : Inv m) (hs : m.schedules s = false) :
    Inv m ∧ StaysDead m s m := by
  refine ⟨h, staysDead_of_keepsDead (fun _ _ => rfl) ?_⟩
  intro hsched
  rw [hs] at hsched
  simp at hsched

/-- A step which writes nothing that the scheduler looks at. -/
theorem inv_staysDead_touches (h : Base m.kernel m.pc rings loose)
    (hlive : m.here.live = true → m.kernel.current.state.queued = true)
    (hlink : m.here.isLinking = false) (hs : m.schedules s = false)
    (ht : Touches (fun _ => False) m.kernel k) :
    Inv { m with kernel := k } ∧ StaysDead m s { m with kernel := k } := by
  have hbase : Base k m.pc rings loose := by
    apply h.touches ht
    · exact fun _ hr => hr.elim
    · intro r hr
      rw [ht.state r not_false] at hr
      exact hr
    · intro hr
      unfold current at hr ⊢
      rw [ht.currentProcess, ht.state _ not_false]
      exact hr
  have hhere : ({ m with kernel := k } : Machine).here = m.here := by
    unfold here
    rw [ht.currentProcess]
  constructor
  · refine ⟨rings, loose, ?_, ?_⟩
    · rw [done_eq (by rw [hhere]; exact hlink)]
      exact hbase
    · intro hl
      rw [hhere] at hl
      have hqueued := hlive hl
      unfold current at hqueued ⊢
      rw [ht.currentProcess, ht.state _ not_false]
      exact hqueued
  · apply staysDead_of_keepsDead
    · exact fun r _ => ht.state r not_false
    · intro hsched
      rw [hs] at hsched
      simp at hsched

theorem inv_staysDead_schedule {pc : Slot → Pc} (h : Base k pc rings loose)
    (hlink : ∀ r, (pc r).isLinking = false)
    (hkeeps : KeepsDead m.kernel k) (hqueued : k.current.state.queued = true)
    (hoff : ∀ r, (k.processTable r).state.dead = true → ¬ OnRing rings r) :
    Inv ⟨k, pc⟩ ∧ StaysDead m s ⟨k, pc⟩ := by
  constructor
  · refine ⟨rings, loose, ?_, fun _ => hqueued⟩
    rw [done_eq (m := ⟨k, pc⟩) (hlink k.currentProcess)]
    exact h
  · apply staysDead_of_keepsDead hkeeps
    intro _ p q hp hq
    exact hoff p hp (h.linked.onRing_of_onQueue hq)

theorem Base.setTicks {pc : Slot → Pc} (h : Base k pc rings loose) (ticks : ℕ) :
    Base { k with timerTicks := ticks } pc rings loose :=
  ⟨h.linked.congr rfl rfl fun _ => rfl, h.dead_off, h.dead_idle, h.claim_loose, h.claim_state,
    h.claim_idle, h.claim_inj, h.built, h.loose_cases, h.current_free, h.exiting_dead, h.parked⟩

theorem Inv.tick (h : Inv m) (hsafe : m.Safe .tick) (hrun : m.exec .tick = .ok m') :
    Inv m' ∧ StaysDead m .tick m' := by
  obtain ⟨rings, loose, hbase, hlive⟩ := h
  obtain ⟨hlate, hlink, halive⟩ := hsafe
  rw [done_eq hlink] at hbase
  have hlate := hlate rfl
  have hexit : m.here ≠ .exiting := by
    intro hpc
    rcases halive with halive | ⟨hleaving, _⟩
    · have hdead := hbase.exiting_dead hpc
      rw [halive] at hdead
      simp at hdead
    · rw [hpc] at hleaving
      simp at hleaving
  have hbase₀ := Base.setTicks hbase ((m.kernel.timerTicks + 1) % 2 ^ 32)
  unfold atStep at hlate
  dsimp only at hlate
  unfold exec at hrun
  dsimp only at hrun
  rw [bind_eq_ok] at hrun
  obtain ⟨k', hirq, hrun⟩ := hrun
  simp only [Except.ok.injEq] at hrun
  rw [← hrun]
  unfold timerIrq at hirq
  generalize hk₀ : ({ m.kernel with timerTicks := (m.kernel.timerTicks + 1) % 2 ^ 32 } : Kernel)
    = k₀ at hirq hbase₀ hlate
  have hcur : k₀.currentProcess = m.kernel.currentProcess := by rw [← hk₀]
  have htable : k₀.processTable = m.kernel.processTable := by rw [← hk₀]
  have hlink₀ : (m.pc k₀.currentProcess).isLinking = false := by
    rw [hcur]
    exact hlink
  have hexit₀ : m.pc k₀.currentProcess ≠ .exiting := by
    rw [hcur]
    exact hexit
  have hkeeps₀ : KeepsDead m.kernel k₀ := fun r _ => by rw [htable]
  have hlinks := fun r => (hbase₀.all_parked hexit₀ hlink₀ r).2
  unfold chargeQuantum at hirq
  split at hirq
  next hzero =>
    have halive₀ : k₀.current.state.dead = false := by
      unfold current at hzero ⊢
      rw [htable, hcur] at hzero ⊢
      rcases halive with halive | ⟨_, hcounter⟩
      · exact halive
      · exact (hcounter hzero).elim
    have ht : Touches (· = k₀.currentProcess) k₀ (k₀.modify k₀.currentProcess fun x =>
        { x with counter := 0, state := .runnable }) :=
      touches_modify k₀ ⟨rfl, rfl, rfl⟩
    obtain ⟨rings', hbase', hkeeps, hqueued, hoff⟩ :=
      hbase₀.adjust_schedule hlate halive₀ hlink₀ ht (by simp [current, modify_processTable])
        (by simp [current, modify_processTable, ProcState.dead]) hirq
    exact inv_staysDead_schedule hbase' hlinks (hkeeps₀.trans hkeeps) hqueued hoff
  next =>
    have ht : Touches (fun _ => False) k₀ (k₀.modify k₀.currentProcess fun x =>
        { x with counter := x.counter - 1 }) :=
      touches_modify_quiet k₀ fun _ => ⟨rfl, rfl, rfl, rfl, rfl⟩
    generalize (k₀.modify k₀.currentProcess fun x =>
        { x with counter := x.counter - 1 }) = k₁ at hirq ht
    have hbase₁ : Base k₁ m.pc rings loose := by
      apply hbase₀.touches ht
      · exact fun _ hr => hr.elim
      · intro r hr
        rw [ht.state r not_false] at hr
        exact hr
      · intro hr
        unfold current at hr ⊢
        rw [ht.currentProcess, ht.state _ not_false]
        exact hr
    have hlate₁ : NoLateTimer k₁ m.pc := by
      apply hlate.congr
      · intro r hr
        rw [ht.state r not_false] at hr
        exact hr
      · exact fun r => ht.ttyBlock r not_false
      · exact ht.timerTicks
    obtain ⟨rings', hbase', hkeeps, hqueued, hoff⟩ := hbase₁.schedule hlate₁
      (by rw [ht.currentProcess]; exact hexit₀) (by rw [ht.currentProcess]; exact hlink₀) hirq
    have hkeeps₁ : KeepsDead k₀ k₁ := fun r _ => ht.state r not_false
    exact inv_staysDead_schedule hbase' hlinks ((hkeeps₀.trans hkeeps₁).trans hkeeps)
      hqueued hoff

/-- `wakeup`, called by a process or by the interrupt of a device. -/
theorem Inv.wakeup (h : Inv m) {addr : ℕ} {switch : Bool}
    (hsafe : m.Safe (.wakeup addr switch)) (hrun : m.exec (.wakeup addr switch) = .ok m') :
    Inv m' ∧ StaysDead m (.wakeup addr switch) m' := by
  obtain ⟨rings, loose, hbase, hlive⟩ := h
  obtain ⟨hlate, hlink, hexit⟩ := hsafe
  rw [done_eq hlink] at hbase
  unfold exec at hrun
  dsimp only at hrun
  rw [bind_eq_ok] at hrun
  obtain ⟨k', hwakeup, hrun⟩ := hrun
  simp only [Except.ok.injEq] at hrun
  rw [← hrun]
  unfold Kernel.wakeup at hwakeup
  rw [bind_eq_ok] at hwakeup
  obtain ⟨r, hloop, hwakeup⟩ := hwakeup
  obtain ⟨rings₁, hbase₁, hwakes⟩ := hbase.wakeupSlots _ hloop
  have hcur : r.1.currentProcess = m.kernel.currentProcess := hwakes.currentProcess
  have hkeeps₁ : KeepsDead m.kernel r.1 := by
    intro p hp
    rcases hwakes.state p with heq | ⟨hsleep, _⟩
    · exact heq
    · cases hstate : (m.kernel.processTable p).state <;>
        simp_all [ProcState.sleeping, ProcState.dead]
  have hlink₁ : (m.pc r.1.currentProcess).isLinking = false := by
    rw [hcur]
    exact hlink
  split at hwakeup
  next hswitch =>
    have hlate₁ : NoLateTimer r.1 m.pc := by
      apply NoLateTimer.congr (hlate hswitch.2)
      · intro p hp
        rw [hwakes.dead_iff] at hp
        exact hp
      · exact hwakes.ttyBlock
      · exact hwakes.timerTicks
    have hexit₁ : m.pc r.1.currentProcess ≠ .exiting := by
      rw [hcur]
      exact hexit hswitch.2
    obtain ⟨rings', hbase', hkeeps, hqueued, hoff⟩ :=
      hbase₁.schedule hlate₁ hexit₁ hlink₁ hwakeup
    exact inv_staysDead_schedule hbase' (fun p => (hbase₁.all_parked hexit₁ hlink₁ p).2)
      (hkeeps₁.trans hkeeps) hqueued hoff
  next =>
    simp only [Except.ok.injEq] at hwakeup
    rw [← hwakeup]
    constructor
    · refine ⟨rings₁, loose, ?_, ?_⟩
      · rw [done_eq (m := { m with kernel := r.1 }) hlink₁]
        exact hbase₁
      · intro hl
        unfold here at hl hlive
        rw [show ({ m with kernel := r.1 } : Machine).kernel.currentProcess =
          m.kernel.currentProcess from hcur] at hl
        have hqueued := hlive hl
        unfold current at hqueued ⊢
        rw [hcur]
        rcases hwakes.state m.kernel.currentProcess with heq | ⟨_, hrunnable⟩
        · rw [heq]
          exact hqueued
        · rw [hrunnable]
          rfl
    · apply staysDead_of_keepsDead hkeeps₁
      intro hswitch p q hp
      -- no dead process is on a ring, as the current one is not on its way out
      apply not_onQueue_of_off hbase₁ _ p q hp
      intro r' hr' hon
      obtain ⟨heq, hpc⟩ := hbase₁.dead_off r' hr' hon
      rw [heq, hcur] at hpc
      exact hexit hswitch hpc

theorem waitpidSlot_of_ne {skip wanted : Proc → Bool} {w : WaitScan} {p r : Slot}
    (hr : r ≠ p) :
    (waitpidSlot skip wanted w p).kernel.processTable r = w.kernel.processTable r := by
  unfold waitpidSlot
  dsimp only
  split
  · rfl
  · split
    · unfold setState
      rw [modify_processTable, if_neg hr]
    · rfl

/-- A process writes its own slot and keeps its state. -/
theorem inv_staysDead_own (h : Base m.kernel m.pc rings loose)
    (hlive : m.here.live = true → m.kernel.current.state.queued = true)
    (hlink : m.here.isLinking = false) (hs : m.schedules s = false)
    (ht : Touches (· = m.kernel.currentProcess) m.kernel k)
    (hstate : k.current.state = m.kernel.current.state) :
    Inv { m with kernel := k } ∧ StaysDead m s { m with kernel := k } := by
  have hsame : ∀ r, (k.processTable r).state = (m.kernel.processTable r).state := by
    intro r
    by_cases hr : r = m.kernel.currentProcess
    · unfold current at hstate
      rw [ht.currentProcess] at hstate
      rw [hr, hstate]
    · exact ht.state r hr
  have hbase : Base k m.pc rings loose := by
    apply h.touches ht
    · intro r hr
      rw [hr]
      exact h.current_free
    · intro r hr
      rw [hsame] at hr
      exact hr
    · intro hr
      rw [hstate]
      exact hr
  have hhere : ({ m with kernel := k } : Machine).here = m.here := by
    unfold here
    rw [ht.currentProcess]
  constructor
  · refine ⟨rings, loose, ?_, ?_⟩
    · rw [done_eq (by rw [hhere]; exact hlink)]
      exact hbase
    · intro hl
      rw [hhere] at hl
      rw [show ({ m with kernel := k } : Machine).kernel.current.state =
        m.kernel.current.state from hstate]
      exact hlive hl
  · apply staysDead_of_keepsDead
    · exact fun r _ => hsame r
    · intro hsched
      rw [hs] at hsched
      simp at hsched

/-- The body of the loops of `kernel_waitpid`. -/
theorem inv_staysDead_reap (h : Base m.kernel m.pc rings loose)
    (hlive : m.here.live = true → m.kernel.current.state.queued = true)
    (huser : m.here = .user) {pid : ℤ} {p : Slot}
    (hrun : m.exec (.call (.reap pid p)) = .ok m') :
    Inv m' ∧ StaysDead m (.call (.reap pid p)) m' := by
  have hqueued : m.kernel.current.state.queued = true := hlive (by rw [huser]; rfl)
  unfold exec at hrun
  rw [huser] at hrun
  simp only [Call.exec, bind, Except.bind, Except.ok.injEq] at hrun
  have hreaps := waitpidSlot_reaps (waitpidSkip pid) (m.kernel.waitpidWanted pid)
    ⟨m.kernel, 0, 0, 0, none⟩ p
  have hother : ∀ r ≠ p, (waitpidSlot (waitpidSkip pid) (m.kernel.waitpidWanted pid)
      ⟨m.kernel, 0, 0, 0, none⟩ p).kernel.processTable r = m.kernel.processTable r :=
    fun r hr => waitpidSlot_of_ne hr
  generalize hw : (waitpidSlot (waitpidSkip pid) (m.kernel.waitpidWanted pid)
    ⟨m.kernel, 0, 0, 0, none⟩ p).kernel = k at hrun hreaps hother
  dsimp only at hreaps
  have ht := hreaps.touches
  rw [← hrun]
  have hdead : ∀ r, (k.processTable r).state.dead = true →
      (m.kernel.processTable r).state.dead = true := by
    intro r hr
    rcases hreaps.state r with heq | ⟨hz, _, _⟩
    · rw [heq] at hr
      exact hr
    · rw [hz]
      rfl
  have hcurrent : k.current.state = m.kernel.current.state := by
    unfold current at hqueued ⊢
    rw [ht.currentProcess]
    rcases hreaps.state m.kernel.currentProcess with heq | ⟨hz, _, _⟩
    · exact heq
    · rw [hz] at hqueued
      simp [ProcState.queued] at hqueued
  have hbase : Base k m.pc rings loose := by
    apply h.touches ht _ hdead
    · rw [hcurrent]
      exact id
    · intro r hr hl
      rcases h.loose_state hl with hexited | hq
      · rw [hr] at hexited
        simp at hexited
      · rw [hr] at hq
        simp [ProcState.queued] at hq
  have hhere : ({ m with kernel := k } : Machine).here = m.here := by
    unfold here
    rw [ht.currentProcess]
  constructor
  · refine ⟨rings, loose, ?_, ?_⟩
    · rw [done_eq (by rw [hhere, huser]; rfl)]
      exact hbase
    · intro _
      rw [show ({ m with kernel := k } : Machine).kernel.current.state =
        m.kernel.current.state from hcurrent]
      exact hqueued
  · constructor
    · intro r hr
      by_cases hrp : r = p
      · subst r
        rcases hreaps.state p with heq | ⟨_, hexited, hppid⟩
        · left
          rw [heq, hr]
        · exact Or.inr ⟨hexited, ⟨pid, rfl⟩, hppid⟩
      · left
        rw [hother r hrp, hr]
    · intro r hr
      left
      rcases hreaps.state r with heq | ⟨hz, _, _⟩
      · rw [heq, hr]
      · rw [hz] at hr
        simp at hr
    · intro hsched
      simp [schedules] at hsched

theorem Inv.call (h : Inv m) {c : Call} (hsafe : m.Safe (.call c))
    (hrun : m.exec (.call c) = .ok m') : Inv m' ∧ StaysDead m (.call c) m' := by
  by_cases huser : m.here = .user
  · obtain ⟨rings, loose, hbase, hlive⟩ := h
    obtain ⟨hlate, _⟩ := hsafe
    have hlink : m.here.isLinking = false := by rw [huser]; rfl
    have hexit : m.here ≠ .exiting := by rw [huser]; simp
    rw [done_eq hlink] at hbase
    have hqueued : m.kernel.current.state.queued = true := hlive (by rw [huser]; rfl)
    have halive := not_dead_of_queued hqueued
    have hlinks := fun r => (hbase.all_parked hexit hlink r).2
    have hexec := hrun
    unfold exec at hrun
    rw [huser] at hrun
    dsimp only at hrun
    rw [bind_eq_ok] at hrun
    obtain ⟨k', hcall, hrun⟩ := hrun
    simp only [Except.ok.injEq] at hrun
    have hquiet : ∀ k, Touches (fun _ => False) m.kernel k → m.schedules (.call c) = false →
        (.ok k : Except Halt Kernel) = .ok k' → Inv m' ∧ StaysDead m (.call c) m' := by
      intro k ht hs heq
      simp only [Except.ok.injEq] at heq
      rw [← hrun, ← heq]
      exact inv_staysDead_touches hbase hlive hlink hs ht
    cases c with
    | sleep addr type =>
        rw [← hrun]
        simp only [Call.exec, Kernel.sleep] at hcall
        split at hcall
        · simp at hcall
        · split at hcall
          · simp at hcall
          next htype =>
            have ht : Touches (· = m.kernel.currentProcess) m.kernel
                (m.kernel.modify m.kernel.currentProcess fun x =>
                  { x with state := type, sleepingOn := some addr }) :=
              touches_modify m.kernel ⟨rfl, rfl, rfl⟩
            have hnew : type.dead = false := by
              cases type <;> simp_all [ProcState.sleeping, ProcState.dead]
            obtain ⟨rings', hbase', hkeeps, hq, hoff⟩ :=
              hbase.adjust_schedule (hlate (by simp [schedules, huser])) halive hlink ht
                (by simp [current, modify_processTable])
                (by simpa [current, modify_processTable] using hnew) hcall
            exact inv_staysDead_schedule hbase' hlinks hkeeps hq hoff
    | pause =>
        rw [← hrun]
        have ht : Touches (· = m.kernel.currentProcess) m.kernel
            (m.kernel.setState m.kernel.currentProcess .sleepInterruptible) :=
          touches_setState m.kernel _
        obtain ⟨rings', hbase', hkeeps, hq, hoff⟩ :=
          hbase.adjust_schedule (hlate (by simp [schedules, huser])) halive hlink ht
            (by simp [current, setState, modify_processTable])
            (by simp [current, setState, modify_processTable, ProcState.dead]) hcall
        exact inv_staysDead_schedule hbase' hlinks hkeeps hq hoff
    | schedule =>
        rw [← hrun]
        obtain ⟨rings', hbase', hkeeps, hq, hoff⟩ :=
          hbase.schedule (hlate (by simp [schedules, huser])) hexit hlink hcall
        exact inv_staysDead_schedule hbase' hlinks hkeeps hq hoff
    | alarm seconds => exact hquiet _ (kernelAlarm_touches _ seconds) rfl hcall
    | signal sig handler => exact hquiet _ (kernelSignal_touches _ sig handler) rfl hcall
    | send target sig => exact hquiet _ (sendSignal_touches _ target sig) rfl hcall
    | clearPending i =>
        have ht : Touches (fun _ => False) m.kernel
            (m.kernel.modify m.kernel.currentProcess fun x =>
              { x with sigpending := x.sigpending &&& ~~~(1#32 <<< i) }) :=
          touches_modify_quiet m.kernel fun _ => ⟨rfl, rfl, rfl, rfl, rfl⟩
        exact hquiet _ ht rfl hcall
    | reparent p => exact hquiet _ (reparentSlot_touches _ p) rfl hcall
    | reap pid p => exact inv_staysDead_reap hbase hlive huser hexec
    | ttySetTimer vtime =>
        simp only [Call.exec, Except.ok.injEq] at hcall
        rw [← hrun, ← hcall]
        have ht : Touches (· = m.kernel.currentProcess) m.kernel (m.kernel.ttySetTimer vtime) :=
          touches_modify m.kernel ⟨rfl, rfl, rfl⟩
        apply inv_staysDead_own hbase hlive hlink rfl ht
        simp [current, Kernel.ttySetTimer, modify_processTable]
    | ttyClearTimer =>
        simp only [Call.exec, Except.ok.injEq] at hcall
        rw [← hrun, ← hcall]
        have ht : Touches (· = m.kernel.currentProcess) m.kernel m.kernel.ttyClearTimer :=
          touches_modify m.kernel ⟨rfl, rfl, rfl⟩
        apply inv_staysDead_own hbase hlive hlink rfl ht
        simp [current, Kernel.ttyClearTimer, modify_processTable]
  · have hself : m' = m := by
      unfold exec at hrun
      cases hpc : m.here <;> simp_all
    rw [hself]
    apply inv_staysDead_self h
    unfold schedules
    cases hpc : m.here <;> simp_all

end Machine

end Yak.Process
