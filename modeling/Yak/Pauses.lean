import Yak.Bystanders
import Mathlib.Tactic

/-!
# `kernel_pause`

A process in `kernel_pause` looks like one which sleeps on what it has slept on before, until the
terminal timer that it has left behind runs out.  Without these leftovers only a signal ends the
pause.
-/

namespace Yak.Process

open LinkedRing

namespace Kernel

/-! ## Pauses -/

/-- The processes which are in `kernel_pause` during this operation. -/
def pausing (k : Kernel) (paused : Slot → Prop) (op : Op) (p : Slot) : Prop :=
  paused p ∨ (op = .pause ∧ p = k.currentProcess)

/-- In each operation the processes in `kernel_pause` are asleep up to its `schedule`, and behind
that still asleep, or they have a pending signal. -/
def EndsBySignal (k : Kernel) (paused : Slot → Prop) : List Op → Prop
  | [] => True
  | op :: ops => ∀ k₁ b, op.prepare k = .ok (k₁, b) →
      (∀ p, k.pausing paused op p → (k₁.processTable p).state = .sleepInterruptible) ∧
      ∀ k', finish k₁ b = .ok k' →
        (∀ p, k.pausing paused op p → (k'.processTable p).state = .sleepInterruptible ∨
          (k'.processTable p).sigpending ≠ 0) ∧
        k'.EndsBySignal (fun p => k.pausing paused op p ∧
          (k'.processTable p).state = .sleepInterruptible) ops

/-- A process which pauses has nothing left from an earlier sleep or timer. -/
def Op.Undisturbed (k : Kernel) : Op → Prop
  | .pause => k.current.sleepingOn = none ∧ k.current.ttyBlock = 0
  | _ => True

def UndisturbedRun (k : Kernel) : List Op → Prop
  | [] => True
  | op :: ops =>
      op.Undisturbed k ∧
        match op.exec k with
        | .ok k' => UndisturbedRun k' ops
        | .error _ => True

instance (k : Kernel) : (op : Op) → Decidable (op.Undisturbed k)
  | .pause => inferInstanceAs (Decidable (k.current.sleepingOn = none ∧ k.current.ttyBlock = 0))
  | .fork _ | .exit _ | .sleep _ _ | .wakeup _ _ | .nice _ | .alarm _ | .signal _ _
  | .kill _ _ | .deliver _ | .waitpid _ _ | .waitpidWoken | .ttySetTimer _
  | .ttyClearTimer | .tick | .schedule => .isTrue trivial

def decidableUndisturbedRun : (ops : List Op) → (k : Kernel) → Decidable (k.UndisturbedRun ops)
  | [], _ => .isTrue trivial
  | op :: ops, k =>
      match h : op.exec k with
      | .ok k' =>
          let _ := decidableUndisturbedRun ops k'
          decidable_of_iff (op.Undisturbed k ∧ k'.UndisturbedRun ops) (by rw [UndisturbedRun, h])
      | .error _ => decidable_of_iff (op.Undisturbed k) (by rw [UndisturbedRun, h]; simp)

instance (k : Kernel) (ops : List Op) : Decidable (k.UndisturbedRun ops) :=
  decidableUndisturbedRun ops k

/-- In `kernel_pause`, with nothing left from before. -/
structure Dozing (x : Proc) : Prop where
  state : x.state = .sleepInterruptible
  sleepingOn : x.sleepingOn = none
  ttyBlock : x.ttyBlock = 0

variable {k k' k₁ : Kernel} {p q : Slot} {op : Op} {b : Bool} {rings : ℕ → List Slot}
  {loose paused : Slot → Prop}

/-! ## What reaches a process in a pause -/

theorem dozing_bare {x : Proc} : Dozing x.bare ↔ Dozing x :=
  ⟨fun h => ⟨h.state, h.sleepingOn, h.ttyBlock⟩, fun h => ⟨h.state, h.sleepingOn, h.ttyBlock⟩⟩

/-- Nothing but `schedule` ends the pause. -/
theorem Meddled.dozing {x y : Proc} (h : Meddled x y) (hx : Dozing x) : Dozing y := by
  cases h with
  | signal | reparent => exact ⟨hx.state, hx.sleepingOn, hx.ttyBlock⟩
  | wakeup hsleeping haddr => exact (haddr hx.sleepingOn).elim
  | reap hzombie => exact ProcState.noConfusion (hx.state.symm.trans hzombie)
  | fork _ hexited => exact ProcState.noConfusion (hx.state.symm.trans hexited)

theorem Meddles.dozing (h : Meddles p k k') (hdozing : Dozing (k.processTable p)) :
    Dozing (k'.processTable p) :=
  dozing_bare.mp (steps_keep (r := Meddled) (P := Dozing) (fun _ _ => Meddled.dozing) h
    (dozing_bare.mpr hdozing))

/-- In a pause, or woken with a pending signal. -/
structure Answered (x : Proc) : Prop where
  asleep : x.state = .sleepInterruptible ∨ x.sigpending ≠ 0
  sleepingOn : x.sleepingOn = none
  ttyBlock : x.ttyBlock = 0

theorem or_ne_zero {x bits : BitVec 32} (h : x ≠ 0) : x ||| bits ≠ 0 := by
  intro hzero
  refine h (BitVec.eq_of_getLsbD_eq fun i hi => ?_)
  have hbit : (x ||| bits).getLsbD i = (0#32).getLsbD i := by rw [hzero]; rfl
  rw [BitVec.getLsbD_or, BitVec.getLsbD_zero, Bool.or_eq_false_iff] at hbit
  exact hbit.1.trans BitVec.getLsbD_zero.symm

theorem Roused.answered {x y : Proc} (h : Roused x y) (hx : Answered x) : Answered y := by
  cases h with
  | alarm bits => exact ⟨hx.asleep.imp_right or_ne_zero, hx.sleepingOn, hx.ttyBlock⟩
  | timer hset => exact (hset hx.ttyBlock).elim
  | signal hasleep hpending => exact ⟨Or.inr hpending, hx.sleepingOn, hx.ttyBlock⟩

theorem Rouses.answered (h : Rouses p k k') (hdozing : Dozing (k.processTable p)) :
    Answered (k'.processTable p).bare :=
  steps_keep (r := Roused) (P := Answered) (fun _ _ => Roused.answered) h
    ⟨Or.inl hdozing.state, hdozing.sleepingOn, hdozing.ttyBlock⟩

/-- `schedule` does not run a process in a pause unless a signal is pending. -/
theorem Settled.schedule_dozing (h : Settled k rings loose) (hquiet : Quiet k loose)
    (hrun : k.schedule = .ok k') (hdozing : Dozing (k.processTable p)) :
    Answered (k'.processTable p) := by
  obtain ⟨k₁, rings₁, hloop, h₁, hadvance⟩ := h.linked.scheduleLoop hquiet (List.finRange nrProc)
  unfold Kernel.schedule at hrun
  rw [hloop] at hrun
  obtain ⟨c, hc, rfl⟩ := h₁.pickNext hrun
  have hanswered := (scheduleLoop_rouses hloop p).answered hdozing
  have hoff : ¬ OnRing rings p := by
    rw [h.onRing_iff, hdozing.state]
    exact Bool.false_ne_true
  rcases hanswered.asleep with hasleep | hpending
  · have hstate : (k₁.processTable p).state = .sleepInterruptible := hasleep
    have hne : p ≠ c := by
      rintro rfl
      rcases hadvance.slot p with ⟨-, hring⟩ | ⟨hrunnable, -⟩
      · exact hoff (hring.mp hc)
      · rw [hstate] at hrunnable
        cases hrunnable
    rw [run_processTable, if_neg hne]
    exact ⟨Or.inl hstate, hanswered.sleepingOn, hanswered.ttyBlock⟩
  · rw [run_processTable]
    split <;> exact ⟨Or.inr hpending, hanswered.sleepingOn, hanswered.ttyBlock⟩

/-! ## The queues when `schedule` is called -/

/-- The current process is written, and the queues are adjusted. -/
theorem Settled.adjusted {k₂ : Kernel} (h : Settled k rings loose) (hquiet : Quiet k loose)
    (hp : ¬ loose p) (ht : Touches (· = p) k k₁) (hrun : k₁.adjustProcQueues p = .ok k₂) :
    ∃ rings₂, Settled k₂ rings₂ loose ∧ Quiet k₂ loose := by
  obtain ⟨k₃, rings₃, hadjust, h₃, hcore⟩ := h.adjust ht hp
  obtain rfl := Except.ok.inj (hadjust.symm.trans hrun)
  exact ⟨rings₃, h₃, hcore.quiet (ht.quiet (fun r hr => hr ▸ hp) hquiet)⟩

theorem Settled.fallAsleep (h : Settled k rings loose) (hquiet : Quiet k loose)
    (hp : ¬ loose k.currentProcess) {addr : ℕ} {type : ProcState}
    (hrun : k.fallAsleep addr type = .ok k₁) : ∃ rings₁, Settled k₁ rings₁ loose ∧ Quiet k₁ loose := by
  unfold Kernel.fallAsleep at hrun
  split at hrun
  · cases hrun
  · split at hrun
    · cases hrun
    · exact h.adjusted hquiet hp (touches_modify k ⟨rfl, rfl, rfl⟩) hrun

theorem Settled.endProcess (h : Settled k rings loose) (hquiet : Quiet k loose)
    (hp : ¬ loose k.currentProcess) {status : ℕ} (hrun : k.endProcess status = .ok k₁) :
    ∃ rings₁, Settled k₁ rings₁ loose ∧ Quiet k₁ loose := by
  obtain ⟨k₂, hmark, hadjust⟩ := bind_eq_ok.mp hrun
  have ht := exitMark_touches hmark
  rw [ht.currentProcess] at hadjust
  exact h.adjusted hquiet hp ht hadjust

theorem Settled.stopProcess (h : Settled k rings loose) (hquiet : Quiet k loose)
    (hp : ¬ loose k.currentProcess) (hrun : k.stopProcess = .ok k₁) :
    ∃ rings₁, Settled k₁ rings₁ loose ∧ Quiet k₁ loose := by
  obtain ⟨r, hkill, hadjust⟩ := bind_eq_ok.mp hrun
  have ht : Touches (· = k.currentProcess) k r.1 :=
    (touches_setState k .stopped).trans (kernelKill_touches hkill)
  rw [ht.currentProcess] at hadjust
  exact h.adjusted hquiet hp ht hadjust

/-- A round of `signal_handler` which calls `schedule`. -/
theorem Settled.prepareSignal (h : Settled k rings loose) (hquiet : Quiet k loose)
    (hp : ¬ loose k.currentProcess) {i : ℕ} (hrun : k.prepareSignal i = .ok (k₁, b)) :
    (b = false ∧ Op.exec k (.deliver i) = .ok k₁) ∨
      ∃ rings₁, Settled k₁ rings₁ loose ∧ Quiet k₁ loose := by
  have hround : (k.deliverSignal i).map (·.1, false) = .ok (k₁, b) →
      b = false ∧ Op.exec k (.deliver i) = .ok k₁ := by
    intro hmap
    change b = false ∧ (k.deliverSignal i).map Prod.fst = .ok k₁
    cases hdeliver : k.deliverSignal i with
    | error e =>
        rw [hdeliver] at hmap
        cases hmap
    | ok r =>
        rw [hdeliver] at hmap
        obtain ⟨rfl, rfl⟩ := Prod.mk.inj (Except.ok.inj hmap)
        exact ⟨rfl, rfl⟩
  have ht : Touches (fun _ => False) k (k.modify k.currentProcess fun x =>
      { x with sigpending := x.sigpending &&& ~~~(1#32 <<< i) }) :=
    touches_modify_quiet k fun _ => ⟨rfl, rfl, rfl, rfl, rfl⟩
  have hcleared := h.touches ht fun _ hr => hr.elim
  have hquiet' := ht.quiet (fun _ hr => hr.elim) hquiet
  unfold Kernel.prepareSignal at hrun
  dsimp only at hrun
  split at hrun
  next =>
    cases haction : defAction i with
    | abnormal | terminate =>
        rw [haction] at hrun
        obtain ⟨hend, -⟩ := map_flag_eq_ok hrun
        exact Or.inr (hcleared.endProcess hquiet' hp hend)
    | stop =>
        rw [haction] at hrun
        obtain ⟨hstop, -⟩ := map_flag_eq_ok hrun
        exact Or.inr (hcleared.stopProcess hquiet' hp hstop)
    | ignore | «continue» =>
        rw [haction] at hrun
        exact Or.inl (hround hrun)
  next => exact Or.inl (hround hrun)

/-- A successful fork up to `schedule`. -/
theorem Settled.forked (h : Settled k rings loose) (hquiet : Quiet k loose) {c : Slot} {n : ℕ}
    (hexited : (k.processTable c).state = .exited)
    (hrun : ((forkCopy { k with lastPid := n } c).forkBuild c).adjustProcQueues c = .ok k₁) :
    ∃ rings₁, Settled k₁ rings₁ (fun r => loose r ∧ r ≠ c) ∧
      Quiet k₁ fun r => loose r ∧ r ≠ c := by
  obtain ⟨k₂, rings₂, hadjust, h₂, hcore⟩ := (h.forkBuild hexited n).adjust fun hl => hl.2 rfl
  obtain rfl := Except.ok.inj (hadjust.symm.trans hrun)
  refine ⟨rings₂, h₂, hcore.quiet ?_⟩
  intro r hr
  have hslot := hquiet r hr.1
  unfold ttyExpired at hslot ⊢
  unfold Kernel.forkBuild forkCopy
  rw [modify_processTable, modify_processTable, if_neg hr.2, if_neg hr.2]
  exact hslot

theorem Sane.prepare (h : Sane k) (hsafe : op.Safe k) (hrun : op.prepare k = .ok (k₁, b)) :
    ∃ rings loose, Settled k₁ rings loose ∧ (b = true → Quiet k₁ loose) := by
  have hquick : b = false ∧ op.exec k = .ok k₁ →
      ∃ rings loose, Settled k₁ rings loose ∧ (b = true → Quiet k₁ loose) := by
    rintro ⟨rfl, hexec⟩
    obtain ⟨rings, loose, hsettled, -⟩ := h.step hsafe hexec
    exact ⟨rings, loose, hsettled, fun hb => (Bool.false_ne_true hb).elim⟩
  have hready : ∀ {loose₁ : Slot → Prop},
      (∃ rings₁, Settled k₁ rings₁ loose₁ ∧ Quiet k₁ loose₁) →
      ∃ rings loose, Settled k₁ rings loose ∧ (b = true → Quiet k₁ loose) :=
    fun ⟨rings₁, h₁, hquiet₁⟩ => ⟨rings₁, _, h₁, fun _ => hquiet₁⟩
  have hflag : ∀ {x : Except Halt Kernel}, x.map (·, false) = .ok (k₁, b) →
      b = false ∧ x = .ok k₁ :=
    fun hmap => (map_flag_eq_ok hmap).symm
  obtain ⟨rings, loose, hsettled, hcurrent⟩ := h
  have hp : ¬ loose k.currentProcess := hsettled.not_loose (ne_exited_of_queued hcurrent)
  cases op with
  | fork archOk =>
      cases archOk with
      | true =>
          have hquiet := hsettled.quiet hsafe.2
          cases hfree : k.getFreeProc with
          | none =>
              simp only [Op.prepare, hfree] at hrun
              obtain ⟨rfl, -⟩ := Prod.mk.inj (Except.ok.inj hrun)
              exact hready ⟨rings, hsettled, hquiet⟩
          | some found =>
              obtain ⟨c, k₂⟩ := found
              obtain ⟨hexited, rfl⟩ := getFreeProc_eq hfree
              simp only [Op.prepare, hfree] at hrun
              obtain ⟨hadjust, -⟩ := map_flag_eq_ok hrun
              exact hready (hsettled.forked hquiet hexited hadjust)
      | false => exact hquick (hflag (x := k.kernelFork false) hrun)
  | exit status =>
      simp only [Op.prepare] at hrun
      obtain ⟨hend, -⟩ := map_flag_eq_ok hrun
      exact hready (hsettled.endProcess (hsettled.quiet hsafe.2) hp hend)
  | sleep addr type =>
      obtain ⟨hsleep, -⟩ := map_flag_eq_ok (x := k.fallAsleep addr type) hrun
      exact hready (hsettled.fallAsleep (hsettled.quiet hsafe.2) hp hsleep)
  | wakeup addr switch =>
      have hwake : k.wakeAll addr switch = .ok (k₁, b) := hrun
      unfold wakeAll at hwake
      cases hloop : (List.finRange nrProc).foldlM (wakeupSlot addr) (k, false) with
      | error e =>
          rw [hloop] at hwake
          cases hwake
      | ok r =>
          rw [hloop] at hwake
          obtain ⟨rfl, -⟩ := Prod.mk.inj (Except.ok.inj hwake)
          obtain ⟨rings₁, h₁, hquiet₁, -⟩ :=
            hsettled.wakeupSlots (hsettled.quiet hsafe.2) hcurrent _ hloop
          exact hready ⟨rings₁, h₁, hquiet₁⟩
  | pause =>
      obtain ⟨hadjust, -⟩ := map_flag_eq_ok hrun
      exact hready (hsettled.adjusted (hsettled.quiet hsafe.2) hp (touches_setState k _) hadjust)
  | deliver i =>
      have hround : k.prepareSignal i = .ok (k₁, b) := hrun
      rcases hsettled.prepareSignal (hsettled.quiet hsafe.2) hp hround with hexec | hscheduled
      · exact hquick hexec
      · exact hready hscheduled
  | waitpid pid wnohang =>
      have hwait : k.reapOrSleep pid wnohang = .ok (k₁, b) := hrun
      obtain ⟨h₁, hquiet₁, hcurrent₁⟩ :=
        hsettled.waitpidScan (hsettled.quiet hsafe.2) hcurrent pid
      unfold reapOrSleep at hwait
      dsimp only at hwait
      generalize k.waitpidScan pid = w at hwait h₁ hquiet₁ hcurrent₁
      split at hwait
      · obtain ⟨rfl, -⟩ := Prod.mk.inj (Except.ok.inj hwait)
        exact hready ⟨rings, h₁, hquiet₁⟩
      · obtain ⟨hsleep, -⟩ := map_flag_eq_ok hwait
        exact hready (h₁.fallAsleep hquiet₁ (h₁.not_loose (ne_exited_of_queued hcurrent₁)) hsleep)
  | tick =>
      obtain ⟨hcharge, -⟩ := map_flag_eq_ok hrun
      have h₀ := hsettled.setTicks ((k.timerTicks + 1) % 2 ^ 32)
      obtain ⟨rings₁, h₁, hquiet₁, -⟩ := h₀.chargeQuantum hp (h₀.quiet hsafe.2) hcharge
      exact hready ⟨rings₁, h₁, hquiet₁⟩
  | schedule =>
      obtain ⟨rfl, -⟩ := Prod.mk.inj (Except.ok.inj hrun)
      exact hready ⟨rings, hsettled, hsettled.quiet hsafe.2⟩
  | nice inc => exact hquick (hflag (x := k.kernelNice inc) hrun)
  | alarm seconds => exact hquick (hflag (x := .ok (k.kernelAlarm seconds).1) hrun)
  | signal sig handler => exact hquick (hflag (x := .ok (k.kernelSignal sig handler)) hrun)
  | kill pid sig => exact hquick (hflag (x := (k.kernelKill pid sig).map Prod.fst) hrun)
  | waitpidWoken => exact hquick (hflag (x := .ok k.waitpidWoken) hrun)
  | ttySetTimer vtime => exact hquick (hflag (x := .ok (k.ttySetTimer vtime)) hrun)
  | ttyClearTimer => exact hquick (hflag (x := .ok k.ttyClearTimer) hrun)

/-! ## Runs -/

/-- A process which begins to pause, with nothing left from before. -/
theorem pause_dozing (hundisturbed : k.current.sleepingOn = none ∧ k.current.ttyBlock = 0)
    (hrun : Op.prepare k .pause = .ok (k₁, b)) : Dozing (k₁.processTable k.currentProcess) := by
  obtain ⟨hadjust, -⟩ := map_flag_eq_ok hrun
  have hbare := (adjustProcQueues_sameCore hadjust).bare k.currentProcess
  unfold setState at hbare
  rw [modify_processTable, if_pos rfl] at hbare
  rw [← dozing_bare, hbare]
  exact ⟨rfl, hundisturbed.1, hundisturbed.2⟩

/-- Up to the `schedule` of an operation nobody is woken from a pause. -/
theorem Sane.prepare_dozing (h : Sane k) (hpaused : ∀ p, paused p → Dozing (k.processTable p))
    (hundisturbed : op.Undisturbed k) (hrun : op.prepare k = .ok (k₁, b))
    (hp : k.pausing paused op p) : Dozing (k₁.processTable p) := by
  rcases hp with hp | ⟨rfl, rfl⟩
  · obtain ⟨rings, loose, -, hcurrent⟩ := h
    have hdozing := hpaused p hp
    have hne : p ≠ k.currentProcess := by
      rintro rfl
      unfold current at hcurrent
      rw [hdozing.state] at hcurrent
      cases hcurrent
    exact (prepare_meddles hne hrun).dozing hdozing
  · exact pause_dozing hundisturbed hrun

theorem Sane.endsBySignal (h : Sane k) (hpaused : ∀ p, paused p → Dozing (k.processTable p))
    (ops : List Op) (hsafe : k.SafeRun ops) (hundisturbed : k.UndisturbedRun ops) :
    k.EndsBySignal paused ops := by
  induction ops generalizing k paused with
  | nil => trivial
  | cons op ops ih =>
      intro k₁ b hprepare
      have hop := hundisturbed.1
      have hdozing : ∀ p, k.pausing paused op p → Dozing (k₁.processTable p) :=
        fun p => h.prepare_dozing hpaused hop hprepare
      refine ⟨fun p hp => (hdozing p hp).state, fun k' hfinish => ?_⟩
      have hexec : op.exec k = .ok k' := by
        rw [← prepare_finish, hprepare]
        exact hfinish
      rw [SafeRun, hexec] at hsafe
      rw [UndisturbedRun, hexec] at hundisturbed
      have hanswered : ∀ p, k.pausing paused op p → Answered (k'.processTable p) := by
        intro p hp
        obtain ⟨rings, loose, hsettled, hquiet⟩ := h.prepare hsafe.1 hprepare
        cases b with
        | true => exact hsettled.schedule_dozing (hquiet rfl) hfinish (hdozing p hp)
        | false =>
            obtain rfl := Except.ok.inj hfinish
            have hp₁ := hdozing p hp
            exact ⟨Or.inl hp₁.state, hp₁.sleepingOn, hp₁.ttyBlock⟩
      refine ⟨fun p hp => (hanswered p hp).asleep, ?_⟩
      refine ih (h.step hsafe.1 hexec) ?_ hsafe.2 hundisturbed.2
      rintro p ⟨hp, hasleep⟩
      exact ⟨hasleep, (hanswered p hp).sleepingOn, (hanswered p hp).ttyBlock⟩

/-- In a run in which each process that pauses has nothing left from before, and the run queues
stay in order, only a signal ends a pause. -/
theorem endsBySignal_of_undisturbed (ops : List Op) (hsafe : processesInit.SafeRun ops)
    (hundisturbed : processesInit.UndisturbedRun ops) :
    processesInit.EndsBySignal (fun _ => False) ops :=
  processesInit_sane.endsBySignal (fun _ hp => hp.elim) ops hsafe hundisturbed

/-- A process pauses, and is woken by a signal of its child. -/
theorem endsBySignal_of_undisturbed_child : processesInit.EndsBySignal (fun _ => False)
    [.fork true, .fork true, .pause, .kill 1 sigchld, .tick, .exit 0] :=
  endsBySignal_of_undisturbed _ (by decide +kernel) (by decide +kernel)

/-! ## Pauses which end without a signal -/

theorem EndsBySignal.drop {pre ops : List Op} (h : k.EndsBySignal paused (pre ++ ops))
    (hrun : k.exec pre = .ok k') : ∃ paused', k'.EndsBySignal paused' ops := by
  unfold exec at hrun
  induction pre generalizing k paused with
  | nil =>
      obtain rfl := Except.ok.inj hrun
      exact ⟨paused, h⟩
  | cons op pre ih =>
      rw [List.foldlM_cons] at hrun
      obtain ⟨k₁, hop, hrest⟩ := bind_eq_ok.mp hrun
      obtain ⟨k₂, b, hprepare, hfinish⟩ := exec_prepare hop
      exact ih ((h k₂ b hprepare).2 k₁ hfinish).2 hrest

/-- The process that pauses is woken in the operation after that only if a signal is pending. -/
theorem EndsBySignal.pause {op : Op} (h : k.EndsBySignal paused [.pause, op])
    (hpause : Op.exec k .pause = .ok k₁) (hop : op.exec k₁ = .ok k')
    (hasleep : (k₁.processTable k.currentProcess).state = .sleepInterruptible) :
    (k'.processTable k.currentProcess).state = .sleepInterruptible ∨
      (k'.processTable k.currentProcess).sigpending ≠ 0 := by
  obtain ⟨k₂, b, hprepare, hfinish⟩ := exec_prepare hpause
  obtain ⟨k₃, b', hprepare', hfinish'⟩ := exec_prepare hop
  have hrest := ((h k₂ b hprepare).2 k₁ hfinish).2
  exact ((hrest k₃ b' hprepare').2 k' hfinish').1 k.currentProcess
    (Or.inl ⟨Or.inr ⟨rfl, rfl⟩, hasleep⟩)

/-- A run, and a pause which ends in the next operation without a signal. -/
def wokenWithout (pre : List Op) (op : Op) : Except Halt Bool := do
  let k ← processesInit.exec pre
  let k₁ ← k.kernelPause
  let k' ← op.exec k₁
  .ok ((k₁.processTable k.currentProcess).state = .sleepInterruptible ∧
    (k'.processTable k.currentProcess).state = .runnable ∧
    (k'.processTable k.currentProcess).sigpending = 0)

theorem not_endsBySignal_of_wokenWithout {pre : List Op} {op : Op}
    (h : wokenWithout pre op = .ok true) :
    ¬ processesInit.EndsBySignal (fun _ => False) (pre ++ [.pause, op]) := by
  obtain ⟨k, hpre, h₁⟩ := bind_eq_ok.mp h
  obtain ⟨k₁, hpause, h₂⟩ := bind_eq_ok.mp h₁
  obtain ⟨k', hop, h₃⟩ := bind_eq_ok.mp h₂
  obtain ⟨hasleep, hrunnable, hclear⟩ := of_decide_eq_true (Except.ok.inj h₃)
  intro hends
  obtain ⟨paused, hlast⟩ := hends.drop hpre
  rcases hlast.pause hpause hop hasleep with hstill | hpending
  · rw [hrunnable] at hstill
    cases hstill
  · exact hpending hclear

/-- Process 1 has set a terminal timer which it has not cleared, and its pause ends when that runs
out. -/
def leftTimer : List Op := [.fork true, .fork true, .ttySetTimer 1] ++ List.replicate 10 .tick

/-- Process 1 was woken by a signal from a sleep at the address 77, and its pause ends with a wakeup
of that address. -/
def leftChannel : List Op :=
  [.fork true, .fork true, .sleep 77 .sleepInterruptible, .kill 1 sigchld,
    .sleep 78 .sleepInterruptible, .deliver (sigchld - 1)]

theorem not_endsBySignal :
    (processesInit.SafeRun (leftTimer ++ [.pause, .tick]) ∧
      ¬ processesInit.EndsBySignal (fun _ => False) (leftTimer ++ [.pause, .tick])) ∧
    (processesInit.SafeRun (leftChannel ++ [.pause, .wakeup 77 false]) ∧
      ¬ processesInit.EndsBySignal (fun _ => False)
        (leftChannel ++ [.pause, .wakeup 77 false])) := by
  constructor
  · exact ⟨by decide +kernel, not_endsBySignal_of_wokenWithout (by decide +kernel)⟩
  · exact ⟨by decide +kernel, not_endsBySignal_of_wokenWithout (by decide +kernel)⟩

end Kernel

end Yak.Process
