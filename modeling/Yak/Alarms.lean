import Yak.JobControl
import Mathlib.Tactic

/-!
# Alarms

`kernel_alarm` takes the old alarm for a time also where it says that there is none, and arms an
alarm for the present tick where it should cancel.  The runs here are those of calls of
`kernel_alarm` by any processes, ticks of the timer, calls of `schedule`, and processes which take
a pending `SIGALRM`, as long as the tick count does not wrap around.
-/

namespace Yak.Process

/-! ## The reference -/

/-- For each process the tick after which its alarm goes off, if one is set, and whether
`SIGALRM` is pending. -/
structure AlarmClock where
  armed : Slot → Option ℕ
  pending : Slot → Bool

namespace AlarmClock

/-- No alarm is set, and none has gone off. -/
def off : AlarmClock where
  armed _ := none
  pending _ := false

/-- The whole seconds that are left at the tick `t`. -/
def left (c : AlarmClock) (p : Slot) (t : ℕ) : ℕ :=
  match c.armed p with
  | none => 0
  | some d => (d - t) / hz

/-- A call for this number of seconds at the tick `t`. -/
def set (c : AlarmClock) (p : Slot) (t seconds : ℕ) : AlarmClock :=
  { c with
    armed := Function.update c.armed p
      (if seconds = 0 then none else some (t + seconds * hz)) }

theorem set_armed_self (c : AlarmClock) (p : Slot) (t seconds : ℕ) :
    (c.set p t seconds).armed p = if seconds = 0 then none else some (t + seconds * hz) :=
  Function.update_self ..

theorem set_armed_of_ne (c : AlarmClock) {p q : Slot} (h : q ≠ p) (t seconds : ℕ) :
    (c.set p t seconds).armed q = c.armed q :=
  Function.update_of_ne h ..

/-- More ticks than asked for have passed. -/
def due (c : AlarmClock) (p : Slot) (t : ℕ) : Bool := (c.armed p).any (· < t)

/-- All alarms that are due go off. -/
def goOff (c : AlarmClock) (t : ℕ) : AlarmClock where
  armed p := if c.due p t then none else c.armed p
  pending p := c.pending p || c.due p t

def take (c : AlarmClock) (p : Slot) : AlarmClock :=
  { c with pending := Function.update c.pending p false }

end AlarmClock

namespace Kernel

/-! ## Runs -/

inductive AlarmEvent where
  /-- The current process calls `kernel_alarm`. -/
  | alarm (seconds : ℕ)
  | ticks (n : ℕ)
  | schedule
  /-- The current process takes `SIGALRM`. -/
  | taken

def pendingAlarm (k : Kernel) (p : Slot) : Bool :=
  (k.processTable p).sigpending.getLsbD (sigalrm - 1)

/-- The state after an event, and what `kernel_alarm` returns. -/
def alarmEvent (k : Kernel) : AlarmEvent → Option (Kernel × Option ℕ)
  | .alarm seconds =>
      if k.timerTicks + seconds * hz < 2 ^ 32 then
        some ((k.kernelAlarm seconds).1, some (k.kernelAlarm seconds).2)
      else none
  | .ticks n =>
      if k.timerTicks + n < 2 ^ 32 then some ({ k with timerTicks := k.timerTicks + n }, none)
      else none
  | .schedule =>
      match k.schedule with
      | .ok k' => some (k', none)
      | .error _ => none
  | .taken =>
      some (k.modify k.currentProcess fun x =>
        { x with sigpending := x.sigpending &&& ~~~(1#32 <<< (sigalrm - 1)) }, none)

/-- The reference after an event in this state, and what the call should return. -/
def expected (k : Kernel) (c : AlarmClock) : AlarmEvent → AlarmClock × Option ℕ
  | .alarm seconds =>
      (c.set k.currentProcess k.timerTicks seconds, some (c.left k.currentProcess k.timerTicks))
  | .ticks _ => (c, none)
  | .schedule => (c.goOff k.timerTicks, none)
  | .taken => (c.take k.currentProcess, none)

/-- The same alarms are set, and `SIGALRM` is pending for the same processes. -/
structure Agrees (k : Kernel) (c : AlarmClock) : Prop where
  alarm : ∀ p, (k.processTable p).alarm = (c.armed p).getD 0
  armed : ∀ p d, c.armed p = some d → 0 < d ∧ d < 2 ^ 32
  pending : ∀ p, k.pendingAlarm p = c.pending p

/-- Each call returns what it should, and after each event the alarms are as they should be. -/
def KeepsTime (k : Kernel) (c : AlarmClock) : List AlarmEvent → Prop
  | [] => True
  | ev :: evs => ∀ k' r, k.alarmEvent ev = some (k', r) →
      r = (k.expected c ev).2 ∧ k'.Agrees (k.expected c ev).1 ∧
        k'.KeepsTime (k.expected c ev).1 evs

/-- A call of `kernel_alarm` is not made to cancel, but at the tick 0, and finds an alarm that is
not overdue, or one for which the difference to the present tick is less than a second. -/
def Punctual (k : Kernel) : AlarmEvent → Prop
  | .alarm seconds => (seconds ≠ 0 ∨ k.timerTicks = 0) ∧
      ((k.current.alarm ≠ 0 ∧ k.timerTicks ≤ k.current.alarm) ∨
        (k.current.alarm + 2 ^ 32 - k.timerTicks) % 2 ^ 32 < hz)
  | _ => True

def PunctualRun (k : Kernel) : List AlarmEvent → Prop
  | [] => True
  | ev :: evs => ∀ k' r, k.alarmEvent ev = some (k', r) → k.Punctual ev ∧ k'.PunctualRun evs

variable {k k' : Kernel} {p : Slot} {c : AlarmClock} {ev : AlarmEvent} {r : Option ℕ}

/-! ## `schedule` -/

theorem alarm_of_bare {x y : Proc} (h : x.bare = y.bare) : x.alarm = y.alarm := by
  have halarm := congrArg Proc.alarm h
  exact halarm

theorem scheduleSlot_alarm (h : k.scheduleSlot p = .ok k') :
    (k'.processTable p).alarm = if k.alarmExpired p then 0 else (k.processTable p).alarm := by
  unfold scheduleSlot at h
  obtain ⟨k₁, hexpire, hwake⟩ := bind_eq_ok.mp h
  have hraised : ((k.raiseAlarm p).processTable p).alarm =
      if k.alarmExpired p then 0 else (k.processTable p).alarm := by
    unfold raiseAlarm
    split
    · rw [modify_processTable, if_pos rfl]
    · rfl
  have hrunnable : ∀ {k k' : Kernel}, (k.setState p .runnable).adjustProcQueues p = .ok k' →
      (k'.processTable p).alarm = (k.processTable p).alarm := by
    intro k k' hadj
    have hbare := runnable_bare hadj p
    rw [if_pos rfl] at hbare
    have hsame := alarm_of_bare hbare
    exact hsame
  have hexpired : (k₁.processTable p).alarm = ((k.raiseAlarm p).processTable p).alarm := by
    unfold expireTty at hexpire
    split at hexpire
    · obtain ⟨k₂, hadj, hk₁⟩ := bind_eq_ok.mp hexpire
      rw [← Except.ok.inj hk₁, modify_processTable, if_pos rfl]
      exact hrunnable hadj
    · rw [← Except.ok.inj hexpire]
  rw [← hraised, ← hexpired]
  unfold wakeOnSignal at hwake
  split at hwake
  · exact hrunnable hwake
  · rw [← Except.ok.inj hwake]

theorem schedule_alarm (h : k.schedule = .ok k') (p : Slot) :
    (k'.processTable p).alarm = (if k.alarmExpired p then 0 else (k.processTable p).alarm) ∧
      k'.pendingAlarm p = (k.pendingAlarm p || k.alarmExpired p) := by
  unfold schedule at h
  obtain ⟨k₂, hloop, hpick⟩ := bind_eq_ok.mp h
  obtain ⟨k₀, k₁, hbare, hticks, hturn, hlast⟩ :=
    scheduleLoop_slot _ (List.nodup_finRange nrProc) (List.mem_finRange p) hloop
  have hexpired : k₀.alarmExpired p = k.alarmExpired p := by
    unfold alarmExpired
    rw [alarm_of_bare hbare, hticks]
  have hpicked : (k'.processTable p).alarm = (k₂.processTable p).alarm := by
    unfold pickNext at hpick
    split at hpick
    next c _ =>
      rw [← Except.ok.inj hpick]
      change ((k₂.setState c .running).processTable p).alarm = _
      unfold setState
      rw [modify_processTable]
      split <;> rfl
    next => cases hpick
  constructor
  · rw [hpicked, alarm_of_bare hlast, scheduleSlot_alarm hturn, hexpired, alarm_of_bare hbare]
  · unfold pendingAlarm
    rw [(pickNext_slot hpick p).2, sigpending_of_bare hlast, (turn_scheduleSlot hturn).pending,
      sigpending_of_bare hbare]
    unfold alarmBit
    rw [decide_eq_true rfl, Bool.and_true, hexpired]

theorem schedule_timerTicks (h : k.schedule = .ok k') : k'.timerTicks = k.timerTicks := by
  unfold schedule at h
  obtain ⟨k₂, hloop, hpick⟩ := bind_eq_ok.mp h
  have hslots : k₂.timerTicks = k.timerTicks := by
    refine foldlM_invariant (fun k₁ => k₁.timerTicks = k.timerTicks) ?_ rfl hloop
    intro k₁ q k₃ _ hsame hturn
    rw [(turn_scheduleSlot hturn).ticks, hsame]
  unfold pickNext at hpick
  cases hfind : queueOrder.findSome? k₂.processQueues with
  | none =>
      rw [hfind] at hpick
      cases hpick
  | some c =>
      rw [hfind] at hpick
      rw [← Except.ok.inj hpick, ← hslots]
      rfl

/-! ## One event -/

theorem alarmEvent_alarm {seconds : ℕ} (h : k.alarmEvent (.alarm seconds) = some (k', r)) :
    k.timerTicks + seconds * hz < 2 ^ 32 ∧ k' = (k.kernelAlarm seconds).1 ∧
      r = some (k.kernelAlarm seconds).2 := by
  change (if _ then _ else _) = _ at h
  by_cases hlt : k.timerTicks + seconds * hz < 2 ^ 32
  · rw [if_pos hlt] at h
    obtain ⟨hk, hr⟩ := Prod.mk.inj (Option.some.inj h)
    exact ⟨hlt, hk.symm, hr.symm⟩
  · rw [if_neg hlt] at h
    cases h

theorem alarmEvent_ticks_eq {n : ℕ} (h : k.alarmEvent (.ticks n) = some (k', r)) :
    k.timerTicks + n < 2 ^ 32 ∧ k' = { k with timerTicks := k.timerTicks + n } ∧ r = none := by
  change (if _ then _ else _) = _ at h
  by_cases hlt : k.timerTicks + n < 2 ^ 32
  · rw [if_pos hlt] at h
    obtain ⟨hk, hr⟩ := Prod.mk.inj (Option.some.inj h)
    exact ⟨hlt, hk.symm, hr.symm⟩
  · rw [if_neg hlt] at h
    cases h

theorem alarmEvent_schedule (h : k.alarmEvent .schedule = some (k', r)) :
    k.schedule = .ok k' ∧ r = none := by
  unfold alarmEvent at h
  cases hok : k.schedule with
  | error e =>
      rw [hok] at h
      cases h
  | ok k₁ =>
      rw [hok] at h
      obtain ⟨hk, hr⟩ := Prod.mk.inj (Option.some.inj h)
      exact ⟨congrArg Except.ok hk, hr.symm⟩

theorem Agrees.alarmExpired (h : k.Agrees c) (p : Slot) :
    k.alarmExpired p = c.due p k.timerTicks := by
  unfold Kernel.alarmExpired AlarmClock.due
  rw [h.alarm]
  cases hp : c.armed p with
  | none => simp
  | some d =>
      have hpos := (h.armed p d hp).1
      simp [hpos.ne']

theorem Agrees.schedule (h : k.Agrees c) (hrun : k.schedule = .ok k') :
    k'.Agrees (c.goOff k.timerTicks) := by
  refine ⟨fun p => ?_, fun p d hd => ?_, fun p => ?_⟩
  · rw [(schedule_alarm hrun p).1, h.alarmExpired, h.alarm]
    unfold AlarmClock.goOff
    dsimp only
    split <;> rfl
  · unfold AlarmClock.goOff at hd
    dsimp only at hd
    split at hd
    · cases hd
    · exact h.armed p d hd
  · rw [(schedule_alarm hrun p).2, h.alarmExpired, h.pending]
    rfl

theorem Agrees.taken (h : k.Agrees c) (q : Slot) :
    (k.modify q fun x =>
      { x with sigpending := x.sigpending &&& ~~~(1#32 <<< (sigalrm - 1)) }).Agrees (c.take q) := by
  refine ⟨fun p => ?_, h.armed, fun p => ?_⟩
  · rw [modify_processTable]
    have halarm := h.alarm p
    split
    · exact halarm
    · exact halarm
  · unfold pendingAlarm AlarmClock.take
    rw [modify_processTable]
    by_cases hp : p = q
    · subst hp
      have hbit := getLsbD_bit (by decide : sigalrm - 1 < 32) (sigalrm - 1)
      dsimp only
      rw [if_pos rfl, Function.update_self, BitVec.getLsbD_and, BitVec.getLsbD_not, hbit]
      simp
    · dsimp only
      rw [if_neg hp, Function.update_of_ne hp]
      exact h.pending p

/-- What `kernel_alarm` returns is right exactly if an alarm is not overdue or the difference is
small. -/
theorem Agrees.returns (h : k.Agrees c) (hticks : k.timerTicks < 2 ^ 32) (seconds : ℕ) :
    (k.kernelAlarm seconds).2 = c.left k.currentProcess k.timerTicks ↔
      (k.current.alarm ≠ 0 ∧ k.timerTicks ≤ k.current.alarm) ∨
        (k.current.alarm + 2 ^ 32 - k.timerTicks) % 2 ^ 32 < hz := by
  have halarm : k.current.alarm = (c.armed k.currentProcess).getD 0 := h.alarm k.currentProcess
  have hhz : hz = 100 := rfl
  unfold kernelAlarm AlarmClock.left
  dsimp only
  rw [halarm, hhz]
  cases hp : c.armed k.currentProcess with
  | none =>
      simp only [Option.getD_none]
      omega
  | some d =>
      obtain ⟨hpos, hlt⟩ := h.armed _ d hp
      simp only [Option.getD_some]
      rcases Nat.lt_or_ge d k.timerTicks with hover | hle
      · omega
      · have hdiff : (d + 2 ^ 32 - k.timerTicks) % 2 ^ 32 = d - k.timerTicks := by omega
        rw [hdiff]
        exact iff_of_true rfl (Or.inl ⟨hpos.ne', hle⟩)

/-- The alarm is set as it should be exactly if it is not to be cancelled, but at the tick 0. -/
theorem Agrees.set_iff (h : k.Agrees c) {seconds : ℕ}
    (hlt : k.timerTicks + seconds * hz < 2 ^ 32) :
    (k.kernelAlarm seconds).1.Agrees (c.set k.currentProcess k.timerTicks seconds) ↔
      seconds ≠ 0 ∨ k.timerTicks = 0 := by
  have hhz : hz = 100 := rfl
  have htable : ∀ p, ((k.kernelAlarm seconds).1.processTable p).alarm =
      if p = k.currentProcess then k.timerTicks + seconds * hz
      else (k.processTable p).alarm := by
    intro p
    unfold kernelAlarm
    dsimp only
    rw [modify_processTable]
    split
    · exact Nat.mod_eq_of_lt hlt
    · rfl
  constructor
  · intro hset
    have hmine := hset.alarm k.currentProcess
    rw [htable, if_pos rfl] at hmine
    rw [AlarmClock.set_armed_self] at hmine
    by_cases hzero : seconds = 0
    · rw [if_pos hzero, Option.getD_none] at hmine
      omega
    · exact Or.inl hzero
  · intro hcases
    refine ⟨fun p => ?_, fun p d hd => ?_, fun p => ?_⟩
    · rw [htable]
      by_cases hp : p = k.currentProcess
      · subst hp
        rw [if_pos rfl, AlarmClock.set_armed_self]
        split
        next hzero =>
          have hnow : k.timerTicks = 0 := hcases.resolve_left fun hne => hne hzero
          rw [Option.getD_none, hnow, hzero, Nat.zero_mul]
        next => rfl
      · rw [if_neg hp, AlarmClock.set_armed_of_ne c hp]
        exact h.alarm p
    · by_cases hp : p = k.currentProcess
      · subst hp
        rw [AlarmClock.set_armed_self] at hd
        split at hd
        next => cases hd
        next hne =>
          have hpos : 0 < seconds * hz := Nat.mul_pos (Nat.pos_of_ne_zero hne) (by decide)
          obtain rfl := Option.some.inj hd
          exact ⟨Nat.add_pos_right _ hpos, hlt⟩
      · rw [AlarmClock.set_armed_of_ne c hp] at hd
        exact h.armed p d hd
    · have hpending := h.pending p
      unfold pendingAlarm kernelAlarm at *
      dsimp only
      rw [modify_processTable]
      split <;> exact hpending

/-- Ticks after an event which takes place are below the limit again. -/
theorem alarmEvent_ticks (h : k.alarmEvent ev = some (k', r)) (hticks : k.timerTicks < 2 ^ 32) :
    k'.timerTicks < 2 ^ 32 := by
  cases ev with
  | alarm seconds =>
      obtain ⟨-, rfl, -⟩ := alarmEvent_alarm h
      exact hticks
  | ticks n =>
      obtain ⟨hlt, rfl, -⟩ := alarmEvent_ticks_eq h
      exact hlt
  | schedule =>
      obtain ⟨hok, -⟩ := alarmEvent_schedule h
      rw [schedule_timerTicks hok]
      exact hticks
  | taken =>
      obtain ⟨rfl, -⟩ := Prod.mk.inj (Option.some.inj h)
      exact hticks

/-- An event is as it should be exactly if it is punctual. -/
theorem Agrees.event (h : k.Agrees c) (hticks : k.timerTicks < 2 ^ 32)
    (hrun : k.alarmEvent ev = some (k', r)) :
    (r = (k.expected c ev).2 ∧ k'.Agrees (k.expected c ev).1) ↔ k.Punctual ev := by
  cases ev with
  | alarm seconds =>
      obtain ⟨hlt, rfl, rfl⟩ := alarmEvent_alarm hrun
      unfold expected Punctual
      dsimp only
      rw [Option.some_inj, h.returns hticks, h.set_iff hlt, and_comm]
  | ticks n =>
      obtain ⟨-, rfl, rfl⟩ := alarmEvent_ticks_eq hrun
      exact iff_of_true ⟨rfl, h.alarm, h.armed, h.pending⟩ trivial
  | schedule =>
      obtain ⟨hok, rfl⟩ := alarmEvent_schedule hrun
      exact iff_of_true ⟨rfl, h.schedule hok⟩ trivial
  | taken =>
      obtain ⟨rfl, rfl⟩ := Prod.mk.inj (Option.some.inj hrun)
      exact iff_of_true ⟨rfl, h.taken _⟩ trivial

/-- Alarms keep time exactly in the runs whose calls are punctual. -/
theorem keepsTime_iff (h : k.Agrees c) (hticks : k.timerTicks < 2 ^ 32) (evs : List AlarmEvent) :
    k.KeepsTime c evs ↔ k.PunctualRun evs := by
  induction evs generalizing k c with
  | nil => exact Iff.rfl
  | cons ev evs ih =>
      unfold KeepsTime PunctualRun
      refine forall_congr' fun k' => forall_congr' fun r => forall_congr' fun hrun => ?_
      have hevent := h.event hticks hrun
      rw [← and_assoc, hevent]
      refine and_congr_right fun hpunctual => ?_
      exact ih (hevent.mpr hpunctual).2 (alarmEvent_ticks hrun hticks)

theorem agrees_init : processesInit.Agrees .off :=
  ⟨by decide, fun _ _ hd => (nomatch hd), by decide⟩

theorem keepsTime_iff_init : processesInit.KeepsTime .off [.alarm 5, .ticks 100, .alarm 7] ↔
    processesInit.PunctualRun [.alarm 5, .ticks 100, .alarm 7] :=
  keepsTime_iff agrees_init (by decide) _

/-- The first alarm ever set, at the tick 100, is said to replace one that had more than a year
to go. -/
theorem not_keepsTime_firstAlarm :
    processesInit.Agrees .off ∧ ¬ processesInit.KeepsTime .off [.ticks 100, .alarm 5] := by
  refine ⟨agrees_init, fun hkeeps => ?_⟩
  obtain ⟨-, -, hrest⟩ := hkeeps { processesInit with timerTicks := 100 } none rfl
  obtain ⟨hreturns, -⟩ := hrest _ (some 42949671) rfl
  cases hreturns

end Kernel

end Yak.Process
