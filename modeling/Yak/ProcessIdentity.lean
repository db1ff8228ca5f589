import Yak.JobControl
import Yak.Reaping
import Mathlib.Tactic

/-!
# What a process keeps

Its number, its group and its user are left alone by all the code of the scheduler, of the
signals, of `kernel_exit` and of `kernel_waitpid`, for every slot of the table.
-/

namespace Yak.Process

/-- The fields `pid`, `pgrp_info.pgid`, `uid`, `euid` and `suid`. -/
def Proc.identity (x : Proc) : (ℤ × ℤ) × ℤ × ℤ × ℤ := ((x.pid, x.pgid), x.uid, x.euid, x.suid)

namespace Kernel

variable {k k' k₁ : Kernel} {p q : Slot}

/-! ## The scheduler -/

def SameIdentity (k k' : Kernel) : Prop :=
  ∀ p, (k'.processTable p).identity = (k.processTable p).identity

theorem SameIdentity.refl (k : Kernel) : SameIdentity k k := fun _ => rfl

theorem SameIdentity.trans (h : SameIdentity k k₁) (h' : SameIdentity k₁ k') : SameIdentity k k' :=
  fun p => (h' p).trans (h p)

theorem SameCore.sameIdentity (h : SameCore k k') : SameIdentity k k' := by
  intro p
  have hident := congrArg Proc.identity (h.bare p)
  exact hident

theorem sameIdentity_modify (k : Kernel) (p : Slot) {f : Proc → Proc}
    (hf : ∀ x, (f x).identity = x.identity) : SameIdentity k (k.modify p f) := by
  intro r
  rw [modify_processTable]
  split
  · exact hf _
  · rfl

theorem setState_sameIdentity (k : Kernel) (p : Slot) (s : ProcState) :
    SameIdentity k (k.setState p s) :=
  sameIdentity_modify k p fun _ => rfl

theorem adjustProcQueues_sameIdentity (h : k.adjustProcQueues p = .ok k') : SameIdentity k k' :=
  (adjustProcQueues_sameCore h).sameIdentity

/-- Some fields of a process are written, and the queues are brought up to date. -/
theorem modify_adjust_sameIdentity {f : Proc → Proc}
    (h : (k.modify p f).adjustProcQueues q = .ok k') (hf : ∀ x, (f x).identity = x.identity) :
    SameIdentity k k' :=
  (sameIdentity_modify k p hf).trans (adjustProcQueues_sameIdentity h)

theorem setState_adjust_sameIdentity {s : ProcState}
    (h : (k.setState p s).adjustProcQueues q = .ok k') : SameIdentity k k' :=
  modify_adjust_sameIdentity h fun _ => rfl

theorem raiseAlarm_sameIdentity (k : Kernel) (p : Slot) : SameIdentity k (k.raiseAlarm p) := by
  unfold raiseAlarm
  split
  · exact sameIdentity_modify k p fun _ => rfl
  · exact SameIdentity.refl k

theorem expireTty_sameIdentity (h : k.expireTty p = .ok k') : SameIdentity k k' := by
  unfold expireTty at h
  split at h
  · rw [bind_eq_ok] at h
    obtain ⟨k₁, hadjust, h⟩ := h
    obtain rfl := Except.ok.inj h
    have hwoken : SameIdentity k k₁ := setState_adjust_sameIdentity hadjust
    refine hwoken.trans (sameIdentity_modify k₁ p ?_)
    exact fun _ => rfl
  · obtain rfl := Except.ok.inj h
    exact SameIdentity.refl k

theorem wakeOnSignal_sameIdentity (h : k.wakeOnSignal p = .ok k') : SameIdentity k k' := by
  unfold wakeOnSignal at h
  split at h
  · exact setState_adjust_sameIdentity h
  · obtain rfl := Except.ok.inj h
    exact SameIdentity.refl k

theorem scheduleSlot_sameIdentity (h : k.scheduleSlot p = .ok k') : SameIdentity k k' := by
  unfold scheduleSlot at h
  rw [bind_eq_ok] at h
  obtain ⟨k₁, htty, hwake⟩ := h
  have halarm := (raiseAlarm_sameIdentity k p).trans (expireTty_sameIdentity htty)
  exact halarm.trans (wakeOnSignal_sameIdentity hwake)

theorem pickNext_sameIdentity (h : k.pickNext = .ok k') : SameIdentity k k' := by
  unfold pickNext at h
  split at h
  · obtain rfl := Except.ok.inj h
    exact setState_sameIdentity k _ .running
  · cases h

theorem schedule_sameIdentity (h : k.schedule = .ok k') : SameIdentity k k' := by
  unfold schedule at h
  rw [bind_eq_ok] at h
  obtain ⟨k₁, hloop, hpick⟩ := h
  have hslots : SameIdentity k k₁ :=
    foldlM_invariant (SameIdentity k)
      (fun _ _ _ _ hinv hslot => hinv.trans (scheduleSlot_sameIdentity hslot)) (SameIdentity.refl k) hloop
  exact hslots.trans (pickNext_sameIdentity hpick)

theorem sleep_sameIdentity {addr : ℕ} {type : ProcState} (h : k.sleep addr type = .ok k') :
    SameIdentity k k' := by
  unfold sleep at h
  split at h
  · cases h
  · split at h
    · cases h
    · rw [bind_eq_ok] at h
      obtain ⟨k₁, hadjust, hschedule⟩ := h
      have hasleep : SameIdentity k k₁ := modify_adjust_sameIdentity hadjust fun _ => rfl
      exact hasleep.trans (schedule_sameIdentity hschedule)

theorem wakeupSlot_sameIdentity {addr : ℕ} {r r' : Kernel × Bool} (h : wakeupSlot addr r p = .ok r') :
    SameIdentity r.1 r'.1 := by
  unfold wakeupSlot at h
  split at h
  · rw [bind_eq_ok] at h
    obtain ⟨k₁, hadjust, h⟩ := h
    obtain rfl := Except.ok.inj h
    exact modify_adjust_sameIdentity hadjust fun _ => rfl
  · obtain rfl := Except.ok.inj h
    exact SameIdentity.refl _

theorem wakeup_sameIdentity {addr : ℕ} {switch : Bool} (h : k.wakeup addr switch = .ok k') :
    SameIdentity k k' := by
  unfold wakeup at h
  rw [bind_eq_ok] at h
  obtain ⟨r, hloop, h⟩ := h
  have hslots : SameIdentity k r.1 :=
    foldlM_invariant (fun r => SameIdentity k r.1)
      (fun _ _ _ _ hinv hslot => hinv.trans (wakeupSlot_sameIdentity hslot)) (SameIdentity.refl k) hloop
  split at h
  · exact hslots.trans (schedule_sameIdentity h)
  · obtain rfl := Except.ok.inj h
    exact hslots

theorem kernelNice_sameIdentity {inc : ℤ} (h : k.kernelNice inc = .ok k') : SameIdentity k k' := by
  unfold kernelNice at h
  exact modify_adjust_sameIdentity h fun _ => rfl

theorem kernelPause_sameIdentity (h : k.kernelPause = .ok k') : SameIdentity k k' := by
  unfold kernelPause at h
  rw [bind_eq_ok] at h
  obtain ⟨k₁, hadjust, hschedule⟩ := h
  have hasleep : SameIdentity k k₁ := setState_adjust_sameIdentity hadjust
  exact hasleep.trans (schedule_sameIdentity hschedule)

/-! ## Signals -/

/-- Nothing but pending signals has changed. -/
def Signalled (k k' : Kernel) : Prop :=
  ∀ p, ∃ pending, k'.processTable p = { k.processTable p with sigpending := pending }

theorem Signalled.refl (k : Kernel) : Signalled k k := fun p => ⟨(k.processTable p).sigpending, rfl⟩

theorem Signalled.trans (h : Signalled k k₁) (h' : Signalled k₁ k') : Signalled k k' := by
  intro p
  obtain ⟨pending, hp⟩ := h p
  obtain ⟨pending', hp'⟩ := h' p
  exact ⟨pending', by rw [hp', hp]⟩

theorem sendSignal_signalled (k : Kernel) (target : Slot) (sig : ℕ) :
    Signalled k (k.sendSignal target sig).1 := by
  unfold sendSignal
  split
  · exact Signalled.refl k
  · split
    · intro p
      rw [modify_processTable]
      split
      · exact ⟨_, rfl⟩
      · exact ⟨_, rfl⟩
    · exact Signalled.refl k

theorem killAll_signalled (k : Kernel) (candidate : Slot → Proc → Bool) (sig : ℕ) :
    Signalled k (k.killAll candidate sig).1 := by
  unfold killAll
  dsimp only
  refine List.foldlRecOn (motive := fun c : KillCount => Signalled k c.kernel) _ _
    (Signalled.refl k) ?_
  intro c hc p _
  unfold killSlot
  split
  · exact hc.trans (sendSignal_signalled c.kernel p sig)
  · exact hc

theorem kernelKill_signalled {pid sig : ℤ} {r : Kernel × ℤ} (h : k.kernelKill pid sig = .ok r) :
    Signalled k r.1 := by
  unfold kernelKill at h
  split at h
  · obtain rfl := Except.ok.inj h
    exact Signalled.refl k
  · split at h
    · split at h
      · obtain rfl := Except.ok.inj h
        exact sendSignal_signalled k _ _
      · cases h
    · split_ifs at h
      all_goals
        obtain rfl := Except.ok.inj h
        exact killAll_signalled k _ _

theorem kernelKill_sameIdentity {pid sig : ℤ} {r : Kernel × ℤ} (h : k.kernelKill pid sig = .ok r) :
    SameIdentity k r.1 := by
  intro p
  obtain ⟨pending, hp⟩ := kernelKill_signalled h p
  rw [hp]
  rfl

theorem kernelSignal_sameIdentity (k : Kernel) (sig : ℤ) (handler : SigHandler) :
    SameIdentity k (k.kernelSignal sig handler) := by
  unfold kernelSignal
  split
  · exact SameIdentity.refl k
  · split_ifs
    · exact SameIdentity.refl k
    · exact SameIdentity.refl k
    · exact sameIdentity_modify k _ fun _ => rfl

/-! ## Exit and wait -/

theorem reparent_sameIdentity (k : Kernel) : SameIdentity k k.reparent := by
  unfold reparent
  refine List.foldlRecOn _ _ (motive := SameIdentity k) (SameIdentity.refl k) ?_
  intro k₁ hk₁ p _
  refine hk₁.trans ?_
  unfold reparentSlot
  split
  · exact sameIdentity_modify k₁ p fun _ => rfl
  · exact SameIdentity.refl k₁

theorem exitMark_sameIdentity {status : ℕ} (h : k.exitMark status = .ok k') : SameIdentity k k' := by
  have hcode : SameIdentity k (k.reparent.modify k.currentProcess fun x =>
      { x with exitCode := status % 256 }) :=
    (reparent_sameIdentity k).trans (sameIdentity_modify _ _ fun _ => rfl)
  unfold exitMark at h
  dsimp only at h
  split at h
  · rw [bind_eq_ok] at h
    obtain ⟨r, hkill, h⟩ := h
    obtain rfl := Except.ok.inj h
    exact hcode.trans ((setState_sameIdentity _ _ .zombie).trans (kernelKill_sameIdentity hkill))
  · obtain rfl := Except.ok.inj h
    exact hcode.trans (setState_sameIdentity _ _ .exited)

theorem kernelExit_sameIdentity {status : ℕ} (h : k.kernelExit status = .ok k') : SameIdentity k k' := by
  unfold kernelExit at h
  simp only [bind_eq_ok] at h
  obtain ⟨k₁, hmark, k₂, hadjust, hschedule⟩ := h
  have hadjusted := (exitMark_sameIdentity hmark).trans (adjustProcQueues_sameIdentity hadjust)
  exact hadjusted.trans (schedule_sameIdentity hschedule)

theorem waitpidScan_sameIdentity (k : Kernel) (pid : ℤ) : SameIdentity k (k.waitpidScan pid).kernel := by
  unfold waitpidScan
  refine List.foldlRecOn (motive := fun w : WaitScan => SameIdentity k w.kernel) _ _
    (SameIdentity.refl k) ?_
  intro w hw p _
  unfold waitpidSlot
  dsimp only
  split_ifs
  · exact hw
  · exact hw.trans (setState_sameIdentity _ p .exited)
  · exact hw

theorem kernelWaitpid_sameIdentity {pid : ℤ} {wnohang : Bool} (h : k.kernelWaitpid pid wnohang = .ok k') :
    SameIdentity k k' := by
  unfold kernelWaitpid at h
  dsimp only at h
  split at h
  · obtain rfl := Except.ok.inj h
    exact waitpidScan_sameIdentity k pid
  · exact (waitpidScan_sameIdentity k pid).trans (sleep_sameIdentity h)

/-! ## Signal handlers and timers -/

theorem getSignalHandler_sameIdentity {i : ℕ} {r : Kernel × Option ℕ}
    (h : k.getSignalHandler i = .ok r) : SameIdentity k r.1 := by
  unfold getSignalHandler at h
  split at h
  · obtain rfl := Except.ok.inj h
    exact SameIdentity.refl k
  · obtain rfl := Except.ok.inj h
    exact SameIdentity.refl k
  · cases haction : defAction i with
    | abnormal | terminate =>
        simp only [haction, bind_eq_ok] at h
        obtain ⟨k₁, hexit, h⟩ := h
        obtain rfl := Except.ok.inj h
        exact kernelExit_sameIdentity hexit
    | ignore =>
        simp only [haction] at h
        obtain rfl := Except.ok.inj h
        exact SameIdentity.refl k
    | «continue» =>
        simp only [haction] at h
        split at h
        · rw [bind_eq_ok] at h
          obtain ⟨k₁, hadjust, h⟩ := h
          obtain rfl := Except.ok.inj h
          exact setState_adjust_sameIdentity hadjust
        · obtain rfl := Except.ok.inj h
          exact SameIdentity.refl k
    | stop =>
        simp only [haction, bind_eq_ok] at h
        obtain ⟨r₁, hkill, k₁, hadjust, k₂, hschedule, h⟩ := h
        obtain rfl := Except.ok.inj h
        have hstopped := (setState_sameIdentity k k.currentProcess .stopped).trans
          (kernelKill_sameIdentity hkill)
        exact (hstopped.trans (adjustProcQueues_sameIdentity hadjust)).trans
          (schedule_sameIdentity hschedule)

theorem deliverSignal_sameIdentity {i : ℕ} {r : Kernel × Option ℕ} (h : k.deliverSignal i = .ok r) :
    SameIdentity k r.1 := by
  unfold deliverSignal at h
  split at h
  · refine SameIdentity.trans ?_ (getSignalHandler_sameIdentity h)
    exact sameIdentity_modify k k.currentProcess fun _ => rfl
  · obtain rfl := Except.ok.inj h
    exact SameIdentity.refl k

theorem timerIrq_sameIdentity (h : k.timerIrq = .ok k') : SameIdentity k k' := by
  unfold timerIrq at h
  rw [bind_eq_ok] at h
  obtain ⟨k₁, hcharge, hschedule⟩ := h
  have hcharged : SameIdentity k k₁ := by
    unfold chargeQuantum at hcharge
    split at hcharge
    · have hadjusted := modify_adjust_sameIdentity hcharge fun _ => rfl
      exact hadjusted
    · obtain rfl := Except.ok.inj hcharge
      have hmodified := sameIdentity_modify { k with timerTicks := (k.timerTicks + 1) % 2 ^ 32 }
        k.currentProcess (f := fun x => { x with counter := x.counter - 1 }) fun _ => rfl
      exact hmodified
  exact hcharged.trans (schedule_sameIdentity hschedule)

/-- Every operation but a fork leaves all of them as they are. -/
theorem exec_sameIdentity {op : Op} (hop : ∀ archOk, op ≠ .fork archOk) (h : op.exec k = .ok k') :
    SameIdentity k k' := by
  cases op with
  | fork archOk => exact absurd rfl (hop archOk)
  | exit status => exact kernelExit_sameIdentity h
  | sleep addr type => exact sleep_sameIdentity h
  | wakeup addr switch => exact wakeup_sameIdentity h
  | nice inc => exact kernelNice_sameIdentity h
  | pause => exact kernelPause_sameIdentity h
  | alarm seconds =>
      obtain rfl := Except.ok.inj h
      unfold kernelAlarm
      dsimp only
      exact sameIdentity_modify k k.currentProcess fun _ => rfl
  | signal sig handler =>
      obtain rfl := Except.ok.inj h
      exact kernelSignal_sameIdentity k sig handler
  | kill pid sig =>
      obtain ⟨r, hkill, rfl⟩ := map_fst_eq_ok h
      exact kernelKill_sameIdentity hkill
  | deliver i =>
      obtain ⟨r, hdeliver, rfl⟩ := map_fst_eq_ok h
      exact deliverSignal_sameIdentity hdeliver
  | waitpid pid wnohang =>
      unfold Op.exec at h
      exact kernelWaitpid_sameIdentity h
  | waitpidWoken =>
      obtain rfl := Except.ok.inj h
      unfold waitpidWoken
      refine sameIdentity_modify k k.currentProcess ?_
      intro x
      rfl
  | ttySetTimer vtime =>
      obtain rfl := Except.ok.inj h
      unfold ttySetTimer
      exact sameIdentity_modify k k.currentProcess fun _ => rfl
  | ttyClearTimer =>
      obtain rfl := Except.ok.inj h
      unfold ttyClearTimer
      exact sameIdentity_modify k k.currentProcess fun _ => rfl
  | tick => exact timerIrq_sameIdentity h
  | schedule => exact schedule_sameIdentity h

/-! ## What a step of fork, exit or wait does to a slot -/

variable {c : Slot} {st : ReapStep}

theorem waitpidPass_sameIdentity (k : Kernel) (pid : ℤ) (wnohang : Bool) :
    SameIdentity k (k.waitpidPass pid wnohang) := by
  have hscan := waitpidScan_sameIdentity k pid
  unfold waitpidPass
  dsimp only
  split
  · exact hscan
  · refine hscan.trans (sameIdentity_modify _ _ ?_)
    intro x
    rfl

/-- The process which makes a step has a slot of its own. -/
theorem current_ne_exited (hlive : ¬k.current.state.dead = true) :
    (k.processTable k.currentProcess).state ≠ .exited := by
  intro hexited
  refine hlive ?_
  unfold current
  rw [hexited]
  rfl

theorem waitpidPass_state {pid : ℤ} {wnohang : Bool} (hlive : ¬k.current.state.dead = true)
    (hp : ((k.waitpidPass pid wnohang).processTable p).state ≠ .exited) :
    (k.processTable p).state ≠ .exited := by
  have hreaps := (waitpidScan_reaps k pid).state p
  unfold waitpidPass at hp
  dsimp only at hp
  have hscan : ((k.waitpidScan pid).kernel.processTable p).state ≠ .exited →
      (k.processTable p).state ≠ .exited := by
    intro hafter
    rcases hreaps with hsame | ⟨hzombie, _, _⟩
    · exact hsame ▸ hafter
    · rw [hzombie]
      decide
  split at hp
  · exact hscan hp
  · rw [modify_processTable] at hp
    split at hp
    next hcurrent =>
      subst hcurrent
      exact current_ne_exited hlive
    next => exact hscan hp

theorem exitMark_state {status : ℕ} (h : k.exitMark status = .ok k')
    (hlive : ¬k.current.state.dead = true) (hp : (k'.processTable p).state ≠ .exited) :
    (k.processTable p).state ≠ .exited := by
  by_cases hcurrent : p = k.currentProcess
  · subst hcurrent
    exact current_ne_exited hlive
  · rw [← (exitMark_touches h).state p hcurrent]
    exact hp

theorem exitMark_of_toOption {status : ℕ} (h : (k.exitMark status).toOption = some k') :
    k.exitMark status = .ok k' := by
  cases hmark : k.exitMark status with
  | error e =>
      rw [hmark] at h
      cases h
  | ok k₁ =>
      rw [hmark] at h
      rw [Option.some.inj h]

theorem forkCopy_current (k : Kernel) (c : Slot) :
    ({ k with lastPid := c.val }.forkCopy c).current = k.current := by
  unfold forkCopy current
  rw [modify_processTable]
  split <;> rfl

section Fork

variable {k₁ : Kernel} (hfree : k.getFreeProc = some (c, k₁))

include hfree

theorem forkPass_eq (archOk : Bool) :
    k.forkPass archOk =
      if archOk then ({ k with lastPid := c.val }.forkCopy c).forkBuild c
      else ({ k with lastPid := c.val }.forkCopy c).forkFail c := by
  unfold forkPass
  rw [hfree, (getFreeProc_eq hfree).2]

theorem forkPass_other {archOk : Bool} (hp : p ≠ c) :
    (k.forkPass archOk).processTable p = k.processTable p := by
  rw [forkPass_eq hfree]
  unfold forkBuild forkFail setState forkCopy
  split <;> rw [modify_processTable, if_neg hp, modify_processTable, if_neg hp]

theorem forkPass_fail : ((k.forkPass false).processTable c).state = .exited := by
  rw [forkPass_eq hfree, if_neg (by decide)]
  unfold forkFail setState
  rw [modify_processTable, if_pos rfl]

/-- The child of a fork, as far as its relations go. -/
theorem forkPass_child :
    ((k.forkPass true).processTable c).state = .runnable ∧
      ((k.forkPass true).processTable c).pid = c.val ∧
      ((k.forkPass true).processTable c).ppid = k.current.pid ∧
      ((k.forkPass true).processTable c).pgid = k.current.pgid := by
  rw [forkPass_eq hfree, if_pos rfl]
  have hcurrent := forkCopy_current k c
  have hcopy : ({ k with lastPid := c.val }.forkCopy c).processTable c = k.current := by
    unfold forkCopy
    rw [modify_processTable, if_pos rfl]
    rfl
  unfold forkBuild
  rw [hcurrent, modify_processTable, if_pos rfl, hcopy]
  exact ⟨rfl, rfl, rfl, rfl⟩

end Fork

theorem forkPass_none {archOk : Bool} (hfree : k.getFreeProc = none) : k.forkPass archOk = k := by
  unfold forkPass
  rw [hfree]

theorem forkPass_slot {archOk : Bool} (hp : ((k.forkPass archOk).processTable p).state ≠ .exited) :
    ((k.processTable p).state ≠ .exited ∧
      ((k.forkPass archOk).processTable p).identity = (k.processTable p).identity) ∨
    (archOk = true ∧ (∃ k₁, k.getFreeProc = some (p, k₁)) ∧
      ((k.forkPass archOk).processTable p).pid = p.val ∧
      ((k.forkPass archOk).processTable p).pgid = k.current.pgid) := by
  cases hfree : k.getFreeProc with
  | none =>
      rw [forkPass_none hfree] at hp ⊢
      exact Or.inl ⟨hp, rfl⟩
  | some r =>
      obtain ⟨c, k₁⟩ := r
      by_cases hchild : p = c
      · subst hchild
        cases archOk with
        | false => exact absurd (forkPass_fail hfree) hp
        | true =>
            obtain ⟨-, hpid, -, hpgid⟩ := forkPass_child hfree
            exact Or.inr ⟨rfl, ⟨k₁, rfl⟩, hpid, hpgid⟩
      · rw [forkPass_other hfree hchild] at hp ⊢
        exact Or.inl ⟨hp, rfl⟩

/-- A slot in use after a step was in use before, and keeps its number and group, or it is
the child of a fork. -/
theorem reapStep_slot (h : k.reapStep st = some k') (hp : (k'.processTable p).state ≠ .exited) :
    ((k.processTable p).state ≠ .exited ∧
      (k'.processTable p).identity = (k.processTable p).identity) ∨
    (st = .fork true ∧ (∃ k₁, k.getFreeProc = some (p, k₁)) ∧
      (k'.processTable p).pid = p.val ∧ (k'.processTable p).pgid = k.current.pgid) := by
  cases st with
  | fork archOk =>
      simp only [reapStep] at h
      split at h
      · cases h
      · obtain rfl := Option.some.inj h
        rcases forkPass_slot hp with hold | ⟨rfl, hnew⟩
        · exact Or.inl hold
        · exact Or.inr ⟨rfl, hnew⟩
  | exit status =>
      simp only [reapStep] at h
      split at h
      · cases h
      · rename_i hlive
        have hmark := exitMark_of_toOption h
        exact Or.inl ⟨exitMark_state hmark hlive hp, exitMark_sameIdentity hmark p⟩
  | waitpid pid wnohang =>
      simp only [reapStep] at h
      split at h
      · cases h
      · rename_i hlive
        obtain rfl := Option.some.inj h
        exact Or.inl ⟨waitpidPass_state hlive hp, waitpidPass_sameIdentity k pid wnohang p⟩
  | waitpidWoken =>
      simp only [reapStep] at h
      split at h
      · cases h
      · obtain rfl := Option.some.inj h
        left
        unfold waitpidWoken at hp ⊢
        rw [modify_processTable] at hp ⊢
        split at hp <;> exact ⟨hp, by split <;> rfl⟩
  | switch q =>
      simp only [reapStep] at h
      split at h
      · cases h
      · obtain rfl := Option.some.inj h
        exact Or.inl ⟨hp, rfl⟩
  | wake q =>
      simp only [reapStep] at h
      split at h
      · rename_i hsleeping
        obtain rfl := Option.some.inj h
        left
        refine ⟨?_, setState_sameIdentity k q .runnable p⟩
        unfold setState at hp
        rw [modify_processTable] at hp
        split at hp
        next hq =>
          subst hq
          intro hexited
          rw [hexited] at hsleeping
          cases hsleeping
        next => exact hp
      · cases h

end Kernel

end Yak.Process
