import Yak.Schedule
import Mathlib.Tactic

/-!
# What system calls write outside the scheduler

Between two calls of the scheduler a process only writes fields of table
slots.  `Touches s` bounds such a stretch of code: links, heads, priorities and
timers are left alone and only the slots in `s` may change their state or their
terminal timer.
-/

namespace Yak.Process

open LinkedRing

namespace Kernel

/-- Only slots in `s` change their state or terminal timer, and nothing that
the rings depend on is written. -/
structure Touches (s : Slot → Prop) (k k' : Kernel) : Prop where
  state : ∀ r, ¬ s r → (k'.processTable r).state = (k.processTable r).state
  ttyBlock : ∀ r, ¬ s r → (k'.processTable r).ttyBlock = (k.processTable r).ttyBlock
  priority : ∀ r, (k'.processTable r).priority = (k.processTable r).priority
  links : k'.links = k.links
  processQueues : k'.processQueues = k.processQueues
  currentProcess : k'.currentProcess = k.currentProcess
  timerTicks : k'.timerTicks = k.timerTicks

variable {k k' k₁ : Kernel} {rings rings' : ℕ → List Slot} {loose s s' : Slot → Prop}
variable {p : Slot}

theorem Touches.refl (s : Slot → Prop) (k : Kernel) : Touches s k k :=
  ⟨fun _ _ => rfl, fun _ _ => rfl, fun _ => rfl, rfl, rfl, rfl, rfl⟩

theorem Touches.trans (h : Touches s k k₁) (h' : Touches s k₁ k') : Touches s k k' := by
  constructor
  · intro r hr
    rw [h'.state r hr, h.state r hr]
  · intro r hr
    rw [h'.ttyBlock r hr, h.ttyBlock r hr]
  · intro r
    rw [h'.priority, h.priority]
  · rw [h'.links, h.links]
  · rw [h'.processQueues, h.processQueues]
  · rw [h'.currentProcess, h.currentProcess]
  · rw [h'.timerTicks, h.timerTicks]

theorem Touches.mono (h : Touches s k k') (hs : ∀ r, s r → s' r) : Touches s' k k' :=
  ⟨fun r hr => h.state r fun hr' => hr (hs r hr'),
    fun r hr => h.ttyBlock r fun hr' => hr (hs r hr'),
    h.priority, h.links, h.processQueues, h.currentProcess, h.timerTicks⟩

theorem touches_modify (k : Kernel) {f : Proc → Proc}
    (hf : (f (k.processTable p)).priority = (k.processTable p).priority ∧
      (f (k.processTable p)).queueNext = (k.processTable p).queueNext ∧
      (f (k.processTable p)).queuePrev = (k.processTable p).queuePrev) :
    Touches (· = p) k (k.modify p f) := by
  constructor
  · intro r hr
    rw [modify_processTable, if_neg hr]
  · intro r hr
    rw [modify_processTable, if_neg hr]
  · intro r
    rw [modify_processTable]
    split
    next hr => rw [hr, hf.1]
    next => rfl
  · exact links_modify_of_bare k p f hf.2.1 hf.2.2
  · rfl
  · rfl
  · rfl

/-- Overwriting fields of one slot which the scheduler does not look at. -/
theorem touches_modify_quiet (k : Kernel) {f : Proc → Proc}
    (hf : ∀ x, (f x).state = x.state ∧ (f x).ttyBlock = x.ttyBlock ∧
      (f x).priority = x.priority ∧
      (f x).queueNext = x.queueNext ∧ (f x).queuePrev = x.queuePrev) :
    Touches s k (k.modify p f) := by
  have h : Touches (· = p) k (k.modify p f) :=
    touches_modify k (hf _).2.2
  constructor
  · intro r _
    rw [modify_processTable]
    split
    · exact (hf _).1
    · rfl
  · intro r _
    rw [modify_processTable]
    split
    · exact (hf _).2.1
    · rfl
  · exact h.priority
  · exact h.links
  · exact h.processQueues
  · exact h.currentProcess
  · exact h.timerTicks

theorem touches_setState (k : Kernel) (state : ProcState) :
    Touches (· = p) k (k.setState p state) :=
  touches_modify k ⟨rfl, rfl, rfl⟩

theorem Touches.linked (h : Touches s k k') (hlinked : Linked k rings loose) :
    Linked k' rings loose :=
  hlinked.congr h.links h.processQueues h.priority

theorem Touches.inAQueue (h : Touches s k k') (r : Slot) : k'.inAQueue r = k.inAQueue r := by
  have hnext : (k'.processTable r).queueNext = (k.processTable r).queueNext := by
    have := congrArg (fun L => L.next r) h.links
    exact this
  have hprev : (k'.processTable r).queuePrev = (k.processTable r).queuePrev := by
    have := congrArg (fun L => L.prev r) h.links
    exact this
  unfold Kernel.inAQueue
  rw [hnext, hprev]

/-! ## Signals -/

theorem sendSignal_touches (k : Kernel) (target : Slot) (sig : ℕ) :
    Touches s k (k.sendSignal target sig).1 := by
  unfold sendSignal
  split
  · exact Touches.refl s k
  · split
    · dsimp only
      exact touches_modify_quiet k fun _ => ⟨rfl, rfl, rfl, rfl, rfl⟩
    · exact Touches.refl s k

theorem killSlots_touches (candidate : Slot → Proc → Bool) (sig : ℕ)
    (slots : List Slot) (c : KillCount) :
    Touches s c.kernel (slots.foldl (killSlot candidate sig) c).kernel := by
  induction slots generalizing c with
  | nil => exact Touches.refl s c.kernel
  | cons p slots ih =>
      rw [List.foldl_cons]
      refine Touches.trans ?_ (ih _)
      unfold killSlot
      split
      · exact sendSignal_touches c.kernel p sig
      · exact Touches.refl s c.kernel

theorem kernelKill_touches {pid sig : ℤ} {r : Kernel × ℤ}
    (h : k.kernelKill pid sig = .ok r) : Touches s k r.1 := by
  have hall : ∀ candidate n, Touches s k (k.killAll candidate n).1 :=
    fun candidate n => killSlots_touches candidate n (List.finRange nrProc) ⟨k, 0, 0⟩
  unfold kernelKill at h
  split at h
  · simp only [Except.ok.injEq] at h
    rw [← h]
    exact Touches.refl s k
  · split at h
    · split at h
      · simp only [Except.ok.injEq] at h
        rw [← h]
        exact sendSignal_touches k _ _
      · simp at h
    · split at h
      · simp only [Except.ok.injEq] at h
        rw [← h]
        exact hall _ _
      · split at h
        · simp only [Except.ok.injEq] at h
          rw [← h]
          exact hall _ _
        · simp only [Except.ok.injEq] at h
          rw [← h]
          exact hall _ _

theorem kernelSignal_touches (k : Kernel) (sig : ℤ) (handler : SigHandler) :
    Touches s k (k.kernelSignal sig handler) := by
  unfold kernelSignal
  split
  · exact Touches.refl s k
  · split
    · exact Touches.refl s k
    · split
      · exact Touches.refl s k
      · exact touches_modify_quiet k fun _ => ⟨rfl, rfl, rfl, rfl, rfl⟩

theorem kernelAlarm_touches (k : Kernel) (seconds : ℕ) :
    Touches s k (k.kernelAlarm seconds).1 := by
  unfold kernelAlarm
  dsimp only
  exact touches_modify_quiet k fun _ => ⟨rfl, rfl, rfl, rfl, rfl⟩

/-! ## Fork, exit and wait -/

theorem getFreeProc_eq {c : Slot} (h : k.getFreeProc = some (c, k')) :
    (k.processTable c).state = .exited ∧ k' = { k with lastPid := c.val } := by
  unfold getFreeProc at h
  rw [Option.map_eq_some_iff] at h
  obtain ⟨c', hfind, heq⟩ := h
  simp only [Prod.mk.injEq] at heq
  obtain ⟨rfl, rfl⟩ := heq
  have hfound := List.find?_some hfind
  simp only [decide_eq_true_eq] at hfound
  exact ⟨hfound, rfl⟩

theorem waitpidWoken_touches (k : Kernel) : Touches s k k.waitpidWoken := by
  unfold waitpidWoken
  exact touches_modify_quiet k fun _ => ⟨rfl, rfl, rfl, rfl, rfl⟩

theorem reparentSlot_touches (k : Kernel) (p : Slot) : Touches s k (k.reparentSlot p) := by
  unfold reparentSlot
  split
  · exact touches_modify_quiet k fun _ => ⟨rfl, rfl, rfl, rfl, rfl⟩
  · exact Touches.refl s k

theorem reparent_touches (k : Kernel) : Touches s k k.reparent := by
  unfold reparent
  generalize List.finRange nrProc = slots
  induction slots generalizing k with
  | nil => exact Touches.refl s k
  | cons p slots ih =>
      rw [List.foldl_cons]
      exact (reparentSlot_touches k p).trans (ih _)

theorem exitMark_touches {status : ℕ} (h : k.exitMark status = .ok k') :
    Touches (· = k.currentProcess) k k' := by
  have hreparent : Touches (· = k.currentProcess) k k.reparent := reparent_touches k
  have hcurrent := hreparent.currentProcess
  unfold exitMark at h
  dsimp only at h
  generalize k.reparent = k₀ at h hreparent hcurrent
  have hcode : Touches (· = k.currentProcess) k (k₀.modify k.currentProcess
      fun x => { x with exitCode := status % 256 }) := by
    refine hreparent.trans ?_
    exact touches_modify_quiet _ fun _ => ⟨rfl, rfl, rfl, rfl, rfl⟩
  rw [modify_currentProcess, hcurrent] at h
  split at h
  · rw [bind_eq_ok] at h
    obtain ⟨r, hkill, hr⟩ := h
    simp only [Except.ok.injEq] at hr
    rw [← hr]
    refine hcode.trans (Touches.trans ?_ (kernelKill_touches hkill))
    exact touches_setState _ _
  · simp only [Except.ok.injEq] at h
    rw [← h]
    exact hcode.trans (touches_setState _ _)

/-- The scan of `kernel_waitpid` only turns zombies which are children of the
current process into exited slots. -/
structure Reaps (k k' : Kernel) : Prop where
  touches : Touches (fun r => (k.processTable r).state = .zombie) k k'
  ppid : ∀ r, (k'.processTable r).ppid = (k.processTable r).ppid
  pid : k'.current.pid = k.current.pid
  ttyBlock : ∀ r, (k'.processTable r).ttyBlock = (k.processTable r).ttyBlock
  state : ∀ r, (k'.processTable r).state = (k.processTable r).state ∨
    ((k.processTable r).state = .zombie ∧ (k'.processTable r).state = .exited ∧
      (k.processTable r).ppid = k.current.pid)

theorem Reaps.refl (k : Kernel) : Reaps k k :=
  ⟨Touches.refl _ k, fun _ => rfl, rfl, fun _ => rfl, fun _ => Or.inl rfl⟩

theorem Reaps.trans (h : Reaps k k₁) (h' : Reaps k₁ k') : Reaps k k' := by
  have hzombie : ∀ r, (k₁.processTable r).state = .zombie →
      (k.processTable r).state = .zombie := by
    intro r hr
    rcases h.state r with heq | ⟨hz, _, _⟩
    · rw [← heq]
      exact hr
    · exact hz
  constructor
  · exact h.touches.trans (h'.touches.mono hzombie)
  · intro r
    rw [h'.ppid, h.ppid]
  · rw [h'.pid, h.pid]
  · intro r
    rw [h'.ttyBlock, h.ttyBlock]
  · intro r
    rcases h'.state r with heq | ⟨hz, hexit, hppid⟩
    · rw [heq]
      exact h.state r
    · rw [h.ppid, h.pid] at hppid
      exact Or.inr ⟨hzombie r hz, hexit, hppid⟩

theorem waitpidSlot_reaps (skip wanted : Proc → Bool) (w : WaitScan) (p : Slot) :
    Reaps w.kernel (waitpidSlot skip wanted w p).kernel := by
  unfold waitpidSlot
  dsimp only
  split
  · exact Reaps.refl w.kernel
  next hchild =>
    split
    next hreap =>
      rw [not_or, not_not] at hchild
      have htable : ∀ r, (w.kernel.setState p .exited).processTable r =
          if r = p then { w.kernel.processTable r with state := .exited }
          else w.kernel.processTable r := by
        intro r
        unfold setState
        rw [← modify_processTable w.kernel p r fun x => { x with state := .exited }]
      constructor
      · refine (touches_setState w.kernel .exited).mono ?_
        intro r hr
        rw [hr]
        exact hreap.2
      · intro r
        rw [htable]
        split <;> rfl
      · unfold current
        rw [htable]
        split <;> rfl
      · intro r
        rw [htable]
        split <;> rfl
      · intro r
        rw [htable]
        by_cases hr : r = p
        · subst r
          right
          simp [hreap.2, hchild.1]
        · simp [hr]
    next => exact Reaps.refl w.kernel

theorem waitpidSlots_reaps (skip wanted : Proc → Bool) (slots : List Slot) (w : WaitScan) :
    Reaps w.kernel (slots.foldl (waitpidSlot skip wanted) w).kernel := by
  induction slots generalizing w with
  | nil => exact Reaps.refl w.kernel
  | cons p slots ih =>
      rw [List.foldl_cons]
      exact (waitpidSlot_reaps skip wanted w p).trans (ih _)

theorem waitpidScan_reaps (k : Kernel) (pid : ℤ) : Reaps k (k.waitpidScan pid).kernel :=
  waitpidSlots_reaps (waitpidSkip pid) (k.waitpidWanted pid) _ ⟨k, 0, 0, 0, none⟩

/-! ## The first process -/

/-- After `processes_init`, process 0 is alone on queue 0. -/
def initRings (q : ℕ) : List Slot := if q = 0 then [⟨0, zero_lt_nrProc⟩] else []

theorem onRing_initRings (r : Slot) : OnRing initRings r ↔ r.val = 0 := by
  unfold OnRing initRings
  constructor
  · intro ⟨q, hq⟩
    by_cases hzero : q = 0
    · simpa [hzero, Fin.ext_iff] using hq
    · simp [hzero] at hq
  · intro hzero
    exact ⟨0, by simp [Fin.ext_iff, hzero]⟩

theorem processesInit_linked : Linked processesInit initRings fun _ => False := by
  constructor
  · constructor
    · intro q
      by_cases hq : q = 0 <;> simp [processesInit, initRings, hq]
    · intro q hq
      by_cases hzero : q = 0
      · subst hzero
        unfold initRings
        rw [if_pos rfl, Links.isRing_single]
        exact ⟨by decide, by decide⟩
      · simp [initRings, hzero] at hq
    · intro q q' a ha ha'
      by_cases hq : q = 0 <;> by_cases hq' : q' = 0 <;> simp [initRings, hq, hq'] at ha ha' ⊢
  · intro q r hr
    by_cases hq : q = 0
    · simp only [processesInit, hq, Proc.zero]
      split <;> rfl
    · simp [initRings, hq] at hr
  · exact fun r hr => hr.elim
  · intro r _ hr
    rw [onRing_initRings] at hr
    simp [Unlinked, processesInit, hr, Proc.zero]

end Kernel

end Yak.Process
