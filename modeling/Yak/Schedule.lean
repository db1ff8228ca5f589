import Yak.ProcessQueues
import Mathlib.Tactic

/-!
# What one call of the scheduler does

`schedule` first wakes the slots whose timers ran out or whose sleep is broken
by a signal, then makes the head of the highest non-empty queue the current
process.  `Advance` records the first part for all slots at once, so that the
invariants of later files never unfold the loop.
-/

namespace Yak.Process

open LinkedRing

namespace Kernel

variable {k k' k₁ k₂ : Kernel} {rings rings' rings₁ rings₂ : ℕ → List Slot}
variable {loose : Slot → Prop} {p : Slot}

theorem Linked.modify (h : Linked k rings loose) {f : Proc → Proc}
    (hf : ∀ x, (f x).priority = x.priority ∧
      (f x).queueNext = x.queueNext ∧ (f x).queuePrev = x.queuePrev) :
    Linked (k.modify p f) rings loose := by
  apply h.congr
  · exact links_modify_of_bare k p f (hf _).2.1 (hf _).2.2
  · rfl
  · intro r
    rw [modify_processTable]
    split
    · exact (hf _).1
    · rfl

/-! ## The first loop -/

/-- How far the first loop of `schedule` may take a kernel: a slot keeps its
state and its place, or it is woken for one of the two reasons. -/
structure Advance (loose : Slot → Prop) (k k' : Kernel) (rings rings' : ℕ → List Slot) :
    Prop where
  slot : ∀ r,
    ((k'.processTable r).state = (k.processTable r).state ∧
        (OnRing rings' r ↔ OnRing rings r)) ∨
      ((k'.processTable r).state = .runnable ∧ OnRing rings' r ∧
        (k.ttyExpired r = true ∨ (k.processTable r).state = .sleepInterruptible))
  ttyBlock : ∀ r, (k'.processTable r).ttyBlock = (k.processTable r).ttyBlock ∨
    (k'.processTable r).ttyBlock = 0
  priority : ∀ r, (k'.processTable r).priority = (k.processTable r).priority
  links : ∀ r, loose r → k'.links.next r = k.links.next r ∧
    k'.links.prev r = k.links.prev r
  currentProcess : k'.currentProcess = k.currentProcess
  timerTicks : k'.timerTicks = k.timerTicks

theorem Advance.refl (loose : Slot → Prop) (k : Kernel) (rings : ℕ → List Slot) :
    Advance loose k k rings rings :=
  ⟨fun _ => Or.inl ⟨rfl, Iff.rfl⟩, fun _ => Or.inl rfl, fun _ => rfl,
    fun _ _ => ⟨rfl, rfl⟩, rfl, rfl⟩

theorem Advance.ttyExpired (h : Advance loose k k' rings rings') {r : Slot}
    (hr : k'.ttyExpired r = true) : k.ttyExpired r = true := by
  unfold Kernel.ttyExpired at hr ⊢
  rw [h.timerTicks] at hr
  rcases h.ttyBlock r with heq | hzero
  · rw [heq] at hr
    exact hr
  · simp [hzero] at hr

theorem Advance.trans (h₁ : Advance loose k k₁ rings rings₁)
    (h₂ : Advance loose k₁ k₂ rings₁ rings₂) : Advance loose k k₂ rings rings₂ := by
  constructor
  · intro r
    rcases h₂.slot r with ⟨heq, hring⟩ | ⟨hrun, hring, hcause⟩
    · rw [heq, hring]
      exact h₁.slot r
    · right
      refine ⟨hrun, hring, ?_⟩
      rcases hcause with hexp | hsleep
      · exact Or.inl (h₁.ttyExpired hexp)
      · rcases h₁.slot r with ⟨heq, _⟩ | ⟨hrun', _, hcause⟩
        · rw [heq] at hsleep
          exact Or.inr hsleep
        · exact hcause
  · intro r
    rcases h₂.ttyBlock r with heq | hzero
    · rw [heq]
      exact h₁.ttyBlock r
    · exact Or.inr hzero
  · intro r
    rw [h₂.priority, h₁.priority]
  · intro r hr
    rw [(h₂.links r hr).1, (h₂.links r hr).2]
    exact h₁.links r hr
  · rw [h₂.currentProcess, h₁.currentProcess]
  · rw [h₂.timerTicks, h₁.timerTicks]

/-- The slots which the first loop must not touch: their timers are not
running out and they do not sleep. -/
def Quiet (k : Kernel) (loose : Slot → Prop) : Prop :=
  ∀ r, loose r → k.ttyExpired r = false ∧ (k.processTable r).state ≠ .sleepInterruptible

theorem Advance.quiet (h : Advance loose k k' rings rings') (hquiet : Quiet k loose) :
    Quiet k' loose := by
  intro r hr
  obtain ⟨hexp, hsleep⟩ := hquiet r hr
  constructor
  · by_contra hne
    have := h.ttyExpired (Bool.eq_true_of_not_eq_false hne)
    simp [hexp] at this
  · rcases h.slot r with ⟨heq, _⟩ | ⟨hrun, _⟩
    · rw [heq]
      exact hsleep
    · rw [hrun]
      simp

/-- Writing fields of one process which neither the queues nor the wake-ups
depend on, or clearing its terminal timer. -/
theorem advance_modify {f : Proc → Proc}
    (hf : ∀ x, (f x).state = x.state ∧ (f x).priority = x.priority ∧
      (f x).queueNext = x.queueNext ∧ (f x).queuePrev = x.queuePrev)
    (htty : ∀ x, (f x).ttyBlock = x.ttyBlock ∨ (f x).ttyBlock = 0) :
    Advance loose k (k.modify p f) rings rings := by
  have hlinks : (k.modify p f).links = k.links :=
    links_modify_of_bare k p f (hf _).2.2.1 (hf _).2.2.2
  constructor
  · intro r
    left
    rw [modify_processTable]
    split
    · exact ⟨(hf _).1, Iff.rfl⟩
    · exact ⟨rfl, Iff.rfl⟩
  · intro r
    rw [modify_processTable]
    split
    · exact htty _
    · exact Or.inl rfl
  · intro r
    rw [modify_processTable]
    split
    · exact (hf _).2.1
    · rfl
  · intro r _
    rw [hlinks]
    exact ⟨rfl, rfl⟩
  · rfl
  · rfl

theorem raiseAlarm_advance (k : Kernel) (p : Slot) :
    Advance loose k (k.raiseAlarm p) rings rings := by
  unfold raiseAlarm
  split
  · exact advance_modify (fun x => ⟨rfl, rfl, rfl, rfl⟩) fun x => Or.inl rfl
  · exact Advance.refl loose k rings

theorem Linked.raiseAlarm (h : Linked k rings loose) (p : Slot) :
    Linked (k.raiseAlarm p) rings loose := by
  unfold Kernel.raiseAlarm
  split
  · exact h.modify fun x => ⟨rfl, rfl, rfl⟩
  · exact h

theorem Linked.wake (h : Linked k rings loose) (hp : ¬ loose p)
    (hcause : k.ttyExpired p = true ∨ (k.processTable p).state = .sleepInterruptible) :
    ∃ k' rings', (k.setState p .runnable).adjustProcQueues p = .ok k' ∧
      Linked k' rings' loose ∧ Advance loose k k' rings rings' := by
  have hset : Linked (k.setState p .runnable) rings loose :=
    h.modify fun x => ⟨rfl, rfl, rfl⟩
  have hlinks : (k.setState p .runnable).links = k.links :=
    links_modify_of_bare k p (fun x => { x with state := .runnable })
      rfl rfl
  obtain ⟨k', rings', hrun, hadj⟩ := hset.adjust hp
  have hcore := hadj.core
  refine ⟨k', rings', hrun, hadj.linked, ?_⟩
  have htable : ∀ r, (k.setState p .runnable).processTable r =
      if r = p then { k.processTable r with state := .runnable } else k.processTable r :=
    fun r => by
      unfold setState
      rw [← modify_processTable k p r fun x => { x with state := .runnable }]
  constructor
  · intro r
    rw [hcore.state, htable]
    by_cases hr : r = p
    · subst r
      right
      refine ⟨by simp, ?_, hcause⟩
      rw [hadj.here, htable]
      simp [ProcState.queued]
    · left
      rw [if_neg hr]
      exact ⟨rfl, hadj.others r hr⟩
  · intro r
    left
    rw [hcore.ttyBlock, htable]
    split <;> rfl
  · intro r
    rw [hcore.priority, htable]
    split <;> rfl
  · intro r hr
    have hframe := hadj.frame r hr
    unfold links at hlinks ⊢
    simp only [hframe]
    simp only [Links.mk.injEq] at hlinks
    exact ⟨congrFun hlinks.1 r, congrFun hlinks.2 r⟩
  · exact hcore.currentProcess
  · exact hcore.timerTicks

theorem Linked.expireTty (h : Linked k rings loose) (hquiet : Quiet k loose) (p : Slot) :
    ∃ k' rings', k.expireTty p = .ok k' ∧ Linked k' rings' loose ∧
      Advance loose k k' rings rings' := by
  unfold Kernel.expireTty
  cases hexp : k.ttyExpired p with
  | false => exact ⟨k, rings, rfl, h, Advance.refl loose k rings⟩
  | true =>
      have hp : ¬ loose p := by
        intro hp
        have := (hquiet p hp).1
        simp [hexp] at this
      obtain ⟨k₁, rings₁, hrun, hlinked, hadvance⟩ := h.wake hp (Or.inl hexp)
      refine ⟨k₁.modify p fun x => { x with ttyBlock := 0 }, rings₁, ?_, ?_, ?_⟩
      · simp only [if_true]
        rw [hrun]
        rfl
      · exact hlinked.modify fun x => ⟨rfl, rfl, rfl⟩
      · apply hadvance.trans
        exact advance_modify (fun x => ⟨rfl, rfl, rfl, rfl⟩) fun x => Or.inr rfl

theorem Linked.wakeOnSignal (h : Linked k rings loose) (hquiet : Quiet k loose) (p : Slot) :
    ∃ k' rings', k.wakeOnSignal p = .ok k' ∧ Linked k' rings' loose ∧
      Advance loose k k' rings rings' := by
  unfold Kernel.wakeOnSignal
  split
  next hwake => exact h.wake (fun hp => (hquiet p hp).2 hwake.1) (Or.inr hwake.1)
  next => exact ⟨k, rings, rfl, h, Advance.refl loose k rings⟩

theorem Linked.scheduleSlot (h : Linked k rings loose) (hquiet : Quiet k loose) (p : Slot) :
    ∃ k' rings', k.scheduleSlot p = .ok k' ∧ Linked k' rings' loose ∧
      Advance loose k k' rings rings' := by
  have ha : Advance loose k (k.raiseAlarm p) rings rings := raiseAlarm_advance k p
  obtain ⟨k₁, rings₁, hrun₁, h₁, ha₁⟩ := (h.raiseAlarm p).expireTty (ha.quiet hquiet) p
  obtain ⟨k₂, rings₂, hrun₂, h₂, ha₂⟩ :=
    h₁.wakeOnSignal ((ha.trans ha₁).quiet hquiet) p
  refine ⟨k₂, rings₂, ?_, h₂, (ha.trans ha₁).trans ha₂⟩
  unfold Kernel.scheduleSlot
  rw [hrun₁]
  exact hrun₂

theorem Linked.scheduleLoop (h : Linked k rings loose) (hquiet : Quiet k loose)
    (slots : List Slot) :
    ∃ k' rings', slots.foldlM Kernel.scheduleSlot k = .ok k' ∧
      Linked k' rings' loose ∧ Advance loose k k' rings rings' := by
  induction slots generalizing k rings with
  | nil => exact ⟨k, rings, rfl, h, Advance.refl loose k rings⟩
  | cons p slots ih =>
      obtain ⟨k₁, rings₁, hrun₁, h₁, ha₁⟩ := h.scheduleSlot hquiet p
      obtain ⟨k₂, rings₂, hrun₂, h₂, ha₂⟩ := ih h₁ (ha₁.quiet hquiet)
      refine ⟨k₂, rings₂, ?_, h₂, ha₁.trans ha₂⟩
      rw [List.foldlM_cons, hrun₁]
      exact hrun₂

/-! ## The choice -/

/-- The kernel after `schedule` has chosen `h`. -/
def run (k : Kernel) (h : Slot) : Kernel :=
  { k.setState h .running with currentProcess := h }

theorem run_processTable (k : Kernel) (h r : Slot) :
    (k.run h).processTable r =
      if r = h then { k.processTable r with state := .running } else k.processTable r := by
  unfold run setState
  rw [← modify_processTable k h r fun x => { x with state := .running }]

theorem run_links (k : Kernel) (h : Slot) : (k.run h).links = k.links :=
  links_modify_of_bare k h (fun x => { x with state := .running })
    rfl rfl

theorem Linked.run (h : Linked k rings loose) (c : Slot) :
    Linked (k.run c) rings loose := by
  apply h.congr
  · exact run_links k c
  · rfl
  · intro r
    rw [run_processTable]
    split <;> rfl

theorem Linked.pickNext (h : Linked k rings loose) (hrun : k.pickNext = .ok k') :
    ∃ c, OnRing rings c ∧ k' = k.run c := by
  unfold Kernel.pickNext at hrun
  cases hfind : queueOrder.findSome? k.processQueues with
  | none => simp [hfind] at hrun
  | some c =>
      rw [hfind] at hrun
      simp only [Except.ok.injEq] at hrun
      obtain ⟨q, _, hq⟩ := List.exists_of_findSome?_eq_some hfind
      obtain ⟨l, hl⟩ := h.family.eq_cons hq
      exact ⟨c, ⟨q, by simp [hl]⟩, hrun.symm⟩

/-- One call of `schedule`: the loop advances the slots, then a process on a
queue becomes the current one. -/
theorem Linked.schedule (h : Linked k rings loose) (hquiet : Quiet k loose)
    (hrun : k.schedule = .ok k') :
    ∃ k₁ rings' c, Advance loose k k₁ rings rings' ∧ Linked k₁ rings' loose ∧
      OnRing rings' c ∧ k' = k₁.run c := by
  obtain ⟨k₁, rings₁, hloop, h₁, ha⟩ := h.scheduleLoop hquiet (List.finRange nrProc)
  unfold Kernel.schedule at hrun
  rw [hloop] at hrun
  obtain ⟨c, hc, hk'⟩ := h₁.pickNext hrun
  exact ⟨k₁, rings₁, c, ha, h₁, hc, hk'⟩

end Kernel

end Yak.Process
