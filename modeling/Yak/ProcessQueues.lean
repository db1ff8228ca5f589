import Yak.Process
import Mathlib.Tactic

/-!
# The run queues as a family of rings

`adjust_proc_queues` is the only function that links and unlinks processes.
This file relates it to the generic rings: `Linked` says that the heads and
links form one ring for each priority, and `Adjusted` says what one call of
`adjust_proc_queues` does to the rings.  A slot whose links are not to be
trusted, because `kernel_fork` is filling it or gave it up half way, is kept
apart by the predicate `loose`.
-/

namespace Yak.Process

open LinkedRing

/-- A process without its links. -/
def Proc.bare (x : Proc) : Proc := { x with queueNext := none, queuePrev := none }

namespace Kernel

theorem modify_processTable (k : Kernel) (p r : Slot) (f : Proc → Proc) :
    (k.modify p f).processTable r =
      if r = p then f (k.processTable r) else k.processTable r := by
  unfold modify
  by_cases hr : r = p
  · subst r
    simp
  · simp [hr]

@[simp] theorem modify_currentProcess (k : Kernel) (p : Slot) (f : Proc → Proc) :
    (k.modify p f).currentProcess = k.currentProcess := rfl

@[simp] theorem modify_processQueues (k : Kernel) (p : Slot) (f : Proc → Proc) :
    (k.modify p f).processQueues = k.processQueues := rfl

@[simp] theorem modify_timerTicks (k : Kernel) (p : Slot) (f : Proc → Proc) :
    (k.modify p f).timerTicks = k.timerTicks := rfl

@[simp] theorem setQueue_processTable (k : Kernel) (q : ℕ) (v : Option Slot) :
    (k.setQueue q v).processTable = k.processTable := rfl

@[simp] theorem setQueue_processQueues (k : Kernel) (q : ℕ) (v : Option Slot) :
    (k.setQueue q v).processQueues = Function.update k.processQueues q v := rfl

@[simp] theorem setQueue_links (k : Kernel) (q : ℕ) (v : Option Slot) :
    (k.setQueue q v).links = k.links := rfl

theorem links_modify_queueNext (k : Kernel) (p : Slot) (v : Option Slot) :
    (k.modify p fun x => { x with queueNext := v }).links = k.links.setNext p v := by
  unfold links Links.setNext
  simp only [modify_processTable, Links.mk.injEq]
  constructor
  · funext r
    by_cases hr : r = p
    · simp [hr]
    · simp [hr]
  · funext r
    by_cases hr : r = p <;> simp [hr]

theorem links_modify_queuePrev (k : Kernel) (p : Slot) (v : Option Slot) :
    (k.modify p fun x => { x with queuePrev := v }).links = k.links.setPrev p v := by
  unfold links Links.setPrev
  simp only [modify_processTable, Links.mk.injEq]
  constructor
  · funext r
    by_cases hr : r = p <;> simp [hr]
  · funext r
    by_cases hr : r = p
    · simp [hr]
    · simp [hr]

theorem links_modify_both (k : Kernel) (p : Slot) (v w : Option Slot) :
    (k.modify p fun x => { x with queueNext := v, queuePrev := w }).links =
      (k.links.setNext p v).setPrev p w := by
  rw [← links_modify_queueNext, ← links_modify_queuePrev]
  congr 1
  unfold modify
  simp

theorem links_modify_of_bare (k : Kernel) (p : Slot) (f : Proc → Proc)
    (hnext : (f (k.processTable p)).queueNext = (k.processTable p).queueNext)
    (hprev : (f (k.processTable p)).queuePrev = (k.processTable p).queuePrev) :
    (k.modify p f).links = k.links := by
  unfold links
  simp only [modify_processTable, Links.mk.injEq]
  constructor
  · funext r
    by_cases hr : r = p <;> simp [hr, hnext]
  · funext r
    by_cases hr : r = p <;> simp [hr, hprev]

/-! ## What linking leaves unchanged -/

/-- The two kernels differ at most in links and queue heads. -/
structure SameCore (k k' : Kernel) : Prop where
  bare : ∀ p, (k'.processTable p).bare = (k.processTable p).bare
  currentProcess : k'.currentProcess = k.currentProcess
  lastPid : k'.lastPid = k.lastPid
  timerTicks : k'.timerTicks = k.timerTicks

theorem SameCore.refl (k : Kernel) : SameCore k k :=
  ⟨fun _ => rfl, rfl, rfl, rfl⟩

theorem SameCore.trans {k₁ k₂ k₃ : Kernel} (h : SameCore k₁ k₂) (h' : SameCore k₂ k₃) :
    SameCore k₁ k₃ :=
  ⟨fun p => (h'.bare p).trans (h.bare p), h'.currentProcess.trans h.currentProcess,
    h'.lastPid.trans h.lastPid, h'.timerTicks.trans h.timerTicks⟩

theorem SameCore.state {k k' : Kernel} (h : SameCore k k') (p : Slot) :
    (k'.processTable p).state = (k.processTable p).state := by
  have hbare := congrArg Proc.state (h.bare p)
  exact hbare

theorem SameCore.priority {k k' : Kernel} (h : SameCore k k') (p : Slot) :
    (k'.processTable p).priority = (k.processTable p).priority := by
  have hbare := congrArg Proc.priority (h.bare p)
  exact hbare

theorem SameCore.ttyBlock {k k' : Kernel} (h : SameCore k k') (p : Slot) :
    (k'.processTable p).ttyBlock = (k.processTable p).ttyBlock := by
  have hbare := congrArg Proc.ttyBlock (h.bare p)
  exact hbare

theorem SameCore.sigpending {k k' : Kernel} (h : SameCore k k') (p : Slot) :
    (k'.processTable p).sigpending = (k.processTable p).sigpending := by
  have hbare := congrArg Proc.sigpending (h.bare p)
  exact hbare

theorem SameCore.ppid {k k' : Kernel} (h : SameCore k k') (p : Slot) :
    (k'.processTable p).ppid = (k.processTable p).ppid := by
  have hbare := congrArg Proc.ppid (h.bare p)
  exact hbare

theorem SameCore.modify {k k' : Kernel} {p : Slot} {f : Proc → Proc}
    (h : SameCore k k') (hf : ∀ x, (f x).bare = x.bare) :
    SameCore k (k'.modify p f) := by
  refine ⟨?_, h.currentProcess, h.lastPid, h.timerTicks⟩
  intro r
  rw [modify_processTable]
  by_cases hr : r = p <;> simp [hr, hf, h.bare]

theorem SameCore.setQueue {k k' : Kernel} {q : ℕ} {v : Option Slot}
    (h : SameCore k k') : SameCore k (k'.setQueue q v) :=
  ⟨h.bare, h.currentProcess, h.lastPid, h.timerTicks⟩

theorem removeFromQueue_sameCore {k k' : Kernel} {p : Slot}
    (h : k.removeFromQueue p = .ok k') : SameCore k k' := by
  unfold removeFromQueue at h
  split at h
  · simp only [Except.ok.injEq] at h
    rw [← h]
    exact SameCore.refl k
  · simp only [Except.ok.injEq] at h
    rw [← h]
    split
    · refine SameCore.modify ?_ fun _ => rfl
      exact (SameCore.refl k).setQueue
    · refine SameCore.modify ?_ fun _ => rfl
      refine SameCore.setQueue ?_
      refine SameCore.modify ?_ fun _ => rfl
      refine SameCore.modify ?_ fun _ => rfl
      exact SameCore.refl k
  · simp at h

theorem addToQueue_sameCore {k k' : Kernel} {p : Slot}
    (h : k.addToQueue p = .ok k') : SameCore k k' := by
  unfold addToQueue at h
  split at h
  · simp only [Except.ok.injEq] at h
    rw [← h]
    refine SameCore.modify ?_ fun _ => rfl
    exact (SameCore.refl k).setQueue
  · split at h
    · simp at h
    · simp only [Except.ok.injEq] at h
      rw [← h]
      refine SameCore.modify ?_ fun _ => rfl
      refine SameCore.modify ?_ fun _ => rfl
      refine SameCore.modify ?_ fun _ => rfl
      refine SameCore.modify ?_ fun _ => rfl
      exact SameCore.refl k

theorem adjustProcQueues_sameCore {k k' : Kernel} {p : Slot}
    (h : k.adjustProcQueues p = .ok k') : SameCore k k' := by
  unfold adjustProcQueues at h
  rw [bind_eq_ok] at h
  obtain ⟨k₁, h₁, h₂⟩ := h
  have hfirst : SameCore k k₁ := by
    split at h₁
    · exact removeFromQueue_sameCore h₁
    · simp only [Except.ok.injEq] at h₁
      rw [← h₁]
      exact SameCore.refl k
  split at h₂
  · exact hfirst.trans (addToQueue_sameCore h₂)
  · simp only [Except.ok.injEq] at h₂
    rw [← h₂]
    exact hfirst

/-! ## Rings -/

def Unlinked (k : Kernel) (p : Slot) : Prop :=
  (k.processTable p).queueNext = none ∧ (k.processTable p).queuePrev = none

/-- The process is on one of the rings. -/
def OnRing (rings : ℕ → List Slot) (r : Slot) : Prop := ∃ q, r ∈ rings q

/-- The heads and links form disjoint rings, each holding processes of one
priority, and the links of all other processes are null. -/
structure Linked (k : Kernel) (rings : ℕ → List Slot) (loose : Slot → Prop) :
    Prop where
  family : Family k.links k.processQueues rings
  priority_of_mem : ∀ q r, r ∈ rings q → (k.processTable r).priority = q
  not_loose : ∀ r, loose r → ¬ OnRing rings r
  unlinked : ∀ r, ¬ loose r → ¬ OnRing rings r → k.Unlinked r

/-- The effect of one call of `adjust_proc_queues` on `p`. -/
structure Adjusted (k k' : Kernel) (rings rings' : ℕ → List Slot)
    (loose : Slot → Prop) (p : Slot) : Prop where
  linked : Linked k' rings' loose
  core : SameCore k k'
  others : ∀ r ≠ p, (OnRing rings' r ↔ OnRing rings r)
  here : OnRing rings' p ↔ (k.processTable p).state.queued = true
  frame : ∀ r, loose r → k'.processTable r = k.processTable r

variable {k k' : Kernel} {rings : ℕ → List Slot} {loose : Slot → Prop} {p : Slot}

theorem processTable_eq_of_bare {r : Slot}
    (hbare : (k'.processTable r).bare = (k.processTable r).bare)
    (hnext : k'.links.next r = k.links.next r)
    (hprev : k'.links.prev r = k.links.prev r) :
    k'.processTable r = k.processTable r := by
  unfold links at hnext hprev
  unfold Proc.bare at hbare
  cases hx : k'.processTable r
  cases hy : k.processTable r
  simp only [hx, hy, Proc.mk.injEq] at hbare hnext hprev ⊢
  simp [hbare, hnext, hprev]

theorem Linked.congr (h : Linked k rings loose)
    (hlinks : k'.links = k.links) (hqueues : k'.processQueues = k.processQueues)
    (hpriority : ∀ r, (k'.processTable r).priority = (k.processTable r).priority) :
    Linked k' rings loose := by
  constructor
  · rw [hlinks, hqueues]
    exact h.family
  · intro q r hr
    rw [hpriority]
    exact h.priority_of_mem q r hr
  · exact h.not_loose
  · intro r hb hq
    have hun := h.unlinked r hb hq
    have hnext : k'.links.next r = k.links.next r := by rw [hlinks]
    have hprev : k'.links.prev r = k.links.prev r := by rw [hlinks]
    exact ⟨hnext.trans hun.1, hprev.trans hun.2⟩

theorem Linked.not_onRing_of_unlinked (h : Linked k rings loose)
    (hun : k.Unlinked p) : ¬ OnRing rings p := by
  intro ⟨q, hmem⟩
  obtain ⟨n, _, hn, _⟩ := (h.family.isRing_of_mem hmem).links_of_mem hmem
  rw [show k.links.next p = none from hun.1] at hn
  simp at hn

theorem Linked.inAQueue (h : Linked k rings loose) (hp : ¬ loose p) :
    k.inAQueue p = true ↔ OnRing rings p := by
  unfold Kernel.inAQueue
  constructor
  · intro hin
    by_contra hring
    have hun := h.unlinked p hp hring
    simp [hun.1] at hin
  · intro ⟨q, hmem⟩
    obtain ⟨n, pv, hn, hpv, _⟩ := (h.family.isRing_of_mem hmem).links_of_mem hmem
    rw [show (k.processTable p).queueNext = some n from hn,
      show (k.processTable p).queuePrev = some pv from hpv]
    rfl

/-- What removal and insertion have in common: one ring is replaced, the
members of the new ring are those of the old one apart from `p`, and no link
of a process outside the ring is written. -/
theorem Linked.replace (h : Linked k rings loose) (hp : ¬ loose p) {q : ℕ}
    {l : List Slot} (hcore : SameCore k k')
    (hfamily : Family k'.links k'.processQueues (Function.update rings q l))
    (hl : ∀ r ≠ p, (r ∈ l ↔ r ∈ rings q))
    (hpriority : ∀ q', p ∈ Function.update rings q l q' → (k.processTable p).priority = q')
    (hother : ∀ r ≠ p, r ∉ rings q →
      k'.links.next r = k.links.next r ∧ k'.links.prev r = k.links.prev r)
    (hhere : ¬ OnRing (Function.update rings q l) p → k'.Unlinked p) :
    Linked k' (Function.update rings q l) loose ∧
      (∀ r ≠ p, (OnRing (Function.update rings q l) r ↔ OnRing rings r)) ∧
      (∀ r, loose r → k'.processTable r = k.processTable r) := by
  have hmem : ∀ r ≠ p, ∀ q', r ∈ Function.update rings q l q' ↔ r ∈ rings q' := by
    intro r hr q'
    by_cases hqq : q' = q
    · subst q'
      simp [hl r hr]
    · simp [Function.update_of_ne hqq]
  have hring : ∀ r ≠ p, (OnRing (Function.update rings q l) r ↔ OnRing rings r) :=
    fun r hr => exists_congr (hmem r hr)
  have hne : ∀ r, loose r → r ≠ p := by
    intro r hr heq
    exact hp (heq ▸ hr)
  refine ⟨?_, hring, ?_⟩
  · constructor
    · exact hfamily
    · intro q' r hr
      rw [hcore.priority]
      by_cases hrp : r = p
      · subst r
        exact hpriority q' hr
      · exact h.priority_of_mem q' r ((hmem r hrp q').mp hr)
    · intro r hr hon
      exact h.not_loose r hr ((hring r (hne r hr)).mp hon)
    · intro r hr hoff
      by_cases hrp : r = p
      · subst r
        exact hhere hoff
      · have hold : ¬ OnRing rings r := fun hon => hoff ((hring r hrp).mpr hon)
        have hun := h.unlinked r hr hold
        obtain ⟨hnext, hprev⟩ := hother r hrp fun hq => hold ⟨q, hq⟩
        exact ⟨hnext.trans hun.1, hprev.trans hun.2⟩
  · intro r hr
    obtain ⟨hnext, hprev⟩ := hother r (hne r hr) fun hq => h.not_loose r hr ⟨q, hq⟩
    exact processTable_eq_of_bare (hcore.bare r) hnext hprev

/-- Taking a process off its ring, which begins with the next one then. -/
theorem Linked.remove (h : Linked k rings loose) (hp : ¬ loose p) {q : ℕ} {l₁ l₂ : List Slot}
    (hq : rings q = l₁ ++ p :: l₂) :
    ∃ k', k.removeFromQueue p = .ok k' ∧
      Linked k' (Function.update rings q (l₂ ++ l₁)) loose ∧ k'.Unlinked p ∧
      (∀ r ≠ p, (OnRing (Function.update rings q (l₂ ++ l₁)) r ↔ OnRing rings r)) ∧
      (∀ r, loose r → k'.processTable r = k.processTable r) := by
  have hmem : p ∈ rings q := by simp [hq]
  have hpri : (k.processTable p).priority = q := h.priority_of_mem q p hmem
  have hring : k.links.IsRing (l₁ ++ p :: l₂) := by
    rw [← hq]
    exact h.family.isRing_of_mem hmem
  have hfront := hring.toFront
  obtain ⟨n, pv, hn, hpv, hnmem, hpvmem⟩ :=
    (h.family.isRing_of_mem hmem).links_of_mem hmem
  have hn' : (k.processTable p).queueNext = some n := hn
  have hpv' : (k.processTable p).queuePrev = some pv := hpv
  have hnot : ∀ (l : List Slot), p ∉ l → ∀ q', p ∈ Function.update rings q l q' →
      (k.processTable p).priority = q' := by
    intro l hl q' hq'
    by_cases hqq : q' = q
    · subst q'
      exact hpri
    · rw [Function.update_of_ne hqq] at hq'
      exact h.priority_of_mem q' p hq'
  cases hrest : l₂ ++ l₁ with
  | nil =>
      rw [hrest] at hfront
      have hself := Links.isRing_single.mp hfront
      have hnp : n = p := Option.some.inj (hn.symm.trans hself.1)
      have hpp : pv = p := Option.some.inj (hpv.symm.trans hself.2)
      have hsole : rings q = [p] := by
        have h₁ : l₁ = [] := (List.append_eq_nil_iff.mp hrest).2
        have h₂ : l₂ = [] := (List.append_eq_nil_iff.mp hrest).1
        rw [hq, h₁, h₂]
        rfl
      have hrun : k.removeFromQueue p = .ok ((k.setQueue q none).modify p
          fun x => { x with queueNext := none, queuePrev := none }) := by
        unfold Kernel.removeFromQueue
        rw [hn', hpv', hnp, hpp, hpri]
        simp
      have hun : ((k.setQueue q none).modify p
          fun x => { x with queueNext := none, queuePrev := none }).Unlinked p := by
        simp [Unlinked, modify_processTable]
      obtain ⟨hlinked, hothers, hframe⟩ := h.replace (l := []) (q := q) hp
        (removeFromQueue_sameCore hrun)
        (by
          rw [links_modify_both, setQueue_links, modify_processQueues,
            setQueue_processQueues]
          exact h.family.removeSole hsole)
        (by
          intro r hr
          rw [hsole]
          simp [hr])
        (hnot [] List.not_mem_nil)
        (by
          intro r hr _
          simp [links, modify_processTable, hr])
        (fun _ => hun)
      exact ⟨_, hrun, hlinked, hun, hothers, hframe⟩
  | cons b rest =>
      rw [← hrest]
      have hne : l₂ ++ l₁ ≠ [] := by
        rw [hrest]
        exact List.cons_ne_nil b rest
      have hnp : n ≠ p := by
        intro heq
        have hself : k.links.next p = some p := by
          rw [hn, heq]
        exact hne ((hfront.next_eq_self_iff).mp hself)
      have hpnot : p ∉ l₂ ++ l₁ := (List.nodup_cons.mp hfront.nodup).1
      have hrun : k.removeFromQueue p = .ok ((((k.modify n
          fun x => { x with queuePrev := some pv }).modify pv
            fun x => { x with queueNext := some n }).setQueue q (some n)).modify p
              fun x => { x with queueNext := none, queuePrev := none }) := by
        unfold Kernel.removeFromQueue
        rw [hn', hpv', hpri]
        simp [hnp]
      have hun : ((((k.modify n fun x => { x with queuePrev := some pv }).modify pv
            fun x => { x with queueNext := some n }).setQueue q (some n)).modify p
              fun x => { x with queueNext := none, queuePrev := none }).Unlinked p := by
        simp [Unlinked, modify_processTable]
      obtain ⟨hlinked, hothers, hframe⟩ := h.replace (l := l₂ ++ l₁) (q := q) hp
        (removeFromQueue_sameCore hrun)
        (by
          rw [links_modify_both, setQueue_links, links_modify_queueNext,
            links_modify_queuePrev, modify_processQueues, setQueue_processQueues,
            modify_processQueues, modify_processQueues]
          exact h.family.removeAdvance hq hne hn hpv)
        (by
          intro r hr
          rw [hq]
          simp only [List.mem_append, List.mem_cons]
          tauto)
        (hnot (l₂ ++ l₁) hpnot)
        (by
          intro r hr hrq
          have hrn : r ≠ n := fun heq => hrq (heq ▸ hnmem)
          have hrpv : r ≠ pv := fun heq => hrq (heq ▸ hpvmem)
          simp [links, modify_processTable, hr, hrn, hrpv])
        (fun _ => hun)
      exact ⟨_, hrun, hlinked, hun, hothers, hframe⟩

theorem Linked.removeFromQueue (h : Linked k rings loose) (hp : ¬ loose p) {q : ℕ}
    (hmem : p ∈ rings q) :
    ∃ k' rings', k.removeFromQueue p = .ok k' ∧ Linked k' rings' loose ∧
      k'.Unlinked p ∧ (∀ r ≠ p, (OnRing rings' r ↔ OnRing rings r)) ∧
      (∀ r, loose r → k'.processTable r = k.processTable r) := by
  obtain ⟨l₁, l₂, hq⟩ := List.append_of_mem hmem
  obtain ⟨k', hrun, hrest⟩ := h.remove hp hq
  exact ⟨k', _, hrun, hrest⟩

/-- Putting an unlinked process at the end of the ring of its priority. -/
theorem Linked.append (h : Linked k rings loose) (hp : ¬ loose p) (hun : k.Unlinked p) :
    ∃ k', k.addToQueue p = .ok k' ∧
      Linked k' (Function.update rings (k.processTable p).priority
        (rings (k.processTable p).priority ++ [p])) loose ∧
      (∀ r ≠ p, (OnRing (Function.update rings (k.processTable p).priority
        (rings (k.processTable p).priority ++ [p])) r ↔ OnRing rings r)) ∧
      (∀ r, loose r → k'.processTable r = k.processTable r) := by
  have hnone : ∀ q, p ∉ rings q := fun q hq => h.not_onRing_of_unlinked hun ⟨q, hq⟩
  set q := (k.processTable p).priority with hq
  have hpriority : ∀ (l : List Slot) q', p ∈ Function.update rings q l q' →
      (k.processTable p).priority = q' := by
    intro l q' hq'
    by_cases hqq : q' = q
    · exact hqq.symm
    · rw [Function.update_of_ne hqq] at hq'
      exact (hnone q' hq').elim
  cases hhead : k.processQueues q with
  | none =>
      have hempty : rings q = [] := (h.family.eq_nil_iff q).mp hhead
      have hrun : k.addToQueue p = .ok ((k.setQueue q (some p)).modify p
          fun x => { x with queuePrev := some p, queueNext := some p }) := by
        unfold Kernel.addToQueue
        rw [← hq, hhead]
      have hhere : OnRing (Function.update rings q [p]) p := ⟨q, by simp⟩
      obtain ⟨hlinked, hothers, hframe⟩ := h.replace (l := [p]) (q := q) hp
        (addToQueue_sameCore hrun)
        (by
          rw [links_modify_both, setQueue_links, modify_processQueues,
            setQueue_processQueues]
          exact h.family.addFirst hnone)
        (by
          intro r hr
          rw [hempty]
          simp [hr])
        (hpriority [p])
        (by
          intro r hr _
          simp [links, modify_processTable, hr])
        (fun hoff => (hoff hhere).elim)
      rw [hempty]
      exact ⟨_, hrun, hlinked, hothers, hframe⟩
  | some a =>
      obtain ⟨l, hl⟩ := h.family.eq_cons hhead
      have hring : k.links.IsRing (a :: l) := by
        rw [← hl]
        exact h.family.isRing q (by simp [hl])
      have hlength : l.length < nrProc + 1 := by
        have hcard := hring.nodup.length_le_card
        simp only [List.length_cons, Fintype.card_fin] at hcard
        omega
      obtain ⟨t, ht⟩ : ∃ t, (a :: l).getLast (List.cons_ne_nil a l) = t := ⟨_, rfl⟩
      have hwalk : k.links.walkLast a (nrProc + 1) a = some t := by
        rw [hring.walkLast hlength, ht]
      have hrun : k.addToQueue p =
          .ok ((((k.modify t fun x => { x with queueNext := some p }).modify p
            fun x => { x with queuePrev := some t }).modify p
              fun x => { x with queueNext := some a }).modify a
                fun x => { x with queuePrev := some p }) := by
        unfold Kernel.addToQueue
        rw [← hq, hhead]
        simp only
        rw [hwalk]
      have hta : t ∈ rings q := by
        rw [hl, ← ht]
        exact List.getLast_mem _
      have haa : a ∈ rings q := by
        simp [hl]
      have hhere : OnRing (Function.update rings q (a :: (l ++ [p]))) p := ⟨q, by simp⟩
      obtain ⟨hlinked, hothers, hframe⟩ := h.replace (l := a :: (l ++ [p])) (q := q) hp
        (addToQueue_sameCore hrun)
        (by
          rw [links_modify_queuePrev, links_modify_queueNext, links_modify_queuePrev,
            links_modify_queueNext, modify_processQueues, modify_processQueues,
            modify_processQueues, modify_processQueues]
          exact h.family.addLast hl ht hnone)
        (by
          intro r hr
          rw [hl]
          simp [hr])
        (hpriority _)
        (by
          intro r hr hrq
          have hrt : r ≠ t := fun heq => hrq (heq ▸ hta)
          have hra : r ≠ a := fun heq => hrq (heq ▸ haa)
          simp [links, modify_processTable, hr, hrt, hra])
        (fun hoff => (hoff hhere).elim)
      rw [hl]
      exact ⟨_, hrun, hlinked, hothers, hframe⟩

theorem Linked.addToQueue (h : Linked k rings loose) (hp : ¬ loose p)
    (hun : k.Unlinked p) :
    ∃ k' rings', k.addToQueue p = .ok k' ∧ Linked k' rings' loose ∧
      OnRing rings' p ∧ (∀ r ≠ p, (OnRing rings' r ↔ OnRing rings r)) ∧
      (∀ r, loose r → k'.processTable r = k.processTable r) := by
  obtain ⟨k', hrun, hlinked, hothers, hframe⟩ := h.append hp hun
  exact ⟨k', _, hrun, hlinked, ⟨(k.processTable p).priority, by simp⟩, hothers, hframe⟩

/-- `adjust_proc_queues` never fails on well-formed rings, and afterwards the
process is on a ring exactly if its state asks for one. -/
theorem Linked.adjust (h : Linked k rings loose) (hp : ¬ loose p) :
    ∃ k' rings', k.adjustProcQueues p = .ok k' ∧
      Adjusted k k' rings rings' loose p := by
  obtain ⟨k₁, rings₁, hrun₁, h₁, hun₁, hothers₁, hframe₁⟩ : ∃ k₁ rings₁,
      (if k.inAQueue p then k.removeFromQueue p else .ok k) = .ok k₁ ∧
        Linked k₁ rings₁ loose ∧ k₁.Unlinked p ∧
        (∀ r ≠ p, (OnRing rings₁ r ↔ OnRing rings r)) ∧
        (∀ r, loose r → k₁.processTable r = k.processTable r) := by
    by_cases hon : OnRing rings p
    · rw [if_pos ((h.inAQueue hp).mpr hon)]
      obtain ⟨q, hmem⟩ := hon
      exact h.removeFromQueue hp hmem
    · rw [if_neg fun hin => hon ((h.inAQueue hp).mp hin)]
      exact ⟨k, rings, rfl, h, h.unlinked p hp hon, fun _ _ => Iff.rfl, fun _ _ => rfl⟩
  have hcore₁ : SameCore k k₁ := by
    split at hrun₁
    · exact removeFromQueue_sameCore hrun₁
    · simp only [Except.ok.injEq] at hrun₁
      rw [← hrun₁]
      exact SameCore.refl k
  have hrun : k.adjustProcQueues p =
      if (k₁.processTable p).state.queued then k₁.addToQueue p else .ok k₁ := by
    unfold adjustProcQueues
    rw [hrun₁]
    rfl
  cases hstate : (k.processTable p).state.queued with
  | true =>
      obtain ⟨k₂, rings₂, hrun₂, h₂, hhere, hothers₂, hframe₂⟩ := h₁.addToQueue hp hun₁
      refine ⟨k₂, rings₂, ?_, ?_⟩
      · rw [hrun, hcore₁.state, hstate, if_pos rfl]
        exact hrun₂
      · constructor
        · exact h₂
        · exact hcore₁.trans (addToQueue_sameCore hrun₂)
        · intro r hr
          rw [hothers₂ r hr, hothers₁ r hr]
        · simp [hstate, hhere]
        · intro r hr
          rw [hframe₂ r hr, hframe₁ r hr]
  | false =>
      refine ⟨k₁, rings₁, ?_, ?_⟩
      · rw [hrun, hcore₁.state, hstate]
        rfl
      · constructor
        · exact h₁
        · exact hcore₁
        · exact hothers₁
        · simp [hstate, h₁.not_onRing_of_unlinked hun₁]
        · exact hframe₁

/-- Trust the links of a process again once they are null. -/
theorem Linked.tighten (h : Linked k rings loose) (hun : k.Unlinked p) :
    Linked k rings fun r => loose r ∧ r ≠ p := by
  constructor
  · exact h.family
  · exact h.priority_of_mem
  · intro r hr
    exact h.not_loose r hr.1
  · intro r hr hoff
    by_cases hrp : r = p
    · subst r
      exact hun
    · exact h.unlinked r (fun hl => hr ⟨hl, hrp⟩) hoff

/-- A slot off the rings may be overwritten if its links are then distrusted. -/
theorem Linked.overwrite (h : Linked k rings loose) (hp : ¬ OnRing rings p)
    (hqueues : k'.processQueues = k.processQueues)
    (hother : ∀ r ≠ p, k'.processTable r = k.processTable r) :
    Linked k' rings fun r => loose r ∨ r = p := by
  have hne : ∀ q, ∀ r ∈ rings q, r ≠ p := by
    intro q r hr heq
    exact hp ⟨q, heq ▸ hr⟩
  constructor
  · rw [hqueues]
    apply h.family.congr
    · intro q r hr
      simp only [links, hother r (hne q r hr)]
    · intro q r hr
      simp only [links, hother r (hne q r hr)]
  · intro q r hr
    rw [hother r (hne q r hr)]
    exact h.priority_of_mem q r hr
  · intro r hr
    rcases hr with hr | hr
    · exact h.not_loose r hr
    · rw [hr]
      exact hp
  · intro r hr hoff
    rw [not_or] at hr
    have hun := h.unlinked r hr.1 hoff
    unfold Unlinked
    rw [hother r hr.2]
    exact hun

end Kernel

end Yak.Process
