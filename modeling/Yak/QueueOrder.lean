import Yak.ProcessQueues
import Mathlib.Tactic

/-!
# The order of the run queues

`add_to_queue` puts a process behind the last one of its ring.  `remove_from_queue` makes the
process behind the one that leaves the head of the ring, wherever in the ring it was, so all
processes before it go to the end.
-/

namespace Yak.Process

open LinkedRing

namespace Kernel

/-- The processes on a queue, from `process_queues[q]` along `queue_next`. -/
def queueList (k : Kernel) (q : ℕ) : List Slot :=
  match k.processQueues q with
  | none => []
  | some h => k.links.collect h nrProc h

/-- Each queue is a ring of processes with its priority, and all other links are null. -/
def WellFormed (k : Kernel) : Prop := ∃ rings, Linked k rings fun _ => False

/-- The process which `schedule` would choose if it were not for `p`. -/
def firstOther (k : Kernel) (p : Slot) : Option Slot :=
  (queueOrder.flatMap k.queueList).find? (· ≠ p)

/-- `p` is added behind the others and removed from between them, and whatever its new state is,
the others are chosen in the same order. -/
structure FirstInFirstOut (k : Kernel) (p : Slot) : Prop where
  adds : (∀ q, p ∉ k.queueList q) →
    ∃ k', k.addToQueue p = .ok k' ∧
      k'.queueList (k.processTable p).priority =
        k.queueList (k.processTable p).priority ++ [p] ∧
      ∀ q ≠ (k.processTable p).priority, k'.queueList q = k.queueList q
  removes : ∀ q, p ∈ k.queueList q →
    ∃ k', k.removeFromQueue p = .ok k' ∧ k'.queueList q = (k.queueList q).erase p ∧
      ∀ q' ≠ q, k'.queueList q' = k.queueList q'
  keepsFirst : ∀ s, ∃ k', (k.setState p s).adjustProcQueues p = .ok k' ∧
    k'.firstOther p = k.firstOther p

/-- The process is on no queue, or the first or the last of its queue. -/
def AtEnd (k : Kernel) (p : Slot) : Prop :=
  ∀ q, p ∈ k.queueList q → (k.queueList q).head? = some p ∨ (k.queueList q).getLast? = some p

variable {k k' : Kernel} {rings : ℕ → List Slot} {loose : Slot → Prop} {p : Slot} {q : ℕ}
  {l₁ l₂ : List Slot}

/-! ## Queues as lists -/

theorem Linked.queueList (h : Linked k rings loose) (q : ℕ) : k.queueList q = rings q := by
  unfold Kernel.queueList
  cases hhead : k.processQueues q with
  | none => exact ((h.family.eq_nil_iff q).mp hhead).symm
  | some a =>
      obtain ⟨l, hl⟩ := h.family.eq_cons hhead
      have hring : k.links.IsRing (a :: l) := by
        rw [← hl]
        exact h.family.isRing q (by simp [hl])
      have hlength : l.length < nrProc := by
        have hcard := hring.nodup.length_le_card
        simp only [List.length_cons, Fintype.card_fin] at hcard
        omega
      rw [hl]
      exact hring.collect hlength

theorem find?_ne_eq (l : List Slot) (p : Slot) :
    l.find? (· ≠ p) = (l.filter (· ≠ p)).head? := (List.head?_filter ..).symm

/-- The choice among the others depends on the queues without the process only. -/
theorem firstOther_congr
    (h : ∀ q, (k'.queueList q).filter (· ≠ p) = (k.queueList q).filter (· ≠ p)) :
    k'.firstOther p = k.firstOther p := by
  unfold firstOther
  rw [find?_ne_eq, find?_ne_eq, List.filter_flatMap, List.filter_flatMap]
  congr 2
  funext q
  exact h q

/-! ## What a removal does to the order -/

/-- The two parts of a ring change places when the process between them is removed, which is no
change exactly if one of them is empty. -/
theorem append_comm_iff (hnodup : (l₁ ++ p :: l₂).Nodup) :
    l₂ ++ l₁ = (l₁ ++ p :: l₂).erase p ↔
      (l₁ ++ p :: l₂).head? = some p ∨ (l₁ ++ p :: l₂).getLast? = some p := by
  obtain ⟨h₁, h₂, hdisjoint⟩ := List.nodup_append.mp hnodup
  have hp₁ : p ∉ l₁ := fun hp => hdisjoint p hp p List.mem_cons_self rfl
  have hp₂ : p ∉ l₂ := (List.nodup_cons.mp h₂).1
  rw [List.erase_append_right _ hp₁, List.erase_cons_head]
  cases l₁ with
  | nil => simp
  | cons a l₁ =>
      have hap : a ≠ p := fun heq => hp₁ (heq ▸ List.mem_cons_self)
      cases l₂ with
      | nil => exact iff_of_true (by simp) (Or.inr List.getLast?_concat)
      | cons b l₂ =>
          have hba : b ≠ a := fun heq =>
            hdisjoint a List.mem_cons_self b (List.mem_cons_of_mem p List.mem_cons_self) heq.symm
          refine iff_of_false (fun heq => hba (List.cons.inj heq).1) ?_
          rintro (hhead | hlast)
          · exact hap (Option.some.inj hhead)
          · rw [List.append_cons, List.getLast?_append_of_ne_nil _ (List.cons_ne_nil b l₂)] at hlast
            exact hp₂ (List.mem_of_getLast? hlast)

theorem filter_append_self (l : List Slot) (p : Slot) :
    (l ++ [p]).filter (· ≠ p) = l.filter (· ≠ p) := by
  simp

/-- The links do not depend on the state. -/
theorem Linked.withState (h : Linked k rings loose) (s : ProcState) :
    Linked (k.setState p s) rings loose := by
  refine h.congr (links_modify_of_bare k p _ rfl rfl) rfl fun r => ?_
  unfold Kernel.setState
  rw [modify_processTable]
  split <;> rfl

theorem Linked.withState_queueList (h : Linked k rings loose) (s : ProcState) (q : ℕ) :
    (k.setState p s).queueList q = k.queueList q := by
  rw [(h.withState s).queueList, h.queueList]

/-- A process which is removed and perhaps added again does not change the order of the others
if it was at an end. -/
theorem Linked.keepsFirst (h : Linked k rings fun _ => False) (hend : k.AtEnd p) :
    ∃ k', k.adjustProcQueues p = .ok k' ∧ k'.firstOther p = k.firstOther p := by
  have hloose : ¬ (fun _ : Slot => False) p := id
  -- the queues once the process is on none of them
  obtain ⟨k₁, rings₁, hrun₁, h₁, hun₁, hfilter₁⟩ : ∃ k₁ rings₁,
      (if k.inAQueue p then k.removeFromQueue p else .ok k) = .ok k₁ ∧
        Linked k₁ rings₁ (fun _ => False) ∧ k₁.Unlinked p ∧
        ∀ q, (rings₁ q).filter (· ≠ p) = (rings q).filter (· ≠ p) := by
    by_cases hon : OnRing rings p
    · rw [if_pos ((h.inAQueue hloose).mpr hon)]
      obtain ⟨q, hmem⟩ := hon
      obtain ⟨l₁, l₂, hq⟩ := List.append_of_mem hmem
      obtain ⟨k₁, hrun, hlinked, hun, -⟩ := h.remove hloose hq
      refine ⟨k₁, _, hrun, hlinked, hun, fun q' => ?_⟩
      by_cases hqq : q' = q
      · subst hqq
        have hnodup : (l₁ ++ p :: l₂).Nodup := hq ▸ (h.family.isRing_of_mem hmem).nodup
        have hat := hend q' (by rwa [h.queueList])
        rw [h.queueList, hq, ← append_comm_iff hnodup] at hat
        rw [Function.update_self, hat, hq, hnodup.erase_eq_filter, List.filter_filter]
        refine List.filter_congr fun a _ => ?_
        by_cases ha : a = p <;> simp [ha]
      · rw [Function.update_of_ne hqq]
    · rw [if_neg fun hin => hon ((h.inAQueue hloose).mp hin)]
      exact ⟨k, rings, rfl, h, h.unlinked p hloose hon, fun _ => rfl⟩
  unfold adjustProcQueues
  rw [hrun₁]
  by_cases hstate : (k₁.processTable p).state.queued
  · obtain ⟨k₂, hrun₂, h₂, -⟩ := h₁.append hloose hun₁
    refine ⟨k₂, (if_pos hstate).trans hrun₂, firstOther_congr fun q => ?_⟩
    rw [h₂.queueList, h.queueList, ← hfilter₁ q]
    by_cases hqq : q = (k₁.processTable p).priority
    · subst hqq
      rw [Function.update_self, filter_append_self]
    · rw [Function.update_of_ne hqq]
  · refine ⟨k₁, if_neg hstate, firstOther_congr fun q => ?_⟩
    rw [h₁.queueList, h.queueList, hfilter₁ q]

/-- The queues are first-in first-out as long as no process leaves from between two others. -/
theorem firstInFirstOut_iff (h : k.WellFormed) : k.FirstInFirstOut p ↔ k.AtEnd p := by
  obtain ⟨rings, hlinked⟩ := h
  have hloose : ¬ (fun _ : Slot => False) p := id
  constructor
  · intro hfifo q hmem
    obtain ⟨k', hrun, hlist, -⟩ := hfifo.removes q hmem
    rw [hlinked.queueList] at hmem hlist ⊢
    obtain ⟨l₁, l₂, hq⟩ := List.append_of_mem hmem
    have hnodup : (l₁ ++ p :: l₂).Nodup := hq ▸ (hlinked.family.isRing_of_mem hmem).nodup
    obtain ⟨k₁, hrun₁, hlinked₁, -⟩ := hlinked.remove hloose hq
    obtain rfl : k₁ = k' := Except.ok.inj (hrun₁.symm.trans hrun)
    rw [hlinked₁.queueList, Function.update_self, hq] at hlist
    rw [hq]
    exact (append_comm_iff hnodup).mp hlist
  · intro hend
    refine ⟨?_, ?_, ?_⟩
    · intro hnone
      have hun : k.Unlinked p := hlinked.unlinked p hloose fun ⟨q, hq⟩ =>
        hnone q (by rwa [hlinked.queueList])
      obtain ⟨k', hrun, hlinked', -⟩ := hlinked.append hloose hun
      refine ⟨k', hrun, ?_, fun q hq => ?_⟩
      · rw [hlinked'.queueList, Function.update_self, hlinked.queueList]
      · rw [hlinked'.queueList, Function.update_of_ne hq, hlinked.queueList]
    · intro q hmem
      have hat := hend q hmem
      rw [hlinked.queueList] at hmem hat
      obtain ⟨l₁, l₂, hq⟩ := List.append_of_mem hmem
      have hnodup : (l₁ ++ p :: l₂).Nodup := hq ▸ (hlinked.family.isRing_of_mem hmem).nodup
      obtain ⟨k', hrun, hlinked', -⟩ := hlinked.remove hloose hq
      refine ⟨k', hrun, ?_, fun q' hq' => ?_⟩
      · rw [hq] at hat
        rw [hlinked'.queueList, Function.update_self, hlinked.queueList, hq]
        exact (append_comm_iff hnodup).mpr hat
      · rw [hlinked'.queueList, Function.update_of_ne hq', hlinked.queueList]
    · intro s
      have hend' : (k.setState p s).AtEnd p := fun q => by
        rw [hlinked.withState_queueList]
        exact hend q
      obtain ⟨k', hrun, hfirst⟩ := (hlinked.withState s).keepsFirst hend'
      refine ⟨k', hrun, hfirst.trans (firstOther_congr fun q => ?_)⟩
      rw [hlinked.withState_queueList]

/-! ## Three processes -/

/-- Three processes are ready to run. -/
def threeReady : Kernel where
  processTable p :=
    match p.val with
    | 1 =>
        { Proc.zero with
          pid := 1, state := .runnable, priority := 1
          queueNext := some ⟨2, two_lt_nrProc⟩, queuePrev := some ⟨3, three_lt_nrProc⟩ }
    | 2 =>
        { Proc.zero with
          pid := 2, state := .runnable, priority := 1
          queueNext := some ⟨3, three_lt_nrProc⟩, queuePrev := some ⟨1, one_lt_nrProc⟩ }
    | 3 =>
        { Proc.zero with
          pid := 3, state := .runnable, priority := 1
          queueNext := some ⟨1, one_lt_nrProc⟩, queuePrev := some ⟨2, two_lt_nrProc⟩ }
    | _ => Proc.zero
  currentProcess := ⟨1, one_lt_nrProc⟩
  processQueues q := if q = 1 then some ⟨1, one_lt_nrProc⟩ else none
  lastPid := 3
  timerTicks := 0

theorem wellFormed_threeReady : threeReady.WellFormed := by
  refine ⟨fun q => if q = 1 then [⟨1, by decide⟩, ⟨2, by decide⟩, ⟨3, by decide⟩] else [], ?_⟩
  refine ⟨⟨?_, ?_, ?_⟩, ?_, fun _ hr => hr.elim, ?_⟩
  · intro q
    by_cases hq : q = 1 <;> simp [threeReady, hq]
  · intro q hne
    by_cases hq : q = 1
    · subst hq
      rw [if_pos rfl]
      refine ⟨by decide, ?_⟩
      refine .cons_cons ⟨rfl, rfl⟩ (.cons_cons ⟨rfl, rfl⟩ (.cons_cons ⟨rfl, rfl⟩ ?_))
      exact List.isChain_singleton _
    · exact absurd (if_neg hq) hne
  · intro q q' a ha ha'
    by_cases hq : q = 1
    · by_cases hq' : q' = 1
      · rw [hq, hq']
      · rw [if_neg hq'] at ha'
        cases ha'
    · rw [if_neg hq] at ha
      cases ha
  · intro q r hr
    by_cases hq : q = 1
    · subst hq
      revert hr
      revert r
      decide
    · rw [if_neg hq] at hr
      cases hr
  · intro r _ hoff
    have hnot : r ∉ ([⟨1, by decide⟩, ⟨2, by decide⟩, ⟨3, by decide⟩] : List Slot) :=
      fun hr => hoff ⟨1, hr⟩
    clear hoff
    unfold Unlinked
    revert r
    decide

/-- The first process leaves, and the other two keep their order. -/
theorem firstInFirstOut_iff_threeReady :
    threeReady.FirstInFirstOut ⟨1, by decide⟩ ↔ threeReady.AtEnd ⟨1, by decide⟩ :=
  firstInFirstOut_iff wellFormed_threeReady

/-- The second process leaves, and the first one is behind the third. -/
theorem not_firstInFirstOut_threeReady : threeReady.WellFormed ∧
    ¬ ∀ p, threeReady.FirstInFirstOut p := by
  refine ⟨wellFormed_threeReady, fun hall => ?_⟩
  obtain ⟨k', hrun, hlist, -⟩ := (hall ⟨2, by decide⟩).removes 1 (by decide)
  have hrotated : (threeReady.removeFromQueue ⟨2, by decide⟩).map (·.queueList 1) =
      .ok [⟨3, by decide⟩, ⟨1, by decide⟩] := by
    decide +kernel
  rw [hrun] at hrotated
  have heq := hlist.symm.trans (Except.ok.inj hrotated)
  exact absurd heq (by decide)

end Kernel

end Yak.Process
