import Yak.Interrupts
import Mathlib.Tactic

/-!
# Live and dead slots under interrupts

The invariant which the kernel keeps between the steps of the machine: the run
queues are rings, dead processes are on none of them, and every slot which a
fork is filling is filled by one process only and has no links that count.
The lemmas say how the queue operations, the scheduler and the stages of
`kernel_fork` preserve it.
-/

namespace Yak.Process

open LinkedRing

namespace Kernel

/-- `p` is found by following the links from the head of queue `q`. -/
def OnQueue (k : Kernel) (q : ℕ) (p : Slot) : Prop :=
  ∃ h, k.processQueues q = some h ∧
    Relation.ReflTransGen (fun a b => k.links.next a = some b) h p

variable {k k' k₁ : Kernel} {rings rings' : ℕ → List Slot} {loose s : Slot → Prop}
variable {p : Slot}

theorem Linked.onRing_of_onQueue (h : Linked k rings loose) {q : ℕ}
    (hq : k.OnQueue q p) : OnRing rings p := by
  obtain ⟨a, ha, hreach⟩ := hq
  exact ⟨q, h.family.mem_of_reaches ha hreach⟩

/-! ## Stores -/

theorem store_sameCore (k : Kernel) (w : LinkStore) : SameCore k (k.store w) := by
  cases w with
  | head q v => exact (SameCore.refl k).setQueue
  | next p v =>
      unfold store
      exact (SameCore.refl k).modify fun _ => rfl
  | prev p v =>
      unfold store
      exact (SameCore.refl k).modify fun _ => rfl

theorem storeAll_sameCore (k : Kernel) (ws : List LinkStore) :
    SameCore k (k.storeAll ws) := by
  unfold storeAll
  induction ws generalizing k with
  | nil => exact SameCore.refl k
  | cons w ws ih => exact (store_sameCore k w).trans (ih (k.store w))

theorem storeAll_append (k : Kernel) (ws ws' : List LinkStore) :
    k.storeAll (ws ++ ws') = (k.storeAll ws).storeAll ws' := by
  unfold storeAll
  rw [List.foldl_append]

theorem modify_modify (k : Kernel) (p : Slot) (f g : Proc → Proc) :
    (k.modify p f).modify p g = k.modify p fun x => g (f x) := by
  unfold modify
  simp

theorem removeStores_eq (k : Kernel) (p : Slot) :
    (k.removeStores p).map k.storeAll = k.removeFromQueue p := by
  unfold removeStores removeFromQueue
  cases hprev : (k.processTable p).queuePrev with
  | none =>
      cases hnext : (k.processTable p).queueNext with
      | none => rfl
      | some next => rfl
  | some prev =>
      cases hnext : (k.processTable p).queueNext with
      | none => rfl
      | some next =>
          dsimp only
          split
          · simp only [Except.map, storeAll, List.foldl_cons, List.foldl_nil, store]
            rw [modify_modify]
          · simp only [Except.map, storeAll, List.foldl_cons, List.foldl_nil, store]
            rw [modify_modify]

theorem addStores_eq (k : Kernel) (p : Slot) :
    (k.addStores p).map k.storeAll = k.addToQueue p := by
  unfold addStores addToQueue
  cases hhead : k.processQueues (k.processTable p).priority with
  | none =>
      simp only [Except.map, storeAll, List.foldl_cons, List.foldl_nil, store]
      rw [modify_modify]
  | some h =>
      dsimp only
      cases hwalk : k.links.walkLast h (nrProc + 1) h with
      | none => rfl
      | some t => rfl

/-- The stores of `adjust_proc_queues`, one after the other, are the function. -/
theorem adjustStores_eq {ws : List LinkStore} (h : k.adjustStores p = .ok ws) :
    k.adjustProcQueues p = .ok (k.storeAll ws) := by
  unfold adjustStores at h
  rw [bind_eq_ok] at h
  obtain ⟨ws₁, hremove, h⟩ := h
  have hfirst : (if k.inAQueue p then k.removeFromQueue p else .ok k) =
      .ok (k.storeAll ws₁) := by
    split at hremove
    next hin => rw [if_pos hin, ← removeStores_eq, hremove, Except.map]
    next hin =>
      rw [if_neg hin]
      simp only [Except.ok.injEq] at hremove
      rw [← hremove]
      rfl
  unfold adjustProcQueues
  rw [hfirst]
  simp only [bind, Except.bind]
  rw [(storeAll_sameCore k ws₁).state]
  split at h
  next hqueued =>
    rw [if_pos hqueued, ← addStores_eq]
    cases hadd : (k.storeAll ws₁).addStores p with
    | error e => simp [hadd, Except.map] at h
    | ok ws₂ =>
        rw [hadd] at h
        simp only [Except.map, Except.ok.injEq] at h ⊢
        rw [← h, storeAll_append]
  next hqueued =>
    rw [if_neg hqueued]
    simp only [Except.ok.injEq] at h
    rw [h]

/-! ## The invariant -/

/-- What holds of the kernel and of the points which the processes have
reached.  `loose` are the slots being filled and those given up by a fork. -/
structure Base (k : Kernel) (pc : Slot → Pc) (rings : ℕ → List Slot)
    (loose : Slot → Prop) : Prop where
  linked : Linked k rings loose
  /-- A dead process on a queue is the current one, on its way out. -/
  dead_off : ∀ r, (k.processTable r).state.dead = true → OnRing rings r →
    r = k.currentProcess ∧ pc r = .exiting
  dead_idle : ∀ r, (k.processTable r).state.dead = true → (pc r).claims = none
  claim_loose : ∀ r c, (pc r).claims = some c → loose c
  claim_state : ∀ r c, (pc r).claims = some c →
    (pc r = .forkPicked c ∧ (k.processTable c).state = .exited) ∨
      (k.processTable c).state.queued = true
  claim_idle : ∀ r c, (pc r).claims = some c → (pc c).claims = none
  claim_inj : ∀ r r' c, (pc r).claims = some c → (pc r').claims = some c → r = r'
  built : ∀ r c, pc r = .forkBuilt c → k.Unlinked c
  loose_cases : ∀ r, loose r →
    (∃ r', (pc r').claims = some r) ∨ (k.processTable r).state = .exited
  current_free : ¬ loose k.currentProcess
  exiting_dead : pc k.currentProcess = .exiting → k.current.state.dead = true
  parked : ∀ r ≠ k.currentProcess, pc r ≠ .exiting ∧ (pc r).isLinking = false

variable {pc : Slot → Pc}

/-- No dead slot, and no slot being filled, has a terminal timer that has run
out. -/
def NoLateTimer (k : Kernel) (pc : Slot → Pc) : Prop :=
  ∀ r, ((k.processTable r).state.dead = true ∨ ∃ r', (pc r').claims = some r) →
    k.ttyExpired r = false

/-- Every dead slot keeps its state. -/
def KeepsDead (k k' : Kernel) : Prop :=
  ∀ r, (k.processTable r).state.dead = true →
    (k'.processTable r).state = (k.processTable r).state

theorem KeepsDead.trans (h : KeepsDead k k₁) (h' : KeepsDead k₁ k') : KeepsDead k k' := by
  intro r hr
  have heq := h r hr
  rw [h' r (by rw [heq]; exact hr), heq]

theorem SameCore.keepsDead (h : SameCore k k') : KeepsDead k k' := fun r _ => h.state r

theorem not_dead_of_queued {state : ProcState} (h : state.queued = true) :
    state.dead = false := by
  cases state <;> simp_all [ProcState.queued, ProcState.dead]

/-- A slot being filled or given up neither sleeps nor is a zombie. -/
theorem Base.loose_state (h : Base k pc rings loose) {r : Slot} (hr : loose r) :
    (k.processTable r).state = .exited ∨ (k.processTable r).state.queued = true := by
  rcases h.loose_cases r hr with ⟨r', hr'⟩ | hexited
  · exact (h.claim_state r' r hr').imp_left fun hpicked => hpicked.2
  · exact Or.inl hexited

theorem Base.quiet (h : Base k pc rings loose) (hlate : NoLateTimer k pc) :
    Quiet k loose := by
  intro r hr
  constructor
  · apply hlate
    rcases h.loose_cases r hr with hclaim | hexited
    · exact Or.inr hclaim
    · left
      rw [hexited]
      rfl
  · intro hsleep
    rcases h.loose_state hr with hexited | hqueued
    · rw [hexited] at hsleep
      simp at hsleep
    · rw [hsleep] at hqueued
      simp [ProcState.queued] at hqueued

/-- Stretches of code which leave the slots of `loose` alone and kill nobody
that is on a ring. -/
theorem Base.touches (h : Base k pc rings loose) (ht : Touches s k k')
    (hs : ∀ r, s r → ¬ loose r)
    (hdead : ∀ r, (k'.processTable r).state.dead = true →
      (k.processTable r).state.dead = true)
    (hcurrent : k.current.state.dead = true → k'.current.state.dead = true) :
    Base k' pc rings loose := by
  have hloose : ∀ r, loose r → (k'.processTable r).state = (k.processTable r).state :=
    fun r hr => ht.state r fun hsr => hs r hsr hr
  constructor
  · exact ht.linked h.linked
  · intro r hr hon
    rw [ht.currentProcess]
    exact h.dead_off r (hdead r hr) hon
  · intro r hr
    exact h.dead_idle r (hdead r hr)
  · exact h.claim_loose
  · intro r c hc
    rw [hloose c (h.claim_loose r c hc)]
    exact h.claim_state r c hc
  · exact h.claim_idle
  · exact h.claim_inj
  · intro r c hc
    have hun := h.built r c hc
    have hnext : k'.links.next c = k.links.next c := by rw [ht.links]
    have hprev : k'.links.prev c = k.links.prev c := by rw [ht.links]
    exact ⟨hnext.trans hun.1, hprev.trans hun.2⟩
  · intro r hr
    rw [hloose r hr]
    exact h.loose_cases r hr
  · rw [ht.currentProcess]
    exact h.current_free
  · intro hpc
    apply hcurrent
    apply h.exiting_dead
    rw [← ht.currentProcess]
    exact hpc
  · rw [ht.currentProcess]
    exact h.parked

theorem Base.adjust (h : Base k pc rings loose) (ht : Touches (· = p) k k₁)
    (hp : ¬ loose p)
    (hidle : (k₁.processTable p).state.dead = true → (pc p).claims = none)
    (hexit : p = k.currentProcess → pc p = .exiting →
      (k₁.processTable p).state.dead = true) :
    ∃ k' rings', k₁.adjustProcQueues p = .ok k' ∧ Base k' pc rings' loose ∧
      SameCore k₁ k' ∧ (OnRing rings' p ↔ (k₁.processTable p).state.queued = true) := by
  obtain ⟨k', rings', hrun, hadj⟩ := (ht.linked h.linked).adjust hp
  have hcore := hadj.core
  have hloose : ∀ r, loose r → r ≠ p := fun r hr heq => hp (heq ▸ hr)
  have hstate : ∀ r ≠ p, (k'.processTable r).state = (k.processTable r).state := by
    intro r hr
    rw [hcore.state, ht.state r hr]
  have hcur : k'.currentProcess = k.currentProcess := by
    rw [hcore.currentProcess, ht.currentProcess]
  refine ⟨k', rings', hrun, ?_, hcore, hadj.here⟩
  constructor
  · exact hadj.linked
  · intro r hr hon
    by_cases hrp : r = p
    · subst r
      rw [hadj.here] at hon
      rw [hcore.state, not_dead_of_queued hon] at hr
      simp at hr
    · rw [hstate r hrp] at hr
      rw [hcur]
      exact h.dead_off r hr ((hadj.others r hrp).mp hon)
  · intro r hr
    by_cases hrp : r = p
    · subst r
      rw [hcore.state] at hr
      exact hidle hr
    · rw [hstate r hrp] at hr
      exact h.dead_idle r hr
  · exact h.claim_loose
  · intro r c hc
    rw [hstate c (hloose c (h.claim_loose r c hc))]
    exact h.claim_state r c hc
  · exact h.claim_idle
  · exact h.claim_inj
  · intro r c hc
    have hl : loose c := h.claim_loose r c (by rw [hc]; rfl)
    have hun := h.built r c hc
    have hnext : k₁.links.next c = k.links.next c := by rw [ht.links]
    have hprev : k₁.links.prev c = k.links.prev c := by rw [ht.links]
    unfold Unlinked
    rw [hadj.frame c hl]
    exact ⟨hnext.trans hun.1, hprev.trans hun.2⟩
  · intro r hr
    rw [hstate r (hloose r hr)]
    exact h.loose_cases r hr
  · rw [hcur]
    exact h.current_free
  · intro hpc
    rw [hcur] at hpc
    unfold current
    rw [hcur]
    by_cases hrp : k.currentProcess = p
    · rw [hrp, hcore.state]
      apply hexit hrp.symm
      rw [← hrp]
      exact hpc
    · rw [hstate _ hrp]
      exact h.exiting_dead hpc
  · rw [hcur]
    exact h.parked

theorem Base.all_parked (h : Base k pc rings loose)
    (hexit : pc k.currentProcess ≠ .exiting)
    (hlink : (pc k.currentProcess).isLinking = false) (r : Slot) :
    pc r ≠ .exiting ∧ (pc r).isLinking = false := by
  by_cases hr : r = k.currentProcess
  · rw [hr]
    exact ⟨hexit, hlink⟩
  · exact h.parked r hr

/-- One call of `schedule`, made by a process which is not half way out. -/
theorem Base.schedule (h : Base k pc rings loose) (hlate : NoLateTimer k pc)
    (hexit : pc k.currentProcess ≠ .exiting)
    (hlink : (pc k.currentProcess).isLinking = false)
    (hrun : k.schedule = .ok k') :
    ∃ rings', Base k' pc rings' loose ∧ KeepsDead k k' ∧
      k'.current.state.queued = true ∧
      ∀ r, (k'.processTable r).state.dead = true → ¬ OnRing rings' r := by
  have hquiet := h.quiet hlate
  obtain ⟨k₁, rings₁, c, hadv, hlinked, hc, rfl⟩ := h.linked.schedule hquiet hrun
  have hcloose : ¬ loose c := fun hl => hlinked.not_loose c hl hc
  have hparked := h.all_parked hexit hlink
  have hoff : ∀ r, (k.processTable r).state.dead = true → ¬ OnRing rings r := by
    intro r hr hon
    exact (hparked r).1 (h.dead_off r hr hon).2
  -- the loop leaves dead slots where they are
  have hkeep : ∀ r, (k.processTable r).state.dead = true →
      (k₁.processTable r).state = (k.processTable r).state ∧ ¬ OnRing rings₁ r := by
    intro r hr
    rcases hadv.slot r with ⟨hstate, hring⟩ | ⟨_, _, hexp | hsleep⟩
    · exact ⟨hstate, fun hon => hoff r hr (hring.mp hon)⟩
    · rw [hlate r (Or.inl hr)] at hexp
      simp at hexp
    · rw [hsleep] at hr
      simp [ProcState.dead] at hr
  have hback : ∀ r, (k₁.processTable r).state.dead = true →
      (k.processTable r).state.dead = true := by
    intro r hr
    rcases hadv.slot r with ⟨hstate, _⟩ | ⟨hstate, _⟩
    · rw [← hstate]
      exact hr
    · rw [hstate] at hr
      simp [ProcState.dead] at hr
  have hrunState : ∀ r ≠ c, ((k₁.run c).processTable r).state = (k₁.processTable r).state := by
    intro r hr
    rw [run_processTable, if_neg hr]
  have hrunDead : ∀ r, ((k₁.run c).processTable r).state.dead = true →
      r ≠ c ∧ (k₁.processTable r).state.dead = true := by
    intro r hr
    by_cases hrc : r = c
    · rw [run_processTable, if_pos hrc] at hr
      simp [ProcState.dead] at hr
    · rw [hrunState r hrc] at hr
      exact ⟨hrc, hr⟩
  have hloose : ∀ r, loose r →
      ((k₁.run c).processTable r).state = (k.processTable r).state := by
    intro r hr
    rw [hrunState r fun heq => hcloose (heq ▸ hr)]
    rcases hadv.slot r with ⟨hstate, _⟩ | ⟨_, _, hexp | hsleep⟩
    · exact hstate
    · rw [(hquiet r hr).1] at hexp
      simp at hexp
    · exact ((hquiet r hr).2 hsleep).elim
  refine ⟨rings₁, ?_, ?_, ?_, ?_⟩
  · constructor
    · exact hlinked.run c
    · intro r hr hon
      obtain ⟨_, hr₁⟩ := hrunDead r hr
      exact ((hkeep r (hback r hr₁)).2 hon).elim
    · intro r hr
      exact h.dead_idle r (hback r (hrunDead r hr).2)
    · exact h.claim_loose
    · intro r c' hc'
      rw [hloose c' (h.claim_loose r c' hc')]
      exact h.claim_state r c' hc'
    · exact h.claim_idle
    · exact h.claim_inj
    · intro r c' hc'
      have hl : loose c' := h.claim_loose r c' (by rw [hc']; rfl)
      have hun := h.built r c' hc'
      have hlinks := hadv.links c' hl
      rw [← run_links k₁ c] at hlinks
      exact ⟨hlinks.1.trans hun.1, hlinks.2.trans hun.2⟩
    · intro r hr
      rw [hloose r hr]
      exact h.loose_cases r hr
    · exact hcloose
    · intro hpc
      exact ((hparked c).1 hpc).elim
    · intro r _
      exact hparked r
  · intro r hr
    obtain ⟨hstate, hoff₁⟩ := hkeep r hr
    rw [hrunState r fun heq => hoff₁ (heq ▸ hc), hstate]
  · unfold current
    rw [run_processTable]
    simp [Kernel.run, ProcState.queued]
  · intro r hr
    exact (hkeep r (hback r (hrunDead r hr).2)).2

theorem NoLateTimer.congr (h : NoLateTimer k pc)
    (hdead : ∀ r, (k'.processTable r).state.dead = true →
      (k.processTable r).state.dead = true)
    (htty : ∀ r, (k'.processTable r).ttyBlock = (k.processTable r).ttyBlock)
    (hticks : k'.timerTicks = k.timerTicks) : NoLateTimer k' pc := by
  intro r hr
  have hexp := h r (hr.imp_left (hdead r))
  unfold ttyExpired at hexp ⊢
  rw [htty, hticks]
  exact hexp

/-- A live process gives up the processor: it writes its own slot, calls
`adjust_proc_queues`, then `schedule`. -/
theorem Base.adjust_schedule (h : Base k pc rings loose) (hlate : NoLateTimer k pc)
    (halive : k.current.state.dead = false)
    (hlink : (pc k.currentProcess).isLinking = false)
    (ht : Touches (· = k.currentProcess) k k₁)
    (htty : k₁.current.ttyBlock = k.current.ttyBlock)
    (hnew : k₁.current.state.dead = false)
    (hrun : (k₁.adjustProcQueues k.currentProcess >>= Kernel.schedule) = .ok k') :
    ∃ rings', Base k' pc rings' loose ∧ KeepsDead k k' ∧
      k'.current.state.queued = true ∧
      ∀ r, (k'.processTable r).state.dead = true → ¬ OnRing rings' r := by
  unfold current at halive htty hnew
  rw [ht.currentProcess] at htty hnew
  have hexit : pc k.currentProcess ≠ .exiting := by
    intro hpc
    have hdead := h.exiting_dead hpc
    unfold current at hdead
    rw [halive] at hdead
    simp at hdead
  obtain ⟨k₂, rings₂, hadj, h₂, hcore, _⟩ := h.adjust ht h.current_free
    (fun hdead => by simp [hnew] at hdead) (fun _ hpc => (hexit hpc).elim)
  rw [hadj] at hrun
  have hcur : k₂.currentProcess = k.currentProcess := by
    rw [hcore.currentProcess, ht.currentProcess]
  have hdead : ∀ r, (k₂.processTable r).state.dead = true →
      (k.processTable r).state.dead = true := by
    intro r hr
    rw [hcore.state] at hr
    by_cases hrc : r = k.currentProcess
    · rw [hrc, hnew] at hr
      simp at hr
    · rw [ht.state r hrc] at hr
      exact hr
  have hlate₂ : NoLateTimer k₂ pc := by
    apply hlate.congr hdead
    · intro r
      rw [hcore.ttyBlock]
      by_cases hrc : r = k.currentProcess
      · rw [hrc, htty]
      · rw [ht.ttyBlock r hrc]
    · rw [hcore.timerTicks, ht.timerTicks]
  obtain ⟨rings', hbase, hkeeps, hqueued, hoff⟩ := h₂.schedule hlate₂
    (by rw [hcur]; exact hexit) (by rw [hcur]; exact hlink) hrun
  refine ⟨rings', hbase, KeepsDead.trans ?_ hkeeps, hqueued, hoff⟩
  intro r hr
  have hrc : r ≠ k.currentProcess := by
    intro heq
    rw [heq, halive] at hr
    simp at hr
  rw [hcore.state, ht.state r hrc]

/-- What the loop of `wakeup` leaves unchanged. -/
structure Wakes (k k' : Kernel) : Prop where
  state : ∀ r, (k'.processTable r).state = (k.processTable r).state ∨
    ((k.processTable r).state.sleeping = true ∧ (k'.processTable r).state = .runnable)
  ttyBlock : ∀ r, (k'.processTable r).ttyBlock = (k.processTable r).ttyBlock
  currentProcess : k'.currentProcess = k.currentProcess
  timerTicks : k'.timerTicks = k.timerTicks

theorem Wakes.dead_iff (h : Wakes k k') (r : Slot) :
    (k'.processTable r).state.dead = (k.processTable r).state.dead := by
  rcases h.state r with heq | ⟨hsleep, hrun⟩
  · rw [heq]
  · rw [hrun]
    cases hstate : (k.processTable r).state <;>
      simp_all [ProcState.sleeping, ProcState.dead]

theorem Wakes.trans (h : Wakes k k₁) (h' : Wakes k₁ k') : Wakes k k' := by
  constructor
  · intro r
    rcases h'.state r with heq | ⟨hsleep, hrun⟩
    · rw [heq]
      exact h.state r
    · rcases h.state r with heq | ⟨hsleep', _⟩
      · rw [heq] at hsleep
        exact Or.inr ⟨hsleep, hrun⟩
      · exact Or.inr ⟨hsleep', hrun⟩
  · intro r
    rw [h'.ttyBlock, h.ttyBlock]
  · rw [h'.currentProcess, h.currentProcess]
  · rw [h'.timerTicks, h.timerTicks]

theorem Base.wakeupSlot (h : Base k pc rings loose) {addr : ℕ} {flag : Bool}
    {r : Kernel × Bool} (hrun : Kernel.wakeupSlot addr (k, flag) p = .ok r) :
    ∃ rings', Base r.1 pc rings' loose ∧ Wakes k r.1 := by
  unfold Kernel.wakeupSlot at hrun
  split at hrun
  next hsleep =>
    have hsleeping : (k.processTable p).state.sleeping = true := hsleep.1
    have hp : ¬ loose p := by
      intro hl
      have hstate := h.loose_state hl
      cases hp : (k.processTable p).state <;>
        simp_all [ProcState.sleeping, ProcState.queued]
    have ht : Touches (· = p) k (k.modify p fun x =>
        { x with state := .runnable, sleepingOn := none }) :=
      touches_modify k ⟨rfl, rfl, rfl⟩
    obtain ⟨k₂, rings₂, hadj, h₂, hcore, _⟩ := h.adjust ht hp
      (fun hdead => by simp [modify_processTable, ProcState.dead] at hdead)
      (by
        intro hcur hpc
        have hdead := h.exiting_dead (hcur ▸ hpc)
        unfold current at hdead
        rw [← hcur] at hdead
        cases hp : (k.processTable p).state <;>
          simp_all [ProcState.sleeping, ProcState.dead])
    obtain ⟨k₃, hadj', hret⟩ := bind_eq_ok.mp hrun
    obtain rfl := Except.ok.inj hret
    rw [hadj] at hadj'
    obtain rfl := Except.ok.inj hadj'
    refine ⟨rings₂, h₂, ?_, ?_, ?_, ?_⟩
    · intro r
      rw [hcore.state, modify_processTable]
      by_cases hr : r = p
      · rw [if_pos hr, hr]
        exact Or.inr ⟨hsleeping, rfl⟩
      · rw [if_neg hr]
        exact Or.inl rfl
    · intro r
      rw [hcore.ttyBlock, modify_processTable]
      split <;> rfl
    · rw [hcore.currentProcess, modify_currentProcess]
    · rw [hcore.timerTicks, modify_timerTicks]
  next =>
    obtain rfl := Except.ok.inj hrun
    exact ⟨rings, h, fun _ => Or.inl rfl, fun _ => rfl, rfl, rfl⟩

theorem Base.wakeupSlots (h : Base k pc rings loose) {addr : ℕ} (slots : List Slot)
    {flag : Bool} {r : Kernel × Bool}
    (hrun : slots.foldlM (Kernel.wakeupSlot addr) (k, flag) = .ok r) :
    ∃ rings', Base r.1 pc rings' loose ∧ Wakes k r.1 := by
  refine foldlM_invariant (fun r : Kernel × Bool => ∃ rings', Base r.1 pc rings' loose ∧
    Wakes k r.1) ?_ ⟨rings, h, fun _ => Or.inl rfl, fun _ => rfl, rfl, rfl⟩ hrun
  rintro r₁ p r₂ _ ⟨rings₁, h₁, hwakes⟩ hstep
  obtain ⟨rings₂, h₂, hwakes'⟩ := h₁.wakeupSlot hstep
  exact ⟨rings₂, h₂, hwakes.trans hwakes'⟩

/-! ## Points of the current process -/

theorem Base.goto (h : Base k pc rings loose) {x : Pc}
    (hclaims : x.claims = (pc k.currentProcess).claims)
    (hexit : k.current.state.dead = true → OnRing rings k.currentProcess → x = .exiting)
    (hdead : x = .exiting → k.current.state.dead = true)
    (hstate : ∀ c, x.claims = some c → (k.processTable c).state.queued = true)
    (hbuilt : ∀ c, x = .forkBuilt c → k.Unlinked c) :
    Base k (Function.update pc k.currentProcess x) rings loose := by
  have hall : ∀ r, (Function.update pc k.currentProcess x r).claims = (pc r).claims := by
    intro r
    by_cases hr : r = k.currentProcess
    · subst r
      rw [Function.update_self, hclaims]
    · rw [Function.update_of_ne hr]
  constructor
  · exact h.linked
  · intro r hr hon
    obtain ⟨hcur, _⟩ := h.dead_off r hr hon
    subst hcur
    exact ⟨rfl, by rw [Function.update_self]; exact hexit hr hon⟩
  · intro r hr
    rw [hall]
    exact h.dead_idle r hr
  · intro r c hc
    rw [hall] at hc
    exact h.claim_loose r c hc
  · intro r c hc
    by_cases hr : r = k.currentProcess
    · rw [hr, Function.update_self] at hc
      exact Or.inr (hstate c hc)
    · rw [Function.update_of_ne hr] at hc ⊢
      exact h.claim_state r c hc
  · intro r c hc
    rw [hall] at hc ⊢
    exact h.claim_idle r c hc
  · intro r r' c hc hc'
    rw [hall] at hc hc'
    exact h.claim_inj r r' c hc hc'
  · intro r c hc
    by_cases hr : r = k.currentProcess
    · subst r
      rw [Function.update_self] at hc
      exact hbuilt c hc
    · rw [Function.update_of_ne hr] at hc
      exact h.built r c hc
  · intro r hr
    rcases h.loose_cases r hr with ⟨r', hr'⟩ | hexited
    · exact Or.inl ⟨r', by rw [hall]; exact hr'⟩
    · exact Or.inr hexited
  · exact h.current_free
  · intro hpc
    rw [Function.update_self] at hpc
    exact hdead hpc
  · intro r hr
    rw [Function.update_of_ne hr]
    exact h.parked r hr

theorem Base.fill (h : Base k pc rings loose) {c : Slot} {f : Proc → Proc}
    (hclaim : (pc k.currentProcess).claims = some c)
    (hpc : pc k.currentProcess ≠ .forkBuilt c)
    (hf : (pc k.currentProcess = .forkPicked c ∧ (f (k.processTable c)).state = .exited) ∨
      (f (k.processTable c)).state.queued = true) :
    Base (k.modify c f) pc rings loose := by
  have hloose : loose c := h.claim_loose _ c hclaim
  have hoff : ¬ OnRing rings c := h.linked.not_loose c hloose
  have hcur : k.currentProcess ≠ c := fun heq => h.current_free (heq ▸ hloose)
  have hother : ∀ r ≠ c, (k.modify c f).processTable r = k.processTable r := by
    intro r hr
    rw [modify_processTable, if_neg hr]
  have hhere : (k.modify c f).processTable c = f (k.processTable c) := by
    rw [modify_processTable, if_pos rfl]
  have hlinked : Linked (k.modify c f) rings fun r => loose r ∨ r = c :=
    h.linked.overwrite hoff rfl hother
  have hsame : (fun r => loose r ∨ r = c) = loose := by
    funext r
    simp only [eq_iff_iff, or_iff_left_iff_imp]
    intro hr
    rw [hr]
    exact hloose
  rw [hsame] at hlinked
  constructor
  · exact hlinked
  · intro r hr hon
    have hrc : r ≠ c := fun heq => hoff (heq ▸ hon)
    rw [hother r hrc] at hr
    exact h.dead_off r hr hon
  · intro r hr
    by_cases hrc : r = c
    · rw [hrc]
      exact h.claim_idle _ c hclaim
    · rw [hother r hrc] at hr
      exact h.dead_idle r hr
  · exact h.claim_loose
  · intro r c' hc'
    by_cases hcc : c' = c
    · subst c'
      rw [h.claim_inj r k.currentProcess c hc' hclaim, hhere]
      exact hf
    · rw [hother c' hcc]
      exact h.claim_state r c' hc'
  · exact h.claim_idle
  · exact h.claim_inj
  · intro r c' hc'
    by_cases hcc : c' = c
    · subst c'
      have hr : r = k.currentProcess :=
        h.claim_inj r k.currentProcess c (by rw [hc']; rfl) hclaim
      rw [hr] at hc'
      exact (hpc hc').elim
    · have hun := h.built r c' hc'
      unfold Unlinked
      rw [hother c' hcc]
      exact hun
  · intro r hr
    by_cases hrc : r = c
    · rw [hrc]
      exact Or.inl ⟨_, hclaim⟩
    · rw [hother r hrc]
      exact h.loose_cases r hr
  · exact h.current_free
  · intro hexit
    rw [modify_currentProcess] at hexit
    rw [hexit] at hclaim
    simp [Pc.claims] at hclaim
  · exact h.parked

theorem Base.release (h : Base k pc rings loose) {c : Slot}
    (hclaim : (pc k.currentProcess).claims = some c)
    (hc : (k.processTable c).state = .exited) :
    Base k (Function.update pc k.currentProcess .user) rings loose := by
  have hcur : ∀ r, r ≠ k.currentProcess →
      Function.update pc k.currentProcess .user r = pc r :=
    fun r hr => Function.update_of_ne hr _ _
  have hclaims : ∀ r c', (Function.update pc k.currentProcess .user r).claims = some c' →
      r ≠ k.currentProcess ∧ (pc r).claims = some c' := by
    intro r c' hc'
    by_cases hr : r = k.currentProcess
    · rw [hr, Function.update_self] at hc'
      simp [Pc.claims] at hc'
    · rw [hcur r hr] at hc'
      exact ⟨hr, hc'⟩
  have hnone : ∀ r, (pc r).claims = none →
      (Function.update pc k.currentProcess .user r).claims = none := by
    intro r hr
    by_cases hrc : r = k.currentProcess
    · rw [hrc, Function.update_self]
      rfl
    · rw [hcur r hrc]
      exact hr
  constructor
  · exact h.linked
  · intro r hr hon
    obtain ⟨hrc, hpc⟩ := h.dead_off r hr hon
    rw [← hrc, hpc] at hclaim
    simp [Pc.claims] at hclaim
  · intro r hr
    exact hnone r (h.dead_idle r hr)
  · intro r c' hc'
    exact h.claim_loose r c' (hclaims r c' hc').2
  · intro r c' hc'
    obtain ⟨hr, hold⟩ := hclaims r c' hc'
    rw [hcur r hr]
    exact h.claim_state r c' hold
  · intro r c' hc'
    exact hnone c' (h.claim_idle r c' (hclaims r c' hc').2)
  · intro r r' c' hr hr'
    exact h.claim_inj r r' c' (hclaims r c' hr).2 (hclaims r' c' hr').2
  · intro r c' hr
    have hrc : r ≠ k.currentProcess := by
      intro heq
      rw [heq, Function.update_self] at hr
      simp at hr
    rw [hcur r hrc] at hr
    exact h.built r c' hr
  · intro r hr
    rcases h.loose_cases r hr with ⟨r', hr'⟩ | hexited
    · by_cases hrc : r' = k.currentProcess
      · rw [hrc, hclaim, Option.some.injEq] at hr'
        rw [← hr']
        exact Or.inr hc
      · exact Or.inl ⟨r', by rw [hcur r' hrc]; exact hr'⟩
    · exact Or.inr hexited
  · exact h.current_free
  · intro hpc
    rw [Function.update_self] at hpc
    simp at hpc
  · intro r hr
    rw [hcur r hr]
    exact h.parked r hr

/-- The current process takes an exited slot which nobody else is filling. -/
theorem Base.pick (h : Base k pc rings loose) {c : Slot} {n : ℕ}
    (huser : pc k.currentProcess = .user)
    (hcurrent : k.current.state.queued = true)
    (hexited : (k.processTable c).state = .exited)
    (hfree : ∀ r, (pc r).claims ≠ some c) :
    Base { k with lastPid := n }
      (Function.update (Function.update pc c .user) k.currentProcess (.forkPicked c))
      rings fun r => loose r ∨ r = c := by
  have hcc : c ≠ k.currentProcess := by
    intro heq
    unfold current at hcurrent
    rw [← heq, hexited] at hcurrent
    simp [ProcState.queued] at hcurrent
  have hoff : ¬ OnRing rings c := by
    intro hon
    have hdead : (k.processTable c).state.dead = true := by
      rw [hexited]
      rfl
    exact hcc (h.dead_off c hdead hon).1
  generalize hpc' : Function.update (Function.update pc c .user) k.currentProcess
    (.forkPicked c) = pc'
  have hself : pc' k.currentProcess = .forkPicked c := by
    rw [← hpc', Function.update_self]
  have hchild : pc' c = .user := by
    rw [← hpc', Function.update_of_ne hcc, Function.update_self]
  have hother : ∀ r, r ≠ k.currentProcess → r ≠ c → pc' r = pc r := by
    intro r hr hrc
    rw [← hpc', Function.update_of_ne hr, Function.update_of_ne hrc]
  have hclaims : ∀ r c', (pc' r).claims = some c' →
      (r = k.currentProcess ∧ c' = c) ∨ (r ≠ k.currentProcess ∧ (pc r).claims = some c') := by
    intro r c' hc'
    by_cases hr : r = k.currentProcess
    · rw [hr, hself] at hc'
      simp only [Pc.claims, Option.some.injEq] at hc'
      exact Or.inl ⟨hr, hc'.symm⟩
    · by_cases hrc : r = c
      · rw [hrc, hchild] at hc'
        simp [Pc.claims] at hc'
      · rw [hother r hr hrc] at hc'
        exact Or.inr ⟨hr, hc'⟩
  have hnone : ∀ r, r ≠ k.currentProcess → (pc r).claims = none → (pc' r).claims = none := by
    intro r hr hn
    by_cases hrc : r = c
    · rw [hrc, hchild]
      rfl
    · rw [hother r hr hrc]
      exact hn
  constructor
  · exact h.linked.overwrite hoff rfl fun _ _ => rfl
  · intro r hr hon
    obtain ⟨hrc, hexit⟩ := h.dead_off r hr hon
    rw [hrc, huser] at hexit
    simp at hexit
  · intro r hr
    have hrc : r ≠ k.currentProcess := by
      intro heq
      unfold current at hcurrent
      rw [heq] at hr
      simp [not_dead_of_queued hcurrent] at hr
    exact hnone r hrc (h.dead_idle r hr)
  · intro r c' hc'
    rcases hclaims r c' hc' with ⟨_, heq⟩ | ⟨_, hold⟩
    · exact Or.inr heq
    · exact Or.inl (h.claim_loose r c' hold)
  · intro r c' hc'
    rcases hclaims r c' hc' with ⟨hr, heq⟩ | ⟨hr, hold⟩
    · rw [hr, heq]
      exact Or.inl ⟨hself, hexited⟩
    · by_cases hrc : r = c
      · rw [hrc, hchild] at hc'
        simp [Pc.claims] at hc'
      · rw [hother r hr hrc]
        exact h.claim_state r c' hold
  · intro r c' hc'
    rcases hclaims r c' hc' with ⟨_, heq⟩ | ⟨_, hold⟩
    · rw [heq, hchild]
      rfl
    · have hne : c' ≠ k.currentProcess := by
        intro heq
        exact h.current_free (heq ▸ h.claim_loose r c' hold)
      exact hnone c' hne (h.claim_idle r c' hold)
  · intro r r' c' hc₁ hc₂
    rcases hclaims r c' hc₁ with ⟨hr, heq⟩ | ⟨_, hold⟩
    · rcases hclaims r' c' hc₂ with ⟨hr', _⟩ | ⟨_, hold'⟩
      · rw [hr, hr']
      · rw [heq] at hold'
        exact (hfree r' hold').elim
    · rcases hclaims r' c' hc₂ with ⟨_, heq⟩ | ⟨_, hold'⟩
      · rw [heq] at hold
        exact (hfree r hold).elim
      · exact h.claim_inj r r' c' hold hold'
  · intro r c' hr
    have hclaim : (pc' r).claims = some c' := by
      rw [hr]
      rfl
    rcases hclaims r c' hclaim with ⟨hrc, _⟩ | ⟨hrc, hold⟩
    · rw [hrc, hself] at hr
      simp at hr
    · have hrc' : r ≠ c := by
        intro heq
        rw [heq, hchild] at hr
        simp at hr
      rw [hother r hrc hrc'] at hr
      exact h.built r c' hr
  · intro r hr
    rcases hr with hr | hr
    · rcases h.loose_cases r hr with ⟨r', hr'⟩ | hex
      · by_cases hrc : r' = c
        · have hdead : (k.processTable c).state.dead = true := by
            rw [hexited]
            rfl
          rw [hrc, h.dead_idle c hdead] at hr'
          simp at hr'
        · have hcur : r' ≠ k.currentProcess := by
            intro heq
            rw [heq, huser] at hr'
            simp [Pc.claims] at hr'
          exact Or.inl ⟨r', by rw [hother r' hcur hrc]; exact hr'⟩
      · exact Or.inr hex
    · rw [hr]
      exact Or.inr hexited
  · intro hl
    rcases hl with hl | hl
    · exact h.current_free hl
    · exact hcc hl.symm
  · intro hpc
    rw [hself] at hpc
    simp at hpc
  · intro r hr
    by_cases hrc : r = c
    · rw [hrc, hchild]
      exact ⟨by simp, rfl⟩
    · rw [hother r hr hrc]
      exact h.parked r hr

theorem Base.enqueue (h : Base k pc rings loose) {c : Slot}
    (hpc : pc k.currentProcess = .forkBuilt c) (ws : List LinkStore)
    (hrun : k.adjustProcQueues c = .ok k') :
    ∃ rings', Base k' (Function.update pc k.currentProcess (.linking ws true)) rings'
      fun r => loose r ∧ r ≠ c := by
  have hun := h.built _ c hpc
  have hclaim : (pc k.currentProcess).claims = some c := by
    rw [hpc]
    rfl
  obtain ⟨k₁, rings', hrun', hadj⟩ := (h.linked.tighten hun).adjust fun hl => hl.2 rfl
  obtain rfl : k₁ = k' := by
    rw [hrun] at hrun'
    simpa using hrun'.symm
  have hcore := hadj.core
  have hcur := hcore.currentProcess
  have hother : ∀ r, r ≠ k.currentProcess →
      Function.update pc k.currentProcess (.linking ws true) r = pc r :=
    fun r hr => Function.update_of_ne hr _ _
  have hclaims : ∀ r c', (Function.update pc k.currentProcess (.linking ws true) r).claims =
      some c' → r ≠ k.currentProcess ∧ (pc r).claims = some c' ∧ c' ≠ c := by
    intro r c' hc'
    by_cases hr : r = k.currentProcess
    · rw [hr, Function.update_self] at hc'
      simp [Pc.claims] at hc'
    · rw [hother r hr] at hc'
      refine ⟨hr, hc', ?_⟩
      intro heq
      rw [heq] at hc'
      exact hr (h.claim_inj r _ c hc' hclaim)
  have hnone : ∀ r, (pc r).claims = none →
      (Function.update pc k.currentProcess (.linking ws true) r).claims = none := by
    intro r hr
    by_cases hrc : r = k.currentProcess
    · rw [hrc, Function.update_self]
      rfl
    · rw [hother r hrc]
      exact hr
  refine ⟨rings', ?_⟩
  constructor
  · exact hadj.linked
  · intro r hr hon
    rw [hcore.state] at hr
    by_cases hrc : r = c
    · subst r
      rw [hadj.here] at hon
      simp [not_dead_of_queued hon] at hr
    · obtain ⟨heq, hexit⟩ := h.dead_off r hr ((hadj.others r hrc).mp hon)
      rw [heq, hpc] at hexit
      simp at hexit
  · intro r hr
    rw [hcore.state] at hr
    exact hnone r (h.dead_idle r hr)
  · intro r c' hc'
    obtain ⟨_, hold, hne⟩ := hclaims r c' hc'
    exact ⟨h.claim_loose r c' hold, hne⟩
  · intro r c' hc'
    obtain ⟨hr, hold, _⟩ := hclaims r c' hc'
    rw [hcore.state, hother r hr]
    exact h.claim_state r c' hold
  · intro r c' hc'
    exact hnone c' (h.claim_idle r c' (hclaims r c' hc').2.1)
  · intro r r' c' hr hr'
    exact h.claim_inj r r' c' (hclaims r c' hr).2.1 (hclaims r' c' hr').2.1
  · intro r c' hr
    obtain ⟨hrc, hold, hne⟩ := hclaims r c' (by rw [hr]; rfl)
    rw [hother r hrc] at hr
    have hun' := h.built r c' hr
    unfold Unlinked
    rw [hadj.frame c' ⟨h.claim_loose r c' hold, hne⟩]
    exact hun'
  · intro r hr
    rw [hcore.state]
    rcases h.loose_cases r hr.1 with ⟨r', hr'⟩ | hexited
    · have hrc : r' ≠ k.currentProcess := by
        intro heq
        rw [heq, hclaim, Option.some.injEq] at hr'
        exact hr.2 hr'.symm
      exact Or.inl ⟨r', by rw [hother r' hrc]; exact hr'⟩
    · exact Or.inr hexited
  · rw [hcur]
    exact fun hl => h.current_free hl.1
  · intro hexit
    rw [hcur, Function.update_self] at hexit
    simp at hexit
  · intro r hr
    rw [hcur] at hr
    rw [hother r hr]
    exact h.parked r hr

end Kernel

end Yak.Process
