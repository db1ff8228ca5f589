import Yak.Bystanders
import Mathlib.Tactic

/-!
# `signal_handler`

The loop goes through the pending signals from the lowest to the highest.  A default action which
stops the process calls `schedule`, and signals may become pending before the process runs again.
-/

namespace Yak.Process

namespace Kernel

/-- Other processes run, until it is the turn of this one again. -/
inductive Away (p : Slot) : Kernel → Kernel → Prop
  | back (k : Kernel) (hcurrent : k.currentProcess = p) : Away p k k
  | other {k k₁ k' : Kernel} (op : Op) (hcurrent : k.currentProcess ≠ p)
      (hrun : op.exec k = .ok k₁) (hrest : Away p k₁ k') : Away p k k'

/-- A signal with this handler does not end the loop. -/
def GoesOn (handler : SigHandler) (i : ℕ) : Prop :=
  handler = .ign ∨ (handler = .dfl ∧ defAction i ≠ .terminate ∧ defAction i ≠ .abnormal)

/-- The bit of a signal is cleared before its handler is looked at. -/
def clearPending (x : Proc) (i : ℕ) : BitVec 32 := x.sigpending &&& ~~~(1#32 <<< i)

/-- The loop of `signal_handler` from the index `i`: the indices at which it looked at the handler,
the signals that became pending while other processes ran, and the number and the address that it
returns.  After an exit the process does not run again. -/
inductive SignalLoop : ℕ → Kernel → List ℕ → BitVec 32 → Kernel → Option (ℕ × ℕ) → Prop
  | done (k : Kernel) : SignalLoop nsig k [] 0 k none
  | skip {i : ℕ} {k k' : Kernel} {applied : List ℕ} {raised : BitVec 32} {ret : Option (ℕ × ℕ)}
      (hi : i < nsig) (hclear : k.current.sigpending.getLsbD i = false)
      (hrest : SignalLoop (i + 1) k applied raised k' ret) : SignalLoop i k applied raised k' ret
  | handler {i : ℕ} {k k' : Kernel} {address : ℕ} (hi : i < nsig)
      (hpending : k.current.sigpending.getLsbD i = true)
      (hrun : k.deliverSignal i = .ok (k', some address)) :
      SignalLoop i k [i] 0 k' (some (i + 1, address))
  | next {i : ℕ} {k k₁ k₂ k' : Kernel} {applied : List ℕ} {raised : BitVec 32}
      {ret : Option (ℕ × ℕ)} (hi : i < nsig)
      (hpending : k.current.sigpending.getLsbD i = true)
      (hgoes : GoesOn (k.current.sighandlers i) i) (hrun : k.deliverSignal i = .ok (k₁, none))
      (haway : Away k.currentProcess k₁ k₂)
      (hrest : SignalLoop (i + 1) k₂ applied raised k' ret) :
      SignalLoop i k (i :: applied)
        ((k₂.current.sigpending &&& ~~~clearPending k.current i) ||| raised) k' ret

/-- The loop has come to the signals below this index. -/
def upTo : Option (ℕ × ℕ) → ℕ
  | some (s, _) => s
  | none => nsig

/-- From the index `i` on, each pending signal that the loop comes to is applied once and cleared,
and the others are left as they are, but for those in `raised`.  All but the last go on. -/
structure Consumes (i : ℕ) (x x' : Proc) (applied : List ℕ) (raised : BitVec 32)
    (ret : Option (ℕ × ℕ)) : Prop where
  returned : ∀ s address, ret = some (s, address) → i < s ∧ s ≤ nsig ∧
    x.sighandlers (s - 1) = .user address ∧ (x.sigpending ||| raised).getLsbD (s - 1) = true
  goesOn : ∀ j ∈ applied, (∀ address, ret ≠ some (j + 1, address)) → GoesOn (x.sighandlers j) j
  once : applied.Nodup
  all : ∀ j, i ≤ j → j < upTo ret → x.sigpending.getLsbD j = true → j ∈ applied
  only : ∀ j ∈ applied, i ≤ j ∧ j < upTo ret ∧ (x.sigpending ||| raised).getLsbD j = true
  cleared : ∀ j, i ≤ j → j < upTo ret → x'.sigpending.getLsbD j = true → raised.getLsbD j = true
  others : ∀ j, j < i ∨ upTo ret ≤ j →
    x'.sigpending.getLsbD j = (x.sigpending ||| raised).getLsbD j

variable {k k' k₁ k₂ : Kernel} {p : Slot} {op : Op} {i : ℕ} {applied : List ℕ}
  {raised : BitVec 32} {ret : Option (ℕ × ℕ)}

theorem clearPending_getLsbD (x : Proc) (hi : i < nsig) (j : ℕ) :
    (clearPending x i).getLsbD j = (x.sigpending.getLsbD j && decide (j ≠ i)) := by
  have hbit := getLsbD_bit hi j
  unfold clearPending
  rw [BitVec.getLsbD_and, BitVec.getLsbD_not, hbit]
  by_cases hj : j < 32
  · by_cases heq : j = i
    · simp [heq]
    · simp [heq, hj]
  · simp [BitVec.getLsbD_of_ge x.sigpending j (Nat.le_of_not_lt hj)]

/-! ## While other processes run -/

/-- A live process keeps its handlers and its pending signals. -/
def Grown (x y : Proc) : Prop :=
  x.state.dead = false → y.state.dead = false ∧ y.sighandlers = x.sighandlers ∧
    ∀ j, x.sigpending.getLsbD j = true → y.sigpending.getLsbD j = true

theorem Grown.refl (x : Proc) : Grown x x := fun hlive => ⟨hlive, rfl, fun _ hj => hj⟩

theorem Grown.trans {x y z : Proc} (h : Grown x y) (h' : Grown y z) : Grown x z := by
  intro hlive
  obtain ⟨hylive, hyhandlers, hypending⟩ := h hlive
  obtain ⟨hzlive, hzhandlers, hzpending⟩ := h' hylive
  exact ⟨hzlive, hzhandlers.trans hyhandlers, fun j hj => hzpending j (hypending j hj)⟩

theorem or_getLsbD {x bits : BitVec 32} {j : ℕ} (h : x.getLsbD j = true) :
    (x ||| bits).getLsbD j = true := by
  rw [BitVec.getLsbD_or, h, Bool.true_or]

theorem Meddled.grown {x y : Proc} (h : Meddled x y) : Grown x y := by
  intro hlive
  cases h with
  | signal bits => exact ⟨hlive, rfl, fun _ hj => or_getLsbD hj⟩
  | wakeup => exact ⟨rfl, rfl, fun _ hj => hj⟩
  | reparent => exact ⟨hlive, rfl, fun _ hj => hj⟩
  | reap hzombie =>
      rw [hzombie] at hlive
      cases hlive
  | fork _ hexited =>
      rw [hexited] at hlive
      cases hlive

theorem Roused.grown {x y : Proc} (h : Roused x y) : Grown x y := by
  intro hlive
  cases h with
  | alarm bits => exact ⟨hlive, rfl, fun _ hj => or_getLsbD hj⟩
  | timer | signal => exact ⟨rfl, rfl, fun _ hj => hj⟩

theorem Scheduled.grown {x y : Proc} (h : Scheduled x y) : Grown x y := by
  cases h with
  | rouse h => exact h.grown
  | run => exact fun _ => ⟨rfl, rfl, fun _ hj => hj⟩

theorem Meddles.grown (h : Meddles p k k') :
    Grown (k.processTable p).bare (k'.processTable p).bare :=
  steps_keep (fun _ _ hstep hgrown => hgrown.trans (Meddled.grown hstep)) h (Grown.refl _)

theorem Schedules.grown (h : Schedules p k k') :
    Grown (k.processTable p).bare (k'.processTable p).bare :=
  steps_keep (fun _ _ hstep hgrown => hgrown.trans (Scheduled.grown hstep)) h (Grown.refl _)

theorem Away.grown (h : Away p k k') :
    Grown (k.processTable p).bare (k'.processTable p).bare ∧ k'.currentProcess = p := by
  induction h with
  | back k hcurrent => exact ⟨Grown.refl _, hcurrent⟩
  | other op hcurrent hrun hrest ih =>
      obtain ⟨k₂, b, hprepare, hfinish⟩ := exec_prepare hrun
      have hmeddled := (prepare_meddles hcurrent.symm hprepare).grown
      have hscheduled := (finish_schedules hfinish p).grown
      exact ⟨(hmeddled.trans hscheduled).trans ih.1, ih.2⟩

theorem Away.eq_of_current (h : Away p k k') (hcurrent : k.currentProcess = p) : k' = k := by
  cases h with
  | back => rfl
  | other op hne => exact (hne hcurrent).elim

/-! ## One round -/

theorem deliverSignal_eq (hpending : k.current.sigpending.getLsbD i = true) :
    k.deliverSignal i = (k.modify k.currentProcess fun x =>
      { x with sigpending := clearPending x i }).getSignalHandler i := by
  unfold deliverSignal
  rw [if_pos hpending]
  rfl

theorem modify_current (k : Kernel) (f : Proc → Proc) :
    (k.modify k.currentProcess f).current = f k.current := by
  unfold current
  rw [modify_currentProcess, modify_processTable, if_pos rfl]

/-- A round which returns a handler only clears the bit. -/
theorem deliverSignal_some {address : ℕ} (hpending : k.current.sigpending.getLsbD i = true)
    (h : k.deliverSignal i = .ok (k', some address)) :
    k.current.sighandlers i = .user address ∧
      k'.current.sigpending = clearPending k.current i := by
  rw [deliverSignal_eq hpending] at h
  unfold getSignalHandler at h
  rw [modify_current] at h
  dsimp only at h
  cases hhandler : k.current.sighandlers i with
  | ign =>
      rw [hhandler] at h
      cases h
  | user a =>
      rw [hhandler] at h
      obtain ⟨rfl, haddress⟩ := Prod.mk.inj (Except.ok.inj h)
      rw [modify_current, Option.some.inj haddress]
      exact ⟨rfl, rfl⟩
  | dfl =>
      rw [hhandler] at h
      cases haction : defAction i with
      | abnormal | terminate =>
          rw [haction] at h
          obtain ⟨k₁, -, hr⟩ := bind_eq_ok.mp h
          cases hr
      | ignore =>
          rw [haction] at h
          cases h
      | «continue» =>
          rw [haction] at h
          dsimp only at h
          split at h
          · obtain ⟨k₁, -, hr⟩ := bind_eq_ok.mp h
            cases hr
          · cases h
      | stop =>
          rw [haction] at h
          obtain ⟨r, -, h⟩ := bind_eq_ok.mp h
          obtain ⟨k₁, -, h⟩ := bind_eq_ok.mp h
          obtain ⟨k₂, -, hr⟩ := bind_eq_ok.mp h
          cases hr

theorem setState_self (k : Kernel) (p : Slot) (state : ProcState) :
    (k.setState p state).processTable p = { k.processTable p with state := state } := by
  unfold setState
  rw [modify_processTable, if_pos rfl]

/-- A disposition with which the loop goes on stays with the process, or stops it. -/
theorem getSignalHandler_goesOn (hgoes : GoesOn (k.current.sighandlers i) i)
    (h : k.getSignalHandler i = .ok (k₁, none)) :
    (k₁.currentProcess = k.currentProcess ∧ k₁.current.sighandlers = k.current.sighandlers ∧
        k₁.current.sigpending = k.current.sigpending) ∨
      Grown { k.current with state := .stopped }.bare (k₁.processTable k.currentProcess).bare := by
  unfold getSignalHandler at h
  rcases hgoes with hign | ⟨hdfl, hterminate, habnormal⟩
  · rw [hign] at h
    obtain ⟨rfl, -⟩ := Prod.mk.inj (Except.ok.inj h)
    exact Or.inl ⟨rfl, rfl, rfl⟩
  · rw [hdfl] at h
    cases haction : defAction i with
    | terminate => exact (hterminate haction).elim
    | abnormal => exact (habnormal haction).elim
    | ignore =>
        rw [haction] at h
        obtain ⟨rfl, -⟩ := Prod.mk.inj (Except.ok.inj h)
        exact Or.inl ⟨rfl, rfl, rfl⟩
    | «continue» =>
        rw [haction] at h
        dsimp only at h
        split at h
        · obtain ⟨k₂, hadjust, hr⟩ := bind_eq_ok.mp h
          obtain ⟨rfl, -⟩ := Prod.mk.inj (Except.ok.inj hr)
          have hcore := adjustProcQueues_sameCore hadjust
          have hcurrent : k₂.currentProcess = k.currentProcess := hcore.currentProcess
          have hbare := hcore.bare k.currentProcess
          rw [setState_self] at hbare
          refine Or.inl ⟨hcurrent, ?_, ?_⟩
          · have hhandlers := congrArg Proc.sighandlers hbare
            unfold current
            rw [hcurrent]
            exact hhandlers
          · have hbits := congrArg Proc.sigpending hbare
            unfold current
            rw [hcurrent]
            exact hbits
        · obtain ⟨rfl, -⟩ := Prod.mk.inj (Except.ok.inj h)
          exact Or.inl ⟨rfl, rfl, rfl⟩
    | stop =>
        rw [haction] at h
        obtain ⟨r, hkill, h⟩ := bind_eq_ok.mp h
        obtain ⟨k₂, hadjust, h⟩ := bind_eq_ok.mp h
        obtain ⟨k₃, hschedule, hr⟩ := bind_eq_ok.mp h
        obtain ⟨rfl, -⟩ := Prod.mk.inj (Except.ok.inj hr)
        have hkilled := ((kernelKill_meddles (p := k.currentProcess) hkill).adjust hadjust).grown
        rw [setState_self] at hkilled
        exact Or.inr (hkilled.trans (schedule_schedules hschedule k.currentProcess).grown)

/-- What is left of the process when the loop goes on after a round. -/
theorem deliverSignal_none (hpending : k.current.sigpending.getLsbD i = true)
    (hgoes : GoesOn (k.current.sighandlers i) i) (h : k.deliverSignal i = .ok (k₁, none))
    (haway : Away k.currentProcess k₁ k₂) :
    k₂.current.sighandlers = k.current.sighandlers ∧
      ∀ j, (clearPending k.current i).getLsbD j = true →
        k₂.current.sigpending.getLsbD j = true := by
  rw [deliverSignal_eq hpending] at h
  have hgoes' : GoesOn ((k.modify k.currentProcess fun x =>
      { x with sigpending := clearPending x i }).current.sighandlers i) i := by
    rw [modify_current]
    exact hgoes
  have hround := getSignalHandler_goesOn hgoes' h
  rw [modify_current, modify_currentProcess] at hround
  obtain ⟨hgrown, hback⟩ := haway.grown
  rcases hround with ⟨hcurrent, hhandlers, hbits⟩ | hstopped
  · obtain rfl := haway.eq_of_current hcurrent
    rw [hhandlers, hbits]
    exact ⟨rfl, fun _ hj => hj⟩
  · obtain ⟨-, hhandlers, hbits⟩ := hstopped.trans hgrown rfl
    unfold current
    rw [hback]
    exact ⟨hhandlers, hbits⟩

/-! ## The loop -/

theorem consumes_done (k : Kernel) : Consumes nsig k.current k.current [] 0 none where
  returned _ _ h := nomatch h
  goesOn _ h := nomatch h
  once := List.nodup_nil
  all _ hle hlt := absurd hlt (Nat.not_lt_of_le hle)
  only _ h := nomatch h
  cleared _ hle hlt := absurd hlt (Nat.not_lt_of_le hle)
  others j _ := by simp

variable {x x₂ x' : Proc}

theorem Consumes.skip (h : Consumes (i + 1) x x' applied raised ret)
    (hclear : x.sigpending.getLsbD i = false) : Consumes i x x' applied raised ret where
  returned s address hret := by
    obtain ⟨hlt, hrest⟩ := h.returned s address hret
    exact ⟨Nat.lt_of_succ_lt hlt, hrest⟩
  goesOn := h.goesOn
  once := h.once
  all j hle hlt hj := by
    have hne : i ≠ j := by
      rintro rfl
      rw [hclear] at hj
      cases hj
    exact h.all j (Nat.lt_of_le_of_ne hle hne) hlt hj
  only j hj := by
    obtain ⟨hle, hrest⟩ := h.only j hj
    exact ⟨Nat.le_of_succ_le hle, hrest⟩
  cleared j hle hlt hj := by
    rcases Nat.eq_or_lt_of_le hle with rfl | hlt'
    · rw [h.others i (Or.inl (Nat.lt_succ_self i)), BitVec.getLsbD_or, hclear, Bool.false_or] at hj
      exact hj
    · exact h.cleared j hlt' hlt hj
  others j hj := h.others j (hj.imp_left Nat.lt_succ_of_lt)

theorem Consumes.next (h : Consumes (i + 1) x₂ x' applied raised ret) (hi : i < nsig)
    (hpending : x.sigpending.getLsbD i = true) (hgoes : GoesOn (x.sighandlers i) i)
    (hhandlers : x₂.sighandlers = x.sighandlers)
    (hkept : ∀ j, (clearPending x i).getLsbD j = true → x₂.sigpending.getLsbD j = true) :
    Consumes i x x' (i :: applied) ((x₂.sigpending &&& ~~~clearPending x i) ||| raised) ret := by
  generalize hnew : x₂.sigpending &&& ~~~clearPending x i = new
  have hbits : ∀ j, x₂.sigpending.getLsbD j =
      ((x.sigpending.getLsbD j && decide (j ≠ i)) || new.getLsbD j) := by
    intro j
    rw [← clearPending_getLsbD x hi, ← hnew, BitVec.getLsbD_and, BitVec.getLsbD_not]
    cases hj : (clearPending x i).getLsbD j with
    | true => simp [hkept j hj]
    | false =>
        by_cases hlt : j < 32
        · simp [hlt]
        · simp [BitVec.getLsbD_of_ge x₂.sigpending j (Nat.le_of_not_lt hlt)]
  have hafter : ∀ j, (x₂.sigpending ||| raised).getLsbD j =
      ((x.sigpending.getLsbD j && decide (j ≠ i)) || (new ||| raised).getLsbD j) := by
    intro j
    rw [BitVec.getLsbD_or, hbits, BitVec.getLsbD_or, Bool.or_assoc]
  have hsome : ∀ j, (x₂.sigpending ||| raised).getLsbD j = true →
      (x.sigpending ||| (new ||| raised)).getLsbD j = true := by
    intro j hj
    rw [hafter] at hj
    rw [BitVec.getLsbD_or]
    cases hold : x.sigpending.getLsbD j with
    | true => rfl
    | false =>
        rw [hold] at hj
        exact hj
  have hupTo : i < upTo ret := by
    cases ret with
    | none => exact hi
    | some r => exact Nat.lt_of_succ_lt (h.returned r.1 r.2 rfl).1
  constructor
  · intro s address hret
    obtain ⟨hlt, hle, hhandler, hset⟩ := h.returned s address hret
    rw [hhandlers] at hhandler
    exact ⟨Nat.lt_of_succ_lt hlt, hle, hhandler, hsome _ hset⟩
  · intro j hj hret
    rcases List.mem_cons.mp hj with rfl | hj
    · exact hgoes
    · rw [← hhandlers]
      exact h.goesOn j hj hret
  · refine List.nodup_cons.mpr ⟨fun hmem => ?_, h.once⟩
    exact Nat.not_succ_le_self i (h.only i hmem).1
  · intro j hle hlt hj
    rcases Nat.eq_or_lt_of_le hle with rfl | hlt'
    · exact List.mem_cons_self
    · refine List.mem_cons_of_mem i (h.all j hlt' hlt ?_)
      rw [hbits, hj, decide_eq_true hlt'.ne']
      rfl
  · intro j hj
    rcases List.mem_cons.mp hj with rfl | hj
    · exact ⟨le_rfl, hupTo, or_getLsbD hpending⟩
    · obtain ⟨hle, hlt, hset⟩ := h.only j hj
      exact ⟨Nat.le_of_succ_le hle, hlt, hsome j hset⟩
  · intro j hle hlt hj
    rcases Nat.eq_or_lt_of_le hle with rfl | hlt'
    · rw [h.others i (Or.inl (Nat.lt_succ_self i)), hafter] at hj
      simpa using hj
    · rw [BitVec.getLsbD_or, h.cleared j hlt' hlt hj, Bool.or_true]
  · intro j hj
    have hne : j ≠ i := by
      rcases hj with hlt | hle
      · exact hlt.ne
      · exact (Nat.lt_of_lt_of_le hupTo hle).ne'
    rw [h.others j (hj.imp_left Nat.lt_succ_of_lt), hafter, decide_eq_true hne, Bool.and_true,
      ← BitVec.getLsbD_or]

theorem consumes_handler {address : ℕ} (hi : i < nsig) (hpending : x.sigpending.getLsbD i = true)
    (hhandler : x.sighandlers i = .user address) (hbits : x'.sigpending = clearPending x i) :
    Consumes i x x' [i] 0 (some (i + 1, address)) := by
  constructor
  · intro s a hret
    obtain ⟨rfl, rfl⟩ := Prod.mk.inj (Option.some.inj hret)
    exact ⟨Nat.lt_succ_self i, hi, hhandler, or_getLsbD hpending⟩
  · intro j hj hret
    obtain rfl := List.mem_singleton.mp hj
    exact (hret address rfl).elim
  · exact List.nodup_singleton i
  · intro j hle hlt _
    exact List.mem_singleton.mpr (Nat.le_antisymm (Nat.le_of_lt_succ hlt) hle)
  · intro j hj
    obtain rfl := List.mem_singleton.mp hj
    exact ⟨le_rfl, Nat.lt_succ_self j, or_getLsbD hpending⟩
  · intro j hle hlt hj
    obtain rfl : j = i := Nat.le_antisymm (Nat.le_of_lt_succ hlt) hle
    rw [hbits, clearPending_getLsbD x hi] at hj
    simp at hj
  · intro j hj
    have hne : j ≠ i := by
      rcases hj with hlt | hle
      · exact hlt.ne
      · exact (Nat.lt_of_succ_le hle).ne'
    rw [hbits, clearPending_getLsbD x hi, decide_eq_true hne]
    simp

theorem signalLoop_consumes (h : SignalLoop i k applied raised k' ret) :
    Consumes i k.current k'.current applied raised ret := by
  induction h with
  | done k => exact consumes_done k
  | skip hi hclear hrest ih => exact ih.skip hclear
  | handler hi hpending hrun =>
      obtain ⟨hhandler, hbits⟩ := deliverSignal_some hpending hrun
      exact consumes_handler hi hpending hhandler hbits
  | next hi hpending hgoes hrun haway hrest ih =>
      obtain ⟨hhandlers, hkept⟩ := deliverSignal_none hpending hgoes hrun haway
      exact ih.next hi hpending hgoes hhandlers hkept

/-- `signal_handler` takes the pending signals in order. -/
theorem signalHandler_consumes (h : SignalLoop 0 k applied raised k' ret) :
    Consumes 0 k.current k'.current applied raised ret :=
  signalLoop_consumes h

/-! ## An alarm that goes off while the process is stopped -/

/-- The loop passes over signals that are not pending. -/
theorem SignalLoop.skips {j : ℕ} (hle : i ≤ j) (hj : j ≤ nsig)
    (hclear : ∀ m, i ≤ m → m < j → k.current.sigpending.getLsbD m = false)
    (h : SignalLoop j k applied raised k' ret) : SignalLoop i k applied raised k' ret := by
  induction j, hle using Nat.le_induction with
  | base => exact h
  | succ j hle ih =>
      refine ih (Nat.le_of_succ_le hj) (fun m hm hlt => hclear m hm (Nat.lt_succ_of_lt hlt)) ?_
      exact h.skip hj (hclear j hle (Nat.lt_succ_self j))

def sigusr1 : ℕ := 23

/-- The current process ignores `SIGALRM` and handles `SIGUSR1`, both are pending, and so is
`SIGSTOP`; the next alarm and a terminal timer of the process have run out. -/
def stopAlarm : Kernel where
  processTable p :=
    if p.val = 1 then
      { Proc.zero with
        pid := 1, state := .running, priority := 1, ttyBlock := 5, alarm := 5
        sighandlers := fun i =>
          if i = sigalrm - 1 then .ign else if i = sigusr1 - 1 then .user 4096 else .dfl
        sigpending := 1#32 <<< (sigalrm - 1) ||| 1#32 <<< (sigstop - 1) ||| 1#32 <<< (sigusr1 - 1)
        queueNext := some p, queuePrev := some p }
    else Proc.zero
  currentProcess := ⟨1, one_lt_nrProc⟩
  processQueues q := if q = 1 then some ⟨1, one_lt_nrProc⟩ else none
  lastPid := 1
  timerTicks := 10

/-- The rounds of the three signals. -/
def stopAlarmRounds : Except Halt (Kernel × Kernel × Kernel) := do
  let r ← stopAlarm.deliverSignal (sigalrm - 1)
  let r₁ ← r.1.deliverSignal (sigstop - 1)
  let r₂ ← r₁.1.deliverSignal (sigusr1 - 1)
  if r.2 = none ∧ r₁.2 = none ∧ r₂.2 = some 4096 then .ok (r.1, r₁.1, r₂.1) else .error .badWalk

theorem stopAlarmRounds_eq_ok (h : stopAlarmRounds = .ok (k, k₁, k₂)) :
    stopAlarm.deliverSignal (sigalrm - 1) = .ok (k, none) ∧
      k.deliverSignal (sigstop - 1) = .ok (k₁, none) ∧
      k₁.deliverSignal (sigusr1 - 1) = .ok (k₂, some 4096) := by
  obtain ⟨⟨a, ret⟩, hr, h₁⟩ := bind_eq_ok.mp h
  obtain ⟨⟨a₁, ret₁⟩, hr₁, h₂⟩ := bind_eq_ok.mp h₁
  obtain ⟨⟨a₂, ret₂⟩, hr₂, h₃⟩ := bind_eq_ok.mp h₂
  dsimp only at h₃ hr₁ hr₂
  split at h₃
  next hrets =>
    obtain ⟨rfl, rfl, rfl⟩ := hrets
    obtain ⟨rfl, hrest⟩ := Prod.mk.inj (Except.ok.inj h₃)
    obtain ⟨rfl, rfl⟩ := Prod.mk.inj hrest
    exact ⟨hr, hr₁, hr₂⟩
  next => cases h₃

/-- `SIGALRM` is ignored, the process is stopped and comes back with `SIGALRM` pending again, and
the handler of `SIGUSR1` is returned. -/
theorem signalLoop_stopAlarm : ∃ raised k',
    SignalLoop 0 stopAlarm [sigalrm - 1, sigstop - 1, sigusr1 - 1] raised k'
        (some (sigusr1, 4096)) ∧
      k'.current.sigpending.getLsbD (sigalrm - 1) = true := by
  have hfacts : stopAlarmRounds.map (fun r => decide (
      (r.1.currentProcess = stopAlarm.currentProcess ∧ r.2.1.currentProcess = r.1.currentProcess) ∧
      (r.1.current.sigpending = 0x00420000#32 ∧ r.2.1.current.sigpending = 0x00402000#32) ∧
      r.1.current.sighandlers (sigstop - 1) = .dfl ∧
      r.2.2.current.sigpending.getLsbD (sigalrm - 1) = true)) = .ok true := by
    decide +kernel
  obtain ⟨⟨k, k₁, k₂⟩, hrounds, ⟨hcurrent, hcurrent₁⟩, ⟨hbits, hbits₁⟩, hdfl, hlast⟩ :=
    exists_of_map_decide hfacts
  obtain ⟨halarm, hstop, husr⟩ := stopAlarmRounds_eq_ok hrounds
  dsimp only at hcurrent hcurrent₁ hbits hbits₁ hdfl hlast
  have hthird : SignalLoop sigstop k₁ [sigusr1 - 1] 0 k₂ (some (sigusr1, 4096)) := by
    have hround : SignalLoop (sigusr1 - 1) k₁ [sigusr1 - 1] 0 k₂ (some (sigusr1, 4096)) :=
      .handler (by decide) (by rw [hbits₁]; decide) husr
    refine hround.skips (by decide) (by decide) ?_
    rw [hbits₁]
    decide
  have hsecond := SignalLoop.next (by decide) (by rw [hbits]; decide)
    (Or.inr ⟨hdfl, by decide, by decide⟩) hstop (Away.back k₁ hcurrent₁) hthird
  have hskipped := hsecond.skips (i := sigalrm) (by decide) (by decide) (by rw [hbits]; decide)
  have hfirst := SignalLoop.next (by decide) (by decide) (Or.inl rfl) halarm
    (Away.back k hcurrent) hskipped
  exact ⟨_, k₂, hfirst.skips (by decide) (by decide) (by decide), hlast⟩

theorem signalHandler_consumes_stopAlarm : ∃ (raised : BitVec 32) (k' : Kernel),
    Consumes 0 stopAlarm.current k'.current [sigalrm - 1, sigstop - 1, sigusr1 - 1] raised
      (some (sigusr1, 4096)) := by
  obtain ⟨raised, k', hloop, -⟩ := signalLoop_stopAlarm
  exact ⟨raised, k', signalHandler_consumes hloop⟩

/-- A signal below the one that is returned is pending. -/
theorem not_consumes_stopAlarm : ∃ applied raised k' ret,
    SignalLoop 0 stopAlarm applied raised k' ret ∧
      ¬ Consumes 0 stopAlarm.current k'.current applied 0 ret := by
  obtain ⟨raised, k', hloop, hlast⟩ := signalLoop_stopAlarm
  refine ⟨_, raised, k', _, hloop, fun hconsumes => ?_⟩
  have hraised := hconsumes.cleared (sigalrm - 1) (by decide) (by decide) hlast
  simp at hraised

end Kernel

end Yak.Process
