import Yak.JobControl
import Mathlib.Tactic

/-!
# Processes that are not running

Every operation ends in at most one call of `schedule`.  Up to there it writes only a few fields of
the processes other than the current one, and `schedule` only a few fields of any process.
-/

namespace Yak.Process

namespace Kernel

variable {k k' k₁ : Kernel} {p q : Slot} {op : Op} {b : Bool}

/-! ## Operations up to their `schedule` -/

def fallAsleep (k : Kernel) (addr : ℕ) (type : ProcState) : Except Halt Kernel :=
  if k.currentProcess.val = 0 then .error (.panic "Trying to sleep on first process")
  else if type.sleeping = false then .error (.panic "sleep: bad type")
  else
    (k.modify k.currentProcess fun x =>
      { x with state := type, sleepingOn := some addr }).adjustProcQueues k.currentProcess

def endProcess (k : Kernel) (status : ℕ) : Except Halt Kernel := do
  let k ← k.exitMark status
  k.adjustProcQueues k.currentProcess

def stopProcess (k : Kernel) : Except Halt Kernel := do
  let r ← (k.setState k.currentProcess .stopped).kernelKill k.current.ppid sigchld
  r.1.adjustProcQueues r.1.currentProcess

/-- A round of `signal_handler`, where only a default action calls `schedule`. -/
def prepareSignal (k : Kernel) (i : ℕ) : Except Halt (Kernel × Bool) :=
  let k₁ := k.modify k.currentProcess fun x =>
    { x with sigpending := x.sigpending &&& ~~~(1#32 <<< i) }
  if k.current.sigpending.getLsbD i ∧ k.current.sighandlers i = .dfl then
    match defAction i with
    | .abnormal | .terminate => (k₁.endProcess i).map (·, true)
    | .stop => k₁.stopProcess.map (·, true)
    | .ignore | .continue => (k.deliverSignal i).map (·.1, false)
  else (k.deliverSignal i).map (·.1, false)

def wakeAll (k : Kernel) (addr : ℕ) (switch : Bool) : Except Halt (Kernel × Bool) :=
  ((List.finRange nrProc).foldlM (wakeupSlot addr) (k, false)).map fun r => (r.1, r.2 && switch)

def reapOrSleep (k : Kernel) (pid : ℤ) (wnohang : Bool) : Except Halt (Kernel × Bool) :=
  let w := k.waitpidScan pid
  if w.children = 0 ∨ w.flag ≠ 0 ∨ wnohang then .ok (w.kernel, false)
  else (w.kernel.fallAsleep waitChannel .sleepInterruptible).map (·, true)

/-- An operation up to the call of `schedule` at its end, if there is one. -/
def Op.prepare (k : Kernel) : Op → Except Halt (Kernel × Bool)
  | .fork true =>
      match k.getFreeProc with
      | none => .ok (k, false)
      | some (child, k) =>
          (((k.forkCopy child).forkBuild child).adjustProcQueues child).map (·, true)
  | .exit status => (k.endProcess status).map (·, true)
  | .sleep addr type => (k.fallAsleep addr type).map (·, true)
  | .wakeup addr switch => k.wakeAll addr switch
  | .pause =>
      ((k.setState k.currentProcess .sleepInterruptible).adjustProcQueues
        k.currentProcess).map (·, true)
  | .deliver i => k.prepareSignal i
  | .waitpid pid wnohang => k.reapOrSleep pid wnohang
  | .tick => (chargeQuantum { k with timerTicks := (k.timerTicks + 1) % 2 ^ 32 }).map (·, true)
  | .schedule => .ok (k, true)
  | op => (op.exec k).map (·, false)

def finish (k : Kernel) (b : Bool) : Except Halt Kernel := if b then k.schedule else .ok k

theorem map_true_finish (x : Except Halt Kernel) :
    (x.map (·, true) >>= fun r => finish r.1 r.2) = x >>= schedule := by
  cases x with
  | error e => rfl
  | ok k => rfl

theorem map_flag_eq_ok {x : Except Halt Kernel} {flag : Bool}
    (h : x.map (·, flag) = .ok (k', b)) : x = .ok k' ∧ b = flag := by
  cases x with
  | error e => cases h
  | ok k =>
      obtain ⟨rfl, rfl⟩ := Prod.mk.inj (Except.ok.inj h)
      exact ⟨rfl, rfl⟩

theorem map_false_finish (x : Except Halt Kernel) :
    (x.map (·, false) >>= fun r => finish r.1 r.2) = x := by
  cases x with
  | error e => rfl
  | ok k => rfl

theorem fallAsleep_schedule (k : Kernel) (addr : ℕ) (type : ProcState) :
    (k.fallAsleep addr type >>= schedule) = k.sleep addr type := by
  unfold fallAsleep sleep
  split
  · rfl
  · split <;> rfl

theorem prepareSignal_finish (k : Kernel) (i : ℕ) :
    (k.prepareSignal i >>= fun r => finish r.1 r.2) = (k.deliverSignal i).map Prod.fst := by
  have hquiet : ((k.deliverSignal i).map (·.1, false) >>= fun r => finish r.1 r.2) =
      (k.deliverSignal i).map Prod.fst := by
    cases k.deliverSignal i with
    | error e => rfl
    | ok r => rfl
  unfold prepareSignal
  dsimp only
  split
  next hdfl =>
    have hround : k.deliverSignal i = (k.modify k.currentProcess fun x =>
        { x with sigpending := x.sigpending &&& ~~~(1#32 <<< i) }).getSignalHandler i := by
      unfold deliverSignal
      rw [if_pos hdfl.1]
    have hhandler : (k.modify k.currentProcess fun x =>
        { x with sigpending := x.sigpending &&& ~~~(1#32 <<< i) }).current.sighandlers i = .dfl := by
      unfold current
      rw [modify_currentProcess, modify_processTable, if_pos rfl]
      exact hdfl.2
    cases haction : defAction i with
    | abnormal | terminate =>
        rw [map_true_finish, hround]
        unfold getSignalHandler endProcess kernelExit
        rw [hhandler, haction]
        dsimp only
        cases exitMark _ i with
        | error e => rfl
        | ok k₁ =>
            simp only [ok_bind]
            cases k₁.adjustProcQueues k₁.currentProcess with
            | error e => rfl
            | ok k₂ =>
                simp only [ok_bind]
                cases k₂.schedule with
                | error e => rfl
                | ok k₃ => rfl
    | stop =>
        rw [map_true_finish, hround]
        unfold getSignalHandler stopProcess
        rw [hhandler, haction]
        dsimp only
        cases kernelKill _ _ sigchld with
        | error e => rfl
        | ok r =>
            simp only [ok_bind]
            cases r.1.adjustProcQueues r.1.currentProcess with
            | error e => rfl
            | ok k₂ =>
                simp only [ok_bind]
                cases k₂.schedule with
                | error e => rfl
                | ok k₃ => rfl
    | ignore => exact hquiet
    | «continue» => exact hquiet
  next => exact hquiet

/-- Nothing but this `schedule` comes after it. -/
theorem prepare_finish (op : Op) (k : Kernel) :
    (op.prepare k >>= fun r => finish r.1 r.2) = op.exec k := by
  cases op with
  | fork archOk =>
      cases archOk with
      | true =>
          change (Op.prepare k (.fork true) >>= _) = k.kernelFork true
          unfold kernelFork Op.prepare
          cases k.getFreeProc with
          | none => rfl
          | some found => exact map_true_finish _
      | false => exact map_false_finish (k.kernelFork false)
  | exit status =>
      refine (map_true_finish (k.endProcess status)).trans ?_
      unfold endProcess
      cases hmark : k.exitMark status with
      | error e =>
          change _ = k.kernelExit status
          unfold kernelExit
          rw [hmark]
          rfl
      | ok k₁ =>
          change _ = k.kernelExit status
          unfold kernelExit
          rw [hmark]
          rfl
  | sleep addr type =>
      exact (map_true_finish (k.fallAsleep addr type)).trans (fallAsleep_schedule k addr type)
  | wakeup addr switch =>
      change (k.wakeAll addr switch >>= _) = k.wakeup addr switch
      unfold wakeup wakeAll
      cases (List.finRange nrProc).foldlM (wakeupSlot addr) (k, false) with
      | error e => rfl
      | ok r =>
          change finish r.1 (r.2 && switch) = if _ then _ else _
          unfold finish
          simp only [Bool.and_eq_true]
  | pause => exact map_true_finish _
  | deliver i => exact prepareSignal_finish k i
  | waitpid pid wnohang =>
      change (k.reapOrSleep pid wnohang >>= _) = k.kernelWaitpid pid wnohang
      unfold kernelWaitpid reapOrSleep
      dsimp only
      generalize k.waitpidScan pid = w
      split
      · rfl
      · rw [map_true_finish, fallAsleep_schedule]
  | tick => exact map_true_finish _
  | schedule => rfl
  | nice inc => exact map_false_finish (k.kernelNice inc)
  | alarm seconds => exact map_false_finish (.ok (k.kernelAlarm seconds).1)
  | signal sig handler => exact map_false_finish (.ok (k.kernelSignal sig handler))
  | kill pid sig => exact map_false_finish ((k.kernelKill pid sig).map Prod.fst)
  | waitpidWoken => exact map_false_finish (.ok k.waitpidWoken)
  | ttySetTimer vtime => exact map_false_finish (.ok (k.ttySetTimer vtime))
  | ttyClearTimer => exact map_false_finish (.ok k.ttyClearTimer)

theorem exec_prepare (h : op.exec k = .ok k') :
    ∃ k₁ b, op.prepare k = .ok (k₁, b) ∧ finish k₁ b = .ok k' := by
  rw [← prepare_finish] at h
  obtain ⟨r, hprepare, hfinish⟩ := bind_eq_ok.mp h
  exact ⟨r.1, r.2, hprepare, hfinish⟩

/-! ## What they write of other processes -/

/-- What the code of another process may do to a process, apart from `schedule`. -/
inductive Meddled : Proc → Proc → Prop
  | signal (x : Proc) (bits : BitVec 32) :
      Meddled x { x with sigpending := x.sigpending ||| bits }
  | wakeup (x : Proc) (hsleeping : x.state.sleeping = true) (haddr : x.sleepingOn ≠ none) :
      Meddled x { x with state := .runnable, sleepingOn := none }
  | reparent (x : Proc) : Meddled x { x with ppid := 1 }
  | reap (x : Proc) (hzombie : x.state = .zombie) : Meddled x { x with state := .exited }
  | fork (x y : Proc) (hexited : x.state = .exited) : Meddled x y

theorem steps_keep {r : Proc → Proc → Prop} {P : Proc → Prop} (hr : ∀ x y, r x y → P x → P y)
    {x y : Proc} (h : Relation.ReflTransGen r x y) (hx : P x) : P y := by
  induction h with
  | refl => exact hx
  | tail _ hstep ih => exact hr _ _ hstep ih

/-- Up to its links, the process in this slot has only been meddled with. -/
def Meddles (p : Slot) (k k' : Kernel) : Prop :=
  Relation.ReflTransGen Meddled (k.processTable p).bare (k'.processTable p).bare

theorem meddles_of_bare (h : (k'.processTable p).bare = (k.processTable p).bare) :
    Meddles p k k' := by
  unfold Meddles
  rw [h]

theorem Meddles.trans (h : Meddles p k k₁) (h' : Meddles p k₁ k') : Meddles p k k' :=
  Relation.ReflTransGen.trans h h'

theorem Meddles.adjust (h : Meddles p k k₁) (hadjust : k₁.adjustProcQueues q = .ok k') :
    Meddles p k k' :=
  h.trans (meddles_of_bare ((adjustProcQueues_sameCore hadjust).bare p))

theorem meddles_modify_of_ne (k : Kernel) (h : p ≠ q) (f : Proc → Proc) :
    Meddles p k (k.modify q f) :=
  meddles_of_bare (by rw [modify_processTable, if_neg h])

theorem meddles_modify (k : Kernel) (q : Slot) {f : Proc → Proc}
    (h : p = q → Meddled (k.processTable q).bare (f (k.processTable q)).bare) :
    Meddles p k (k.modify q f) := by
  by_cases hq : p = q
  · subst hq
    unfold Meddles
    rw [modify_processTable, if_pos rfl]
    exact Relation.ReflTransGen.single (h rfl)
  · exact meddles_modify_of_ne k hq f

theorem sendSignal_meddles (k : Kernel) (target : Slot) (sig : ℕ) :
    Meddles p k (k.sendSignal target sig).1 := by
  unfold sendSignal
  split
  · exact meddles_of_bare rfl
  · split
    · dsimp only
      refine meddles_modify k target fun _ => ?_
      exact Meddled.signal (k.processTable target).bare _
    · exact meddles_of_bare rfl

theorem killAll_meddles (k : Kernel) (candidate : Slot → Proc → Bool) (sig : ℕ) :
    Meddles p k (k.killAll candidate sig).1 := by
  unfold killAll
  refine List.foldlRecOn (motive := fun c : KillCount => Meddles p k c.kernel) _ _
    (meddles_of_bare rfl) ?_
  intro c hc q _
  unfold killSlot
  split
  · exact hc.trans (sendSignal_meddles c.kernel q sig)
  · exact hc

theorem kernelKill_meddles {pid sig : ℤ} {r : Kernel × ℤ} (h : k.kernelKill pid sig = .ok r) :
    Meddles p k r.1 := by
  unfold kernelKill at h
  split at h
  · obtain rfl := Except.ok.inj h
    exact meddles_of_bare rfl
  · split at h
    · split at h
      · obtain rfl := Except.ok.inj h
        exact sendSignal_meddles k _ _
      · cases h
    · split_ifs at h
      all_goals
        obtain rfl := Except.ok.inj h
        exact killAll_meddles k _ _

theorem reparent_meddles (k : Kernel) : Meddles p k k.reparent := by
  unfold reparent
  refine List.foldlRecOn _ _ (motive := Meddles p k) (meddles_of_bare rfl) ?_
  intro k₁ hk₁ q _
  refine hk₁.trans ?_
  unfold reparentSlot
  split
  · refine meddles_modify k₁ q fun _ => ?_
    exact Meddled.reparent (k₁.processTable q).bare
  · exact meddles_of_bare rfl

theorem exitMark_meddles {status : ℕ} (hp : p ≠ k.currentProcess)
    (h : k.exitMark status = .ok k') : Meddles p k k' := by
  have hcode : Meddles p k (k.reparent.modify k.currentProcess fun x =>
      { x with exitCode := status % 256 }) :=
    (reparent_meddles k).trans (meddles_modify_of_ne _ hp _)
  unfold exitMark at h
  dsimp only at h
  split at h
  · obtain ⟨r, hkill, hr⟩ := bind_eq_ok.mp h
    obtain rfl := Except.ok.inj hr
    refine hcode.trans (Meddles.trans ?_ (kernelKill_meddles hkill))
    refine meddles_modify_of_ne _ ?_ _
    rw [modify_currentProcess, reparent_currentProcess]
    exact hp
  · obtain rfl := Except.ok.inj h
    refine hcode.trans (meddles_modify_of_ne _ ?_ _)
    rw [modify_currentProcess, reparent_currentProcess]
    exact hp

theorem endProcess_meddles {status : ℕ} (hp : p ≠ k.currentProcess)
    (h : k.endProcess status = .ok k') : Meddles p k k' := by
  obtain ⟨k₁, hmark, hadjust⟩ := bind_eq_ok.mp h
  exact (exitMark_meddles hp hmark).adjust hadjust

theorem fallAsleep_meddles {addr : ℕ} {type : ProcState} (hp : p ≠ k.currentProcess)
    (h : k.fallAsleep addr type = .ok k') : Meddles p k k' := by
  unfold fallAsleep at h
  split at h
  · cases h
  · split at h
    · cases h
    · exact (meddles_modify_of_ne k hp _).adjust h

theorem stopProcess_meddles (hp : p ≠ k.currentProcess) (h : k.stopProcess = .ok k') :
    Meddles p k k' := by
  obtain ⟨r, hkill, hadjust⟩ := bind_eq_ok.mp h
  have hstopped : Meddles p k (k.setState k.currentProcess .stopped) :=
    meddles_modify_of_ne k hp _
  exact (hstopped.trans (kernelKill_meddles hkill)).adjust hadjust

theorem wakeupSlot_meddles {addr : ℕ} {r r' : Kernel × Bool} (h : wakeupSlot addr r q = .ok r') :
    Meddles p r.1 r'.1 := by
  unfold wakeupSlot at h
  split at h
  next hsleeps =>
    obtain ⟨k₁, hadjust, hr⟩ := bind_eq_ok.mp h
    obtain rfl := Except.ok.inj hr
    refine Meddles.adjust (meddles_modify r.1 q fun _ => ?_) hadjust
    refine Meddled.wakeup (r.1.processTable q).bare hsleeps.1 ?_
    have haddr : (r.1.processTable q).sleepingOn = some addr := hsleeps.2
    change (r.1.processTable q).sleepingOn ≠ none
    rw [haddr]
    exact Option.some_ne_none addr
  next =>
    obtain rfl := Except.ok.inj h
    exact meddles_of_bare rfl

theorem wakeAll_meddles {addr : ℕ} {switch : Bool} (h : k.wakeAll addr switch = .ok (k', b)) :
    Meddles p k k' := by
  unfold wakeAll at h
  cases hloop : (List.finRange nrProc).foldlM (wakeupSlot addr) (k, false) with
  | error e =>
      rw [hloop] at h
      cases h
  | ok r =>
      rw [hloop] at h
      obtain ⟨rfl, -⟩ := Prod.mk.inj (Except.ok.inj h)
      refine foldlM_invariant (fun r : Kernel × Bool => Meddles p k r.1) ?_
        (meddles_of_bare rfl) hloop
      intro r₁ q r₂ _ hinv hslot
      exact hinv.trans (wakeupSlot_meddles hslot)

theorem waitpidScan_meddles (k : Kernel) (pid : ℤ) : Meddles p k (k.waitpidScan pid).kernel := by
  unfold waitpidScan
  refine List.foldlRecOn (motive := fun w : WaitScan => Meddles p k w.kernel) _ _
    (meddles_of_bare rfl) ?_
  intro w hw q _
  refine hw.trans ?_
  unfold waitpidSlot
  dsimp only
  split
  · exact meddles_of_bare rfl
  · split
    next hreap =>
      change Meddles p w.kernel (w.kernel.setState q .exited)
      refine meddles_modify w.kernel q fun _ => ?_
      exact Meddled.reap (w.kernel.processTable q).bare hreap.2
    next => exact meddles_of_bare rfl

theorem reapOrSleep_meddles {pid : ℤ} {wnohang : Bool} (hp : p ≠ k.currentProcess)
    (h : k.reapOrSleep pid wnohang = .ok (k', b)) : Meddles p k k' := by
  have hscan := waitpidScan_meddles (p := p) k pid
  have hcurrent := (waitpidScan_reaps k pid).touches.currentProcess
  unfold reapOrSleep at h
  dsimp only at h
  generalize k.waitpidScan pid = w at h hscan hcurrent
  split at h
  · obtain ⟨rfl, -⟩ := Prod.mk.inj (Except.ok.inj h)
    exact hscan
  · obtain ⟨hsleep, -⟩ := map_flag_eq_ok h
    refine hscan.trans (fallAsleep_meddles ?_ hsleep)
    rw [hcurrent]
    exact hp

theorem getSignalHandler_meddles {i : ℕ} {r : Kernel × Option ℕ} (hp : p ≠ k.currentProcess)
    (hquiet : k.current.sighandlers i = .dfl → defAction i = .ignore ∨ defAction i = .continue)
    (h : k.getSignalHandler i = .ok r) : Meddles p k r.1 := by
  unfold getSignalHandler at h
  cases hhandler : k.current.sighandlers i with
  | ign | user =>
      rw [hhandler] at h
      obtain rfl := Except.ok.inj h
      exact meddles_of_bare rfl
  | dfl =>
      rw [hhandler] at h
      rcases hquiet hhandler with haction | haction
      · rw [haction] at h
        obtain rfl := Except.ok.inj h
        exact meddles_of_bare rfl
      · rw [haction] at h
        dsimp only at h
        split at h
        · obtain ⟨k₁, hadjust, hr⟩ := bind_eq_ok.mp h
          obtain rfl := Except.ok.inj hr
          exact (meddles_modify_of_ne k hp _).adjust hadjust
        · obtain rfl := Except.ok.inj h
          exact meddles_of_bare rfl

theorem deliverSignal_meddles {i : ℕ} (hp : p ≠ k.currentProcess)
    (hquiet : k.current.sigpending.getLsbD i = true → k.current.sighandlers i = .dfl →
      defAction i = .ignore ∨ defAction i = .continue)
    (h : (k.deliverSignal i).map (·.1, false) = .ok (k', b)) : Meddles p k k' := by
  cases hdeliver : k.deliverSignal i with
  | error e =>
      rw [hdeliver] at h
      cases h
  | ok r =>
      rw [hdeliver] at h
      obtain ⟨rfl, -⟩ := Prod.mk.inj (Except.ok.inj h)
      unfold deliverSignal at hdeliver
      split at hdeliver
      next hpending =>
        refine (meddles_modify_of_ne k hp _).trans (getSignalHandler_meddles ?_ ?_ hdeliver)
        · rw [modify_currentProcess]
          exact hp
        · intro hdfl
          refine hquiet hpending ?_
          unfold current at hdfl
          rw [modify_currentProcess, modify_processTable, if_pos rfl] at hdfl
          exact hdfl
      next =>
        obtain rfl := Except.ok.inj hdeliver
        exact meddles_of_bare rfl

theorem prepareSignal_meddles {i : ℕ} (hp : p ≠ k.currentProcess)
    (h : k.prepareSignal i = .ok (k', b)) : Meddles p k k' := by
  unfold prepareSignal at h
  dsimp only at h
  have hclear : Meddles p k (k.modify k.currentProcess fun x =>
      { x with sigpending := x.sigpending &&& ~~~(1#32 <<< i) }) := meddles_modify_of_ne k hp _
  split at h
  next hdfl =>
    cases haction : defAction i with
    | abnormal | terminate =>
        rw [haction] at h
        obtain ⟨hend, -⟩ := map_flag_eq_ok h
        exact hclear.trans (endProcess_meddles hp hend)
    | stop =>
        rw [haction] at h
        obtain ⟨hstop, -⟩ := map_flag_eq_ok h
        exact hclear.trans (stopProcess_meddles hp hstop)
    | ignore =>
        rw [haction] at h
        exact deliverSignal_meddles hp (fun _ _ => Or.inl haction) h
    | «continue» =>
        rw [haction] at h
        exact deliverSignal_meddles hp (fun _ _ => Or.inr haction) h
  next hdfl =>
    exact deliverSignal_meddles hp (fun hpending hhandler => (hdfl ⟨hpending, hhandler⟩).elim) h

theorem forkCopy_meddles {c : Slot} {n : ℕ} (hexited : (k.processTable c).state = .exited)
    (f : Proc → Proc) :
    Meddles p k ((forkCopy { k with lastPid := n } c).modify c f) := by
  by_cases hp : p = c
  · subst hp
    exact Relation.ReflTransGen.single (Meddled.fork _ _ hexited)
  · have hcopy : Meddles p k (forkCopy { k with lastPid := n } c) :=
      meddles_modify_of_ne { k with lastPid := n } hp _
    exact hcopy.trans (meddles_modify_of_ne _ hp f)

/-- What an operation does, up to its `schedule`, to a process other than the current one. -/
theorem prepare_meddles (hp : p ≠ k.currentProcess) (h : op.prepare k = .ok (k₁, b)) :
    Meddles p k k₁ := by
  cases op with
  | fork archOk =>
      cases hfree : k.getFreeProc with
      | none =>
          have hfail : k.kernelFork archOk = .ok k := by
            unfold kernelFork
            rw [hfree]
          cases archOk with
          | true =>
              simp only [Op.prepare, hfree] at h
              obtain ⟨rfl, -⟩ := Prod.mk.inj (Except.ok.inj h)
              exact meddles_of_bare rfl
          | false =>
              obtain ⟨hfork, -⟩ := map_flag_eq_ok (x := k.kernelFork false) h
              rw [hfail] at hfork
              rw [← Except.ok.inj hfork]
              exact meddles_of_bare rfl
      | some found =>
          obtain ⟨c, k₂⟩ := found
          obtain ⟨hexited, rfl⟩ := getFreeProc_eq hfree
          cases archOk with
          | true =>
              simp only [Op.prepare, hfree] at h
              obtain ⟨hadjust, -⟩ := map_flag_eq_ok h
              exact (forkCopy_meddles hexited _).adjust hadjust
          | false =>
              obtain ⟨hfork, -⟩ := map_flag_eq_ok (x := k.kernelFork false) h
              unfold kernelFork at hfork
              rw [hfree] at hfork
              rw [← Except.ok.inj hfork]
              unfold forkFail setState
              exact forkCopy_meddles hexited _
  | exit status =>
      simp only [Op.prepare] at h
      obtain ⟨hend, -⟩ := map_flag_eq_ok h
      exact endProcess_meddles hp hend
  | sleep addr type =>
      obtain ⟨hsleep, -⟩ := map_flag_eq_ok (x := k.fallAsleep addr type) h
      exact fallAsleep_meddles hp hsleep
  | wakeup addr switch =>
      have hwake : k.wakeAll addr switch = .ok (k₁, b) := h
      exact wakeAll_meddles hwake
  | pause =>
      obtain ⟨hadjust, -⟩ := map_flag_eq_ok h
      exact (meddles_modify_of_ne k hp _).adjust hadjust
  | deliver i =>
      have hround : k.prepareSignal i = .ok (k₁, b) := h
      exact prepareSignal_meddles hp hround
  | waitpid pid wnohang =>
      have hwait : k.reapOrSleep pid wnohang = .ok (k₁, b) := h
      exact reapOrSleep_meddles hp hwait
  | tick =>
      obtain ⟨hcharge, -⟩ := map_flag_eq_ok h
      unfold chargeQuantum at hcharge
      split at hcharge
      · have hticks : Meddles p k { k with timerTicks := (k.timerTicks + 1) % 2 ^ 32 } :=
          meddles_of_bare rfl
        exact (hticks.trans (meddles_modify_of_ne _ hp _)).adjust hcharge
      · obtain rfl := Except.ok.inj hcharge
        exact meddles_modify_of_ne { k with timerTicks := (k.timerTicks + 1) % 2 ^ 32 } hp _
  | schedule =>
      obtain ⟨rfl, -⟩ := Prod.mk.inj (Except.ok.inj h)
      exact meddles_of_bare rfl
  | nice inc =>
      obtain ⟨hnice, -⟩ := map_flag_eq_ok h
      exact (meddles_modify_of_ne k hp _).adjust hnice
  | alarm seconds =>
      obtain ⟨hwrite, -⟩ := map_flag_eq_ok (x := .ok (k.kernelAlarm seconds).1) h
      rw [← Except.ok.inj hwrite]
      unfold kernelAlarm
      dsimp only
      exact meddles_modify_of_ne k hp _
  | ttySetTimer vtime =>
      obtain ⟨hwrite, -⟩ := map_flag_eq_ok (x := .ok (k.ttySetTimer vtime)) h
      rw [← Except.ok.inj hwrite]
      exact meddles_modify_of_ne k hp _
  | ttyClearTimer =>
      obtain ⟨hwrite, -⟩ := map_flag_eq_ok (x := .ok k.ttyClearTimer) h
      rw [← Except.ok.inj hwrite]
      exact meddles_modify_of_ne k hp _
  | waitpidWoken =>
      obtain ⟨hwrite, -⟩ := map_flag_eq_ok (x := .ok k.waitpidWoken) h
      rw [← Except.ok.inj hwrite]
      exact meddles_modify_of_ne k hp _
  | signal sig handler =>
      obtain ⟨hsignal, -⟩ := map_flag_eq_ok (x := .ok (k.kernelSignal sig handler)) h
      obtain rfl := Except.ok.inj hsignal
      unfold kernelSignal
      split
      · exact meddles_of_bare rfl
      · split_ifs
        · exact meddles_of_bare rfl
        · exact meddles_of_bare rfl
        · exact meddles_modify_of_ne k hp _
  | kill pid sig =>
      obtain ⟨hexec, -⟩ := map_flag_eq_ok (x := (k.kernelKill pid sig).map Prod.fst) h
      obtain ⟨r, hkill, rfl⟩ := map_fst_eq_ok hexec
      exact kernelKill_meddles hkill

/-! ## What `schedule` writes -/

/-- What the first loop of `schedule` may do to a process. -/
inductive Roused : Proc → Proc → Prop
  | alarm (x : Proc) (bits : BitVec 32) :
      Roused x { x with sigpending := x.sigpending ||| bits, alarm := 0 }
  | timer (x : Proc) (hset : x.ttyBlock ≠ 0) :
      Roused x { x with state := .runnable, ttyBlock := 0 }
  | signal (x : Proc) (hasleep : x.state = .sleepInterruptible) (hpending : x.sigpending ≠ 0) :
      Roused x { x with state := .runnable }

/-- What `schedule` may do to a process. -/
inductive Scheduled : Proc → Proc → Prop
  | rouse {x y : Proc} (h : Roused x y) : Scheduled x y
  | run (x : Proc) : Scheduled x { x with state := .running }

def Rouses (p : Slot) (k k' : Kernel) : Prop :=
  Relation.ReflTransGen Roused (k.processTable p).bare (k'.processTable p).bare

def Schedules (p : Slot) (k k' : Kernel) : Prop :=
  Relation.ReflTransGen Scheduled (k.processTable p).bare (k'.processTable p).bare

theorem rouses_of_bare (h : (k'.processTable p).bare = (k.processTable p).bare) :
    Rouses p k k' := by
  unfold Rouses
  rw [h]

theorem Rouses.trans (h : Rouses p k k₁) (h' : Rouses p k₁ k') : Rouses p k k' :=
  Relation.ReflTransGen.trans h h'

theorem rouses_single (h : Roused (k.processTable p).bare (k'.processTable p).bare) :
    Rouses p k k' :=
  Relation.ReflTransGen.single h

theorem raiseAlarm_rouses (k : Kernel) (p : Slot) : Rouses p k (k.raiseAlarm p) := by
  unfold raiseAlarm
  split
  · refine rouses_single ?_
    rw [modify_processTable, if_pos rfl]
    exact Roused.alarm (k.processTable p).bare _
  · exact rouses_of_bare rfl

theorem expireTty_rouses (h : k.expireTty p = .ok k') : Rouses p k k' := by
  unfold expireTty at h
  split at h
  next hexpired =>
    obtain ⟨k₁, hadjust, hclear⟩ := bind_eq_ok.mp h
    have hbare := runnable_bare hadjust p
    rw [if_pos rfl] at hbare
    have hafter : (k'.processTable p).bare =
        { (k.processTable p).bare with state := .runnable, ttyBlock := 0 } := by
      rw [← Except.ok.inj hclear, modify_processTable, if_pos rfl]
      have hcleared := congrArg (fun x : Proc => { x with ttyBlock := 0 }) hbare
      exact hcleared
    refine rouses_single ?_
    rw [hafter]
    refine Roused.timer (k.processTable p).bare ?_
    unfold ttyExpired at hexpired
    exact (of_decide_eq_true hexpired).1
  next =>
    obtain rfl := Except.ok.inj h
    exact rouses_of_bare rfl

theorem wakeOnSignal_rouses (h : k.wakeOnSignal p = .ok k') : Rouses p k k' := by
  unfold wakeOnSignal at h
  split at h
  next hwake =>
    have hbare := runnable_bare h p
    rw [if_pos rfl] at hbare
    refine rouses_single ?_
    rw [hbare]
    exact Roused.signal (k.processTable p).bare hwake.1 hwake.2
  next =>
    obtain rfl := Except.ok.inj h
    exact rouses_of_bare rfl

theorem scheduleSlot_rouses (h : k.scheduleSlot q = .ok k') (p : Slot) : Rouses p k k' := by
  by_cases hp : p = q
  · subst hp
    obtain ⟨k₁, hexpire, hwake⟩ := bind_eq_ok.mp h
    have hraise := raiseAlarm_rouses k p
    exact (hraise.trans (expireTty_rouses hexpire)).trans (wakeOnSignal_rouses hwake)
  · exact rouses_of_bare ((turn_scheduleSlot h).others p hp)

theorem scheduleLoop_rouses {slots : List Slot} (h : slots.foldlM scheduleSlot k = .ok k')
    (p : Slot) : Rouses p k k' := by
  refine foldlM_invariant (Rouses p k) ?_ (rouses_of_bare rfl) h
  intro k₂ q k₃ _ hinv hslot
  exact hinv.trans (scheduleSlot_rouses hslot p)

theorem Rouses.schedules (h : Rouses p k k') : Schedules p k k' :=
  Relation.ReflTransGen.mono (fun _ _ hstep => Scheduled.rouse hstep) _ _ h

theorem pickNext_schedules (h : k.pickNext = .ok k') (p : Slot) : Schedules p k k' := by
  unfold pickNext at h
  cases hfind : queueOrder.findSome? k.processQueues with
  | none =>
      rw [hfind] at h
      cases h
  | some c =>
      rw [hfind] at h
      obtain rfl := Except.ok.inj h
      by_cases hp : p = c
      · subst hp
        refine Relation.ReflTransGen.single ?_
        change Scheduled _ ((k.setState p .running).processTable p).bare
        unfold setState
        rw [modify_processTable, if_pos rfl]
        exact Scheduled.run (k.processTable p).bare
      · refine (rouses_of_bare ?_).schedules
        change ((k.setState c .running).processTable p).bare = _
        unfold setState
        rw [modify_processTable, if_neg hp]

theorem schedule_schedules (h : k.schedule = .ok k') (p : Slot) : Schedules p k k' := by
  obtain ⟨k₁, hloop, hpick⟩ := bind_eq_ok.mp h
  exact Relation.ReflTransGen.trans (scheduleLoop_rouses hloop p).schedules
    (pickNext_schedules hpick p)

theorem finish_schedules (h : finish k b = .ok k') (p : Slot) : Schedules p k k' := by
  unfold finish at h
  split at h
  · exact schedule_schedules h p
  · obtain rfl := Except.ok.inj h
    exact Relation.ReflTransGen.refl

end Kernel

end Yak.Process
