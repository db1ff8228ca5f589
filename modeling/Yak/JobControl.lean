import Yak.QueueInvariant
import Mathlib.Tactic

/-!
# Signals for parents and for stopped processes

`kernel_exit` tells the parent through `kernel_kill`, that is, if the child may signal the
parent and the parent is not stopped.  A stopped process is woken by no signal at all:
`schedule` wakes it only when a terminal timer runs out.
-/

namespace Yak.Process

open LinkedRing

namespace Kernel

variable {k k' k₀ k₁ : Kernel} {p q r : Slot}

/-! ## What `schedule` does to one slot -/

/-- Making a slot runnable changes its state and nothing else of the slots. -/
theorem runnable_bare (h : (k.setState p .runnable).adjustProcQueues p = .ok k') (r : Slot) :
    (k'.processTable r).bare =
      if r = p then { k.processTable r with state := .runnable }.bare
      else (k.processTable r).bare := by
  have hcore := adjustProcQueues_sameCore h
  rw [hcore.bare]
  unfold setState
  rw [modify_processTable]
  split <;> rfl

theorem getLsbD_bit {n : ℕ} (hn : n < 32) (i : ℕ) : (1#32 <<< n).getLsbD i = decide (i = n) := by
  rw [BitVec.getLsbD_shiftLeft, BitVec.getLsbD_one]
  by_cases hi : i = n
  · simp [hi, hn]
  · simp only [hi, decide_false, Bool.and_eq_false_iff, decide_eq_false_iff_not,
      Bool.not_eq_false', decide_eq_true_eq]
    omega

/-- The signals which an expired alarm raises. -/
def alarmBit (k : Kernel) (p : Slot) (i : ℕ) : Bool := k.alarmExpired p && decide (i = sigalrm - 1)

theorem raiseAlarm_bare (k : Kernel) (p : Slot) :
    (∀ r ≠ p, (k.raiseAlarm p).processTable r = k.processTable r) ∧
      ((k.raiseAlarm p).processTable p).state = (k.processTable p).state ∧
      ((k.raiseAlarm p).processTable p).ttyBlock = (k.processTable p).ttyBlock ∧
      ∀ i, ((k.raiseAlarm p).processTable p).sigpending.getLsbD i =
        ((k.processTable p).sigpending.getLsbD i || k.alarmBit p i) := by
  unfold raiseAlarm alarmBit
  split
  next hexp =>
    refine ⟨?_, ?_, ?_, ?_⟩
    · intro r hr
      rw [modify_processTable, if_neg hr]
    · rw [modify_processTable, if_pos rfl]
    · rw [modify_processTable, if_pos rfl]
    · intro i
      have hlt : sigalrm - 1 < 32 := by decide
      rw [modify_processTable, if_pos rfl, hexp, Bool.true_and, ← getLsbD_bit hlt i,
        BitVec.getLsbD_or]
  next hexp =>
    rw [Bool.not_eq_true] at hexp
    refine ⟨fun _ _ => rfl, rfl, rfl, ?_⟩
    intro i
    rw [hexp, Bool.false_and, Bool.or_false]

/-- The turn of one slot in the first loop. -/
structure Turn (p : Slot) (k k' : Kernel) : Prop where
  others : ∀ r ≠ p, (k'.processTable r).bare = (k.processTable r).bare
  ticks : k'.timerTicks = k.timerTicks
  current : k'.currentProcess = k.currentProcess
  woken : k.ttyExpired p = true ∨
      ((k.processTable p).state = .sleepInterruptible ∧ (k.processTable p).sigpending ≠ 0) →
    (k'.processTable p).state = .runnable
  pending : ∀ i, (k'.processTable p).sigpending.getLsbD i =
    ((k.processTable p).sigpending.getLsbD i || k.alarmBit p i)

theorem state_of_bare {x y : Proc} (h : x.bare = y.bare) : x.state = y.state := by
  have hstate := congrArg Proc.state h
  exact hstate

theorem sigpending_of_bare {x y : Proc} (h : x.bare = y.bare) : x.sigpending = y.sigpending := by
  have hpending := congrArg Proc.sigpending h
  exact hpending

theorem ttyBlock_of_bare {x y : Proc} (h : x.bare = y.bare) : x.ttyBlock = y.ttyBlock := by
  have hblock := congrArg Proc.ttyBlock h
  exact hblock

theorem ne_zero_of_getLsbD {x y : BitVec 32} (hx : x ≠ 0)
    (h : ∀ i, x.getLsbD i = true → y.getLsbD i = true) : y ≠ 0 := by
  rintro rfl
  apply hx
  apply BitVec.eq_of_getLsbD_eq
  intro i _
  cases hbit : x.getLsbD i with
  | false => simp
  | true =>
      have hzero := h i hbit
      simp at hzero

theorem turn_expireTty (h : k.expireTty p = .ok k') :
    (∀ r ≠ p, (k'.processTable r).bare = (k.processTable r).bare) ∧
      k'.timerTicks = k.timerTicks ∧ k'.currentProcess = k.currentProcess ∧
      (k'.processTable p).sigpending = (k.processTable p).sigpending ∧
      (k'.processTable p).state =
        if k.ttyExpired p then .runnable else (k.processTable p).state := by
  unfold expireTty at h
  split at h
  next hexp =>
    obtain ⟨k₁, hadj, hk'⟩ := bind_eq_ok.mp h
    have hbare := runnable_bare hadj
    have hcore := adjustProcQueues_sameCore hadj
    rw [← Except.ok.inj hk']
    refine ⟨?_, hcore.timerTicks, hcore.currentProcess, ?_, ?_⟩
    · intro r hr
      rw [modify_processTable, if_neg hr, hbare, if_neg hr]
    · rw [modify_processTable, if_pos rfl]
      have hself := hbare p
      rw [if_pos rfl] at hself
      have hsame := sigpending_of_bare hself
      exact hsame
    · rw [modify_processTable, if_pos rfl, if_pos hexp]
      have hself := hbare p
      rw [if_pos rfl] at hself
      have hsame := state_of_bare hself
      exact hsame
  next hexp =>
    rw [← Except.ok.inj h]
    exact ⟨fun _ _ => rfl, rfl, rfl, rfl, (if_neg hexp).symm⟩

theorem turn_scheduleSlot (h : k.scheduleSlot p = .ok k') : Turn p k k' := by
  unfold scheduleSlot at h
  obtain ⟨k₁, hexpire, hwake⟩ := bind_eq_ok.mp h
  obtain ⟨halarm, hastate, hatty, hapending⟩ := raiseAlarm_bare k p
  obtain ⟨hothers, hticks, hcurrent, hpending, hstate⟩ := turn_expireTty hexpire
  have hexpired : (k.raiseAlarm p).ttyExpired p = k.ttyExpired p := by
    unfold ttyExpired
    rw [hatty]
    unfold raiseAlarm
    split <;> rfl
  have haticks : (k.raiseAlarm p).timerTicks = k.timerTicks ∧
      (k.raiseAlarm p).currentProcess = k.currentProcess := by
    unfold raiseAlarm
    split <;> exact ⟨rfl, rfl⟩
  rw [hexpired, hastate] at hstate
  have hpending₁ : ∀ i, (k₁.processTable p).sigpending.getLsbD i =
      ((k.processTable p).sigpending.getLsbD i || k.alarmBit p i) := by
    intro i
    rw [hpending]
    exact hapending i
  unfold wakeOnSignal at hwake
  split at hwake
  next hsleep =>
    have hbare := runnable_bare hwake
    have hcore := adjustProcQueues_sameCore hwake
    have hself := hbare p
    rw [if_pos rfl] at hself
    refine ⟨?_, ?_, ?_, fun _ => state_of_bare hself, ?_⟩
    · intro r hr
      rw [hbare, if_neg hr, hothers r hr, halarm r hr]
    · rw [hcore.timerTicks]
      exact hticks.trans haticks.1
    · rw [hcore.currentProcess]
      exact hcurrent.trans haticks.2
    · intro i
      rw [sigpending_of_bare hself]
      exact hpending₁ i
  next hsleep =>
    rw [← Except.ok.inj hwake]
    refine ⟨?_, hticks.trans haticks.1, hcurrent.trans haticks.2, ?_, hpending₁⟩
    · intro r hr
      rw [hothers r hr, halarm r hr]
    · intro hcause
      rw [hstate]
      split
      next => rfl
      next hexp =>
        obtain ⟨hsl, hne⟩ := hcause.resolve_left hexp
        refine (hsleep ⟨?_, ?_⟩).elim
        · rw [hstate, if_neg hexp]
          exact hsl
        · apply ne_zero_of_getLsbD hne
          intro i hi
          rw [hpending₁, hi, Bool.true_or]

/-- The first loop comes to a slot once, and leaves it alone before and after. -/
theorem scheduleLoop_slot (slots : List Slot) (hnodup : slots.Nodup) (hp : p ∈ slots)
    (h : slots.foldlM scheduleSlot k = .ok k') :
    ∃ k₀ k₁ : Kernel, (k₀.processTable p).bare = (k.processTable p).bare ∧
      k₀.timerTicks = k.timerTicks ∧
      k₀.scheduleSlot p = .ok k₁ ∧ (k'.processTable p).bare = (k₁.processTable p).bare := by
  induction slots generalizing k with
  | nil => cases hp
  | cons q slots ih =>
      obtain ⟨hq, hnodup⟩ := List.nodup_cons.mp hnodup
      rw [List.foldlM_cons] at h
      obtain ⟨k₁, hturn, hrest⟩ := bind_eq_ok.mp h
      have hfirst := turn_scheduleSlot hturn
      rcases List.mem_cons.mp hp with rfl | hp
      · refine ⟨k, k₁, rfl, rfl, hturn, ?_⟩
        exact scheduleLoop_others slots hq hrest
      · obtain ⟨k₂, k₃, hbare, hticks, hmine, hlast⟩ := ih hnodup hp hrest
        have hne : p ≠ q := fun heq => hq (heq ▸ hp)
        exact ⟨k₂, k₃, hbare.trans (hfirst.others p hne), hticks.trans hfirst.ticks, hmine, hlast⟩
where
  scheduleLoop_others {p : Slot} {k k' : Kernel} (slots : List Slot) (hp : p ∉ slots)
      (h : slots.foldlM scheduleSlot k = .ok k') :
      (k'.processTable p).bare = (k.processTable p).bare := by
    refine foldlM_invariant (fun k₁ => (k₁.processTable p).bare = (k.processTable p).bare) ?_ rfl h
    intro k₁ q k₂ hq hsame hturn
    have hne : p ≠ q := fun heq => hp (heq ▸ hq)
    rw [(turn_scheduleSlot hturn).others p hne, hsame]

/-- The first loop treats a slot as if it were alone. -/
theorem scheduleLoop_turn (slots : List Slot) (hnodup : slots.Nodup) (hp : p ∈ slots)
    (h : slots.foldlM scheduleSlot k = .ok k') :
    ∃ k₀ k₁, (k₀.processTable p).bare = (k.processTable p).bare ∧ k₀.timerTicks = k.timerTicks ∧
      Turn p k₀ k₁ ∧ (k'.processTable p).bare = (k₁.processTable p).bare := by
  obtain ⟨k₀, k₁, hbare, hticks, hturn, hlast⟩ := scheduleLoop_slot slots hnodup hp h
  exact ⟨k₀, k₁, hbare, hticks, turn_scheduleSlot hturn, hlast⟩

/-- The second loop may set the state to running. -/
theorem pickNext_slot (h : k.pickNext = .ok k') (p : Slot) :
    ((k'.processTable p).state = (k.processTable p).state ∨
        (k'.processTable p).state = .running) ∧
      (k'.processTable p).sigpending = (k.processTable p).sigpending := by
  unfold pickNext at h
  split at h
  next c _ =>
    rw [← Except.ok.inj h]
    have htable : ∀ r, ({ k.setState c .running with currentProcess := c } : Kernel).processTable r =
        if r = c then { k.processTable r with state := .running } else k.processTable r := by
      intro r
      unfold setState
      rw [← modify_processTable k c r fun x => { x with state := .running }]
    rw [htable]
    split
    next => exact ⟨Or.inr rfl, rfl⟩
    next => exact ⟨Or.inl rfl, rfl⟩
  next => cases h

/-- What `schedule` guarantees for a slot, whatever the queues look like. -/
theorem schedule_slot (h : k.schedule = .ok k') (p : Slot) :
    (k.ttyExpired p = true ∨
        ((k.processTable p).state = .sleepInterruptible ∧ (k.processTable p).sigpending ≠ 0) →
      (k'.processTable p).state.queued = true) ∧
    ∀ i, i ≠ sigalrm - 1 → (k'.processTable p).sigpending.getLsbD i =
      (k.processTable p).sigpending.getLsbD i := by
  unfold schedule at h
  obtain ⟨k₂, hloop, hpick⟩ := bind_eq_ok.mp h
  obtain ⟨k₀, k₁, hbare, hticks, hturn, hlast⟩ :=
    scheduleLoop_turn _ (List.nodup_finRange nrProc) (List.mem_finRange p) hloop
  obtain ⟨hstate, hpending⟩ := pickNext_slot hpick p
  have hexpired : k₀.ttyExpired p = k.ttyExpired p := by
    unfold ttyExpired
    rw [ttyBlock_of_bare hbare, hticks]
  constructor
  · intro hcause
    rw [← hexpired, ← state_of_bare hbare, ← sigpending_of_bare hbare] at hcause
    have hrun := hturn.woken hcause
    rw [← state_of_bare hlast] at hrun
    rcases hstate with heq | heq
    · rw [heq, hrun]
      rfl
    · rw [heq]
      rfl
  · intro i hi
    rw [hpending, sigpending_of_bare hlast, hturn.pending, sigpending_of_bare hbare]
    unfold alarmBit
    rw [decide_eq_false hi, Bool.and_false, Bool.or_false]

/-! ## The notice of an exit -/

theorem reparentSlots_processTable (slots : List Slot) (hnodup : slots.Nodup) (k : Kernel)
    (p : Slot) :
    (slots.foldl reparentSlot k).processTable p =
      if p ∈ slots ∧ (k.processTable p).state ≠ .exited ∧ (k.processTable p).ppid = k.current.pid
      then { k.processTable p with ppid := 1 } else k.processTable p := by
  induction slots generalizing k with
  | nil => simp
  | cons q slots ih =>
      obtain ⟨hq, hnodup⟩ := List.nodup_cons.mp hnodup
      have hpid : (k.reparentSlot q).current.pid = k.current.pid := by
        unfold reparentSlot current
        split
        · rw [modify_processTable, modify_currentProcess]
          split <;> rfl
        · rfl
      rw [List.foldl_cons, ih hnodup, hpid]
      unfold reparentSlot
      by_cases hpq : p = q
      · subst hpq
        split
        next hmine => simp [modify_processTable, hq, hmine]
        next hmine => simp [hq, hmine]
      · split
        next => simp [modify_processTable, hpq]
        next => simp [hpq]

theorem reparent_processTable (k : Kernel) (p : Slot) :
    k.reparent.processTable p =
      if (k.processTable p).state ≠ .exited ∧ (k.processTable p).ppid = k.current.pid
      then { k.processTable p with ppid := 1 } else k.processTable p := by
  unfold reparent
  rw [reparentSlots_processTable _ (List.nodup_finRange nrProc)]
  simp

theorem reparent_currentProcess (k : Kernel) : k.reparent.currentProcess = k.currentProcess :=
  (reparent_touches (s := fun _ => False) k).currentProcess

/-- The process which `kernel_exit` signals: its parent, or process 1 if it is its own parent. -/
def notifiedPid (k : Kernel) : ℤ := if k.current.ppid = k.current.pid then 1 else k.current.ppid

/-- The kernel in which `kernel_exit` calls `kernel_kill`. -/
def exiting (k : Kernel) (status : ℕ) : Kernel :=
  (k.reparent.modify k.currentProcess fun x => { x with exitCode := status % 256 }).setState
    k.currentProcess .zombie

theorem exiting_processTable (k : Kernel) (status : ℕ) (p : Slot) :
    ((k.exiting status).processTable p).sigpending = (k.processTable p).sigpending ∧
      ((k.exiting status).processTable p).uid = (k.processTable p).uid ∧
      ((k.exiting status).processTable p).euid = (k.processTable p).euid ∧
      ((k.exiting status).processTable p).suid = (k.processTable p).suid ∧
      ((k.exiting status).processTable p).state =
        if p = k.currentProcess then .zombie else (k.processTable p).state := by
  unfold exiting setState
  rw [modify_processTable]
  by_cases hp : p = k.currentProcess
  · rw [if_pos hp, if_pos hp, modify_processTable, if_pos hp, reparent_processTable]
    split <;> exact ⟨rfl, rfl, rfl, rfl, rfl⟩
  · rw [if_neg hp, if_neg hp, modify_processTable, if_neg hp, reparent_processTable]
    split <;> exact ⟨rfl, rfl, rfl, rfl, rfl⟩

theorem sigPermission_congr {x x' y y' : Proc} (hx : x'.uid = x.uid ∧ x'.euid = x.euid)
    (hy : y'.uid = y.uid ∧ y'.suid = y.suid) : sigPermission x' y' = sigPermission x y := by
  unfold sigPermission
  rw [hx.1, hx.2, hy.1, hy.2]

/-- The bit of `SIGCHLD` after the signal of `kernel_exit`. -/
theorem sendSignal_sigchld (k : Kernel) (target p : Slot) :
    (((k.sendSignal target sigchld).1.processTable p).sigpending.getLsbD (sigchld - 1) = true ↔
      (k.processTable p).sigpending.getLsbD (sigchld - 1) = true ∨
        p = target ∧ sigPermission k.current (k.processTable target) = true ∧
          (k.processTable target).state ≠ .stopped) ∧
      ((k.sendSignal target sigchld).1.processTable p).state = (k.processTable p).state := by
  unfold sendSignal
  split
  next hperm => simp [hperm]
  next hperm =>
    rw [Bool.not_eq_false] at hperm
    split
    next hsend =>
      have hrunning : (k.processTable target).state ≠ .stopped :=
        (hsend.resolve_left (by decide)).2
      dsimp only
      rw [modify_processTable]
      split
      next hp =>
        have hbit : (1#32 <<< (sigchld - 1)).getLsbD (sigchld - 1) = true := by decide
        simp [hp, hperm, hrunning, BitVec.getLsbD_or, hbit]
      next hp => simp [hp]
    next hsend =>
      have hstopped : (k.processTable target).state = .stopped := by
        by_contra hne
        exact hsend (Or.inr ⟨by decide, hne⟩)
      simp [hstopped]

/-- `SIGCHLD` is pending in the parent, and if it slept in `kernel_waitpid` it is on a queue. -/
def Notified (k k' : Kernel) (parent : Slot) : Prop :=
  (k'.processTable parent).sigpending.getLsbD (sigchld - 1) = true ∧
    ((k.processTable parent).state = .sleepInterruptible →
      (k'.processTable parent).state.queued = true)

theorem kernelKill_one {sig : ℕ} (hsig : sig ≤ nsig) (target : Slot) (htarget : target.val ≠ 0) :
    k.kernelKill target.val sig = .ok ((k.sendSignal target sig).1,
      if (k.sendSignal target sig).2 then 0 else -eperm) := by
  unfold kernelKill
  have hrange : ¬((sig : ℤ) < 0 ∨ (nsig : ℤ) < sig) := by omega
  have hpos : (0 : ℤ) < target.val := by omega
  have hlt : (target.val : ℤ).toNat < nrProc := by
    rw [Int.toNat_natCast]
    exact target.isLt
  rw [if_neg hrange, if_pos hpos, dif_pos hlt]
  simp only [Int.toNat_natCast]

/-- The parent which the process has when `kernel_exit` looks at it. -/
theorem exitCode_ppid (hcurrent : k.current.state ≠ .exited) (status : ℕ) :
    (k.reparent.modify k.currentProcess fun x =>
      { x with exitCode := status % 256 }).current.ppid = k.notifiedPid := by
  have htable : k.reparent.processTable k.currentProcess =
      if k.current.ppid = k.current.pid then { k.current with ppid := 1 } else k.current := by
    rw [reparent_processTable]
    unfold current at hcurrent ⊢
    simp [hcurrent]
  unfold current
  rw [modify_processTable, modify_currentProcess, reparent_currentProcess, if_pos rfl, htable]
  unfold notifiedPid
  split <;> rfl

/-- `kernel_exit` up to `schedule`: the process is a zombie and its parent has been signalled. -/
theorem exitMark_notified {status : ℕ} (hppid : k.current.ppid ≠ 0)
    (hcurrent : k.current.state ≠ .exited) (target : Slot) (htarget : k.notifiedPid = target.val)
    (h : k.exitMark status = .ok k') : k' = ((k.exiting status).sendSignal target sigchld).1 := by
  have hchild := exitCode_ppid hcurrent status
  have hne : k.notifiedPid ≠ 0 := by
    unfold notifiedPid
    split
    · decide
    · exact hppid
  have hval : target.val ≠ 0 := by
    intro hzero
    apply hne
    rw [htarget, hzero]
    rfl
  unfold exitMark at h
  dsimp only at h
  rw [hchild, if_pos hne, modify_currentProcess, reparent_currentProcess, htarget] at h
  have hle : sigchld ≤ nsig := by decide
  rw [kernelKill_one hle target hval, ok_bind] at h
  rw [← Except.ok.inj h, exiting]

theorem notifiedPid_slot {parent : Slot} (hparent : k.current.ppid = parent.val) :
    ∃ target : Slot, k.notifiedPid = target.val := by
  unfold notifiedPid
  split
  next => exact ⟨⟨1, by decide⟩, rfl⟩
  next => exact ⟨parent, hparent⟩

/-- A process is stopped in the exiting kernel exactly if it was. -/
theorem exiting_stopped_iff (hcurrent : k.current.state.queued = true) (status : ℕ) (p : Slot) :
    ((k.exiting status).processTable p).state = .stopped ↔
      (k.processTable p).state = .stopped := by
  obtain ⟨-, -, -, -, hstate⟩ := exiting_processTable k status p
  rw [hstate]
  split
  next hself =>
    unfold current at hcurrent
    rw [hself]
    constructor
    · exact fun h => ProcState.noConfusion h
    · intro h
      rw [h] at hcurrent
      cases hcurrent
  next => exact Iff.rfl

theorem exiting_sigPermission (k : Kernel) (status : ℕ) (p : Slot) :
    sigPermission (k.exiting status).current ((k.exiting status).processTable p) =
      sigPermission k.current (k.processTable p) := by
  obtain ⟨-, huid, -, hsuid, -⟩ := exiting_processTable k status p
  obtain ⟨-, hcuid, hceuid, -, -⟩ := exiting_processTable k status k.currentProcess
  have hcur : (k.exiting status).currentProcess = k.currentProcess := by
    unfold exiting setState
    rw [modify_currentProcess, modify_currentProcess, reparent_currentProcess]
  apply sigPermission_congr
  · unfold current
    rw [hcur]
    exact ⟨hcuid, hceuid⟩
  · exact ⟨huid, hsuid⟩

/-- A process which exits notifies its parent exactly if it may signal it and it is not stopped.
(A process which is its own parent is handed to process 1 first.) -/
theorem notified_iff {status : ℕ} {parent : Slot} (hrun : k.kernelExit status = .ok k')
    (hcurrent : k.current.state.queued = true) (hparent : k.current.ppid = parent.val)
    (hpos : parent.val ≠ 0) :
    Notified k k' parent ↔
      (k.processTable parent).sigpending.getLsbD (sigchld - 1) = true ∨
        k.notifiedPid = parent.val ∧ sigPermission k.current (k.processTable parent) = true ∧
          (k.processTable parent).state ≠ .stopped := by
  obtain ⟨target, htarget⟩ := notifiedPid_slot hparent
  have hppid : k.current.ppid ≠ 0 := by
    rw [hparent]
    exact Int.natCast_ne_zero.mpr hpos
  unfold kernelExit at hrun
  obtain ⟨k₁, hmark, hrest⟩ := bind_eq_ok.mp hrun
  obtain ⟨k₂, hadj, hsched⟩ := bind_eq_ok.mp hrest
  have hk₁ := exitMark_notified hppid (ne_exited_of_queued hcurrent) target htarget hmark
  have hcore := adjustProcQueues_sameCore hadj
  obtain ⟨hwake, hbits⟩ := schedule_slot hsched parent
  obtain ⟨hsame, -, -, -, hstate⟩ := exiting_processTable k status parent
  obtain ⟨hbit, hkept⟩ := sendSignal_sigchld (k.exiting status) target parent
  rw [← hk₁] at hbit hkept
  have hpending : (k'.processTable parent).sigpending.getLsbD (sigchld - 1) = true ↔
      (k.processTable parent).sigpending.getLsbD (sigchld - 1) = true ∨
        k.notifiedPid = parent.val ∧ sigPermission k.current (k.processTable parent) = true ∧
          (k.processTable parent).state ≠ .stopped := by
    rw [hbits _ (by decide), hcore.sigpending, hbit, hsame, htarget]
    apply or_congr_right
    constructor
    · rintro ⟨rfl, hp, hs⟩
      rw [exiting_sigPermission] at hp
      exact ⟨rfl, hp, fun h => hs ((exiting_stopped_iff hcurrent status parent).mpr h)⟩
    · rintro ⟨heq, hp, hs⟩
      obtain rfl : parent = target := Fin.ext (Int.natCast_inj.mp heq.symm)
      refine ⟨rfl, ?_, fun h => hs ((exiting_stopped_iff hcurrent status parent).mp h)⟩
      rw [exiting_sigPermission]
      exact hp
  unfold Notified
  rw [hpending]
  refine ⟨And.left, fun hcause => ⟨hcause, ?_⟩⟩
  intro hsleep
  have hne : parent ≠ k.currentProcess := by
    rintro rfl
    unfold current at hcurrent
    rw [hsleep] at hcurrent
    cases hcurrent
  apply hwake
  right
  rw [hcore.state, hkept, hstate, if_neg hne]
  refine ⟨hsleep, ?_⟩
  intro hzero
  have hset := hpending.mpr hcause
  rw [hbits _ (by decide), hzero] at hset
  simp at hset

/-- `kernel_setuid`; the result is whether it was permitted. -/
def kernelSetuid (k : Kernel) (uid : ℤ) : Kernel × Bool :=
  if k.current.uid = 0 ∨ k.current.euid = 0 then
    (k.modify k.currentProcess fun x => { x with uid := uid, euid := uid, suid := uid }, true)
  else if uid = k.current.uid ∨ uid = k.current.suid then
    (k.modify k.currentProcess fun x => { x with euid := uid }, true)
  else (k, false)

instance (k k' : Kernel) (parent : Slot) : Decidable (Notified k k' parent) :=
  inferInstanceAs (Decidable (_ ∧ (_ → _)))

/-- Process 1 waits for process 2, which sets its user and exits. -/
def childExits (uid : ℤ) : Except Halt (Kernel × Kernel) := do
  let k ← processesInit.exec [.fork true, .fork true, .waitpid (-1) false]
  let k := (k.kernelSetuid uid).1
  let k' ← k.kernelExit 3
  .ok (k, k')

theorem childExits_eq_ok {uid : ℤ} (h : childExits uid = .ok (k, k')) : k.kernelExit 3 = .ok k' := by
  obtain ⟨k₁, _, h₁⟩ := bind_eq_ok.mp h
  obtain ⟨k₂, hexit, h₂⟩ := bind_eq_ok.mp h₁
  obtain ⟨rfl, rfl⟩ := Prod.mk.inj (Except.ok.inj h₂)
  exact hexit

theorem notified_iff_child : ∃ k k', childExits 0 = .ok (k, k') ∧ Notified k k' ⟨1, by decide⟩ := by
  have hfacts : (childExits 0).map (fun r => decide (r.1.current.ppid = 1 ∧
      r.1.current.state.queued = true ∧ r.1.notifiedPid = 1 ∧
      sigPermission r.1.current (r.1.processTable ⟨1, by decide⟩) = true ∧
      (r.1.processTable ⟨1, by decide⟩).state ≠ .stopped)) = .ok true := by decide +kernel
  obtain ⟨⟨k, k'⟩, hrun, hppid, hqueued, hcause⟩ := exists_of_map_decide hfacts
  exact ⟨k, k', hrun,
    (notified_iff (childExits_eq_ok hrun) hqueued hppid (by decide)).mpr (Or.inr hcause)⟩

/-- A child of another user. -/
theorem not_notified_setuid : ∃ k k', childExits 1000 = .ok (k, k') ∧ k.current.ppid = 1 ∧
    (k.processTable ⟨1, by decide⟩).state = .sleepInterruptible ∧
    ¬Notified k k' ⟨1, by decide⟩ := by
  have hfacts : (childExits 1000).map (fun r => decide (r.1.current.ppid = 1 ∧
      (r.1.processTable ⟨1, by decide⟩).state = .sleepInterruptible ∧
      ¬Notified r.1 r.2 ⟨1, by decide⟩)) = .ok true := by decide +kernel
  obtain ⟨⟨k, k'⟩, hrun, hfact⟩ := exists_of_map_decide hfacts
  exact ⟨k, k', hrun, hfact⟩

/-! ## Stopped processes -/

def sigcont : ℕ := 12

/-- `schedule` puts a stopped process on a queue exactly if its terminal timer has run out. -/
theorem Settled.stopped_iff {rings : ℕ → List Slot} {loose : Slot → Prop}
    (h : Settled k rings loose) (hquiet : Quiet k loose)
    (hstopped : (k.processTable p).state = .stopped) (hsched : k.schedule = .ok k') :
    (k'.processTable p).state.queued = true ↔ k.ttyExpired p = true := by
  constructor
  · intro hqueued
    obtain ⟨k₁, rings', c, hadvance, _, hc, rfl⟩ := h.linked.schedule hquiet hsched
    rcases hadvance.slot p with ⟨hsame, hring⟩ | ⟨_, _, hcause⟩
    · -- off the queues, the process is not the one which is chosen
      have hoff : ¬OnRing rings' p := by
        rw [hring, h.onRing_iff, hstopped]
        exact Bool.false_ne_true
      have hne : p ≠ c := fun heq => hoff (heq ▸ hc)
      rw [run_processTable, if_neg hne, hsame, hstopped] at hqueued
      cases hqueued
    · rw [hstopped] at hcause
      exact hcause.resolve_right ProcState.noConfusion
  · intro hexp
    exact (schedule_slot hsched p).1 (Or.inl hexp)

/-- The timer interrupt before its `schedule` only writes the process which it interrupts. -/
theorem Settled.chargeQuantum {k₁ : Kernel} {rings : ℕ → List Slot} {loose : Slot → Prop}
    (h : Settled k rings loose) (hp : ¬loose k.currentProcess) (hquiet : Quiet k loose)
    (hrun : k.chargeQuantum = .ok k₁) :
    ∃ rings₁, Settled k₁ rings₁ loose ∧ Quiet k₁ loose ∧ k₁.timerTicks = k.timerTicks ∧
      ∀ r ≠ k.currentProcess, (k₁.processTable r).state = (k.processTable r).state ∧
        (k₁.processTable r).ttyBlock = (k.processTable r).ttyBlock := by
  unfold Kernel.chargeQuantum at hrun
  split at hrun
  · have ht : Touches (· = k.currentProcess) k (k.modify k.currentProcess fun x =>
        { x with counter := 0, state := .runnable }) :=
      touches_modify k ⟨rfl, rfl, rfl⟩
    obtain ⟨k₂, rings₂, hadj, h₂, hcore⟩ := h.adjust ht hp
    obtain rfl := Except.ok.inj (hadj.symm.trans hrun)
    refine ⟨rings₂, h₂, hcore.quiet (ht.quiet (fun r hr => hr ▸ hp) hquiet), ?_, ?_⟩
    · rw [hcore.timerTicks, ht.timerTicks]
    · intro r hr
      rw [hcore.state, hcore.ttyBlock, ht.state r hr, ht.ttyBlock r hr]
      exact ⟨rfl, rfl⟩
  · obtain rfl := Except.ok.inj hrun
    have ht : Touches (fun _ => False) k (k.modify k.currentProcess fun x =>
        { x with counter := x.counter - 1 }) :=
      touches_modify_quiet k fun _ => ⟨rfl, rfl, rfl, rfl, rfl⟩
    refine ⟨rings, h.touches ht fun _ hr => hr.elim, ht.quiet (fun _ hr => hr.elim) hquiet,
      ht.timerTicks, ?_⟩
    intro r _
    exact ⟨ht.state r not_false, ht.ttyBlock r not_false⟩

theorem Settled.setTicks {rings : ℕ → List Slot} {loose : Slot → Prop} (h : Settled k rings loose)
    (ticks : ℕ) : Settled { k with timerTicks := ticks } rings loose :=
  ⟨h.linked.congr rfl rfl fun _ => rfl, h.onRing_iff, h.loose_leftover, h.priority_lt⟩

/-- The kernel in which the timer interrupt calls `schedule`. -/
theorem Settled.charged {rings : ℕ → List Slot} {loose : Slot → Prop} (h : Settled k rings loose)
    (hcurrent : k.current.state.queued = true)
    (hquiet : Quiet { k with timerTicks := (k.timerTicks + 1) % 2 ^ 32 } loose)
    (hrun : k.timerIrq = .ok k') :
    ∃ k₁ rings₁, Settled k₁ rings₁ loose ∧ Quiet k₁ loose ∧ k₁.schedule = .ok k' ∧
      k₁.timerTicks = (k.timerTicks + 1) % 2 ^ 32 ∧
      ∀ r ≠ k.currentProcess, (k₁.processTable r).state = (k.processTable r).state ∧
        (k₁.processTable r).ttyBlock = (k.processTable r).ttyBlock := by
  have hp : ¬loose k.currentProcess := h.not_loose (ne_exited_of_queued hcurrent)
  unfold Kernel.timerIrq at hrun
  obtain ⟨k₁, hcharge, hlast⟩ := bind_eq_ok.mp hrun
  obtain ⟨rings₁, h₁, hquiet₁, hticks, hsame⟩ :=
    (h.setTicks ((k.timerTicks + 1) % 2 ^ 32)).chargeQuantum hp hquiet hcharge
  exact ⟨k₁, rings₁, h₁, hquiet₁, hlast, hticks, hsame⟩

/-- After a signal and the next `schedule`, be it called or by the timer, a stopped process is on
a queue exactly if its terminal timer has run out, whatever the signal was. -/
theorem continued_iff {ops : List Op} {pid sig : ℤ} {r : Kernel × ℤ} {next : Op}
    (hsafe : processesInit.SafeRun ops) (hk : processesInit.exec ops = .ok k)
    (hstopped : (k.processTable p).state = .stopped) (hkill : k.kernelKill pid sig = .ok r)
    (hnext : next = .schedule ∨ next = .tick) (hleft : next.Safe r.1)
    (hsched : next.exec r.1 = .ok k') :
    (k'.processTable p).state.queued = true ↔
      (k.processTable p).ttyBlock ≠ 0 ∧ (k.processTable p).ttyBlock < next.ticks k := by
  have htouch : Touches (fun _ => False) k r.1 := kernelKill_touches hkill
  obtain ⟨rings, loose, hsettled, hcurrent⟩ := (processesInit_sane.run hsafe hk).touches htouch
  have hstate : (r.1.processTable p).state = .stopped := by
    rw [htouch.state p not_false]
    exact hstopped
  have hblock := htouch.ttyBlock p not_false
  have hticks := htouch.timerTicks
  rcases hnext with rfl | rfl
  · rw [hsettled.stopped_iff (hsettled.quiet hleft.2) hstate hsched]
    unfold ttyExpired Op.ticks
    rw [hblock, hticks]
    exact decide_eq_true_iff
  · have h₀ := hsettled.setTicks ((r.1.timerTicks + 1) % 2 ^ 32)
    have hne : p ≠ r.1.currentProcess := by
      rintro heq
      unfold current at hcurrent
      rw [← heq, hstate] at hcurrent
      cases hcurrent
    obtain ⟨k₁, rings₁, h₁, hquiet₁, hlast, hticks₁, hsame⟩ :=
      hsettled.charged hcurrent (h₀.quiet hleft.2) hsched
    obtain ⟨hstate₁, hblock₁⟩ := hsame p hne
    rw [h₁.stopped_iff hquiet₁ (hstate₁.trans hstate) hlast]
    unfold ttyExpired Op.ticks
    rw [hblock₁, hblock, hticks₁, hticks]
    exact decide_eq_true_iff

/-- Process 1 stops itself, with a terminal timer that runs for `vtime`. -/
def stopRun (vtime : ℕ) : List Op :=
  [.fork true, .fork true, .ttySetTimer vtime, .kill 1 sigstop, .deliver (sigstop - 1)]

/-- The states after the run, after a signal to process 1, and after the next step. -/
def signalled (ops : List Op) (sig : ℤ) (next : Op) : Except Halt (Kernel × (Kernel × ℤ) × Kernel) := do
  let k ← processesInit.exec ops
  let r ← k.kernelKill 1 sig
  let k' ← next.exec r.1
  .ok (k, r, k')

theorem signalled_eq_ok {ops : List Op} {sig : ℤ} {next : Op} {r : Kernel × ℤ}
    (h : signalled ops sig next = .ok (k, r, k')) :
    processesInit.exec ops = .ok k ∧ k.kernelKill 1 sig = .ok r ∧ next.exec r.1 = .ok k' := by
  obtain ⟨k₁, hk, h₁⟩ := bind_eq_ok.mp h
  obtain ⟨r₁, hr, h₂⟩ := bind_eq_ok.mp h₁
  obtain ⟨k₂, hk', h₃⟩ := bind_eq_ok.mp h₂
  obtain ⟨rfl, rfl, rfl⟩ := Prod.mk.inj (Except.ok.inj h₃) |>.imp_right Prod.mk.inj
  exact ⟨hk, hr, hk'⟩

/-- The terminal timer of the stopped process runs out in the eleventh timer interrupt. -/
theorem continued_iff_timer : ∃ k r k',
    signalled (stopRun 1 ++ List.replicate 10 .tick) sigcont .tick = .ok (k, r, k') ∧
      (k'.processTable ⟨1, by decide⟩).state.queued = true := by
  have hfacts : (signalled (stopRun 1 ++ List.replicate 10 .tick) sigcont .tick).map (fun x =>
      decide ((x.1.processTable ⟨1, by decide⟩).state = .stopped ∧ Op.tick.Safe x.2.1.1 ∧
        (x.1.processTable ⟨1, by decide⟩).ttyBlock ≠ 0 ∧
        (x.1.processTable ⟨1, by decide⟩).ttyBlock < Op.tick.ticks x.1)) = .ok true := by
    decide +kernel
  obtain ⟨⟨k, r, k'⟩, hrun, hstopped, hleft, hexpired⟩ := exists_of_map_decide hfacts
  obtain ⟨hk, hkill, hsched⟩ := signalled_eq_ok hrun
  exact ⟨k, r, k', hrun,
    (continued_iff (by decide +kernel) hk hstopped hkill (Or.inr rfl) hleft hsched).mpr hexpired⟩

/-- A stopped process stays stopped after `SIGCONT`, and after `SIGKILL`. -/
theorem not_continued :
    (∃ k r k', signalled (stopRun 0) sigcont .schedule = .ok (k, r, k') ∧ r.2 = 0 ∧
      (k.processTable ⟨1, by decide⟩).state = .stopped ∧
      (k'.processTable ⟨1, by decide⟩).state.queued = false) ∧
    ∃ k r k', signalled (stopRun 0) sigkill .schedule = .ok (k, r, k') ∧ r.2 = 0 ∧
      (k.processTable ⟨1, by decide⟩).state = .stopped ∧
      (k'.processTable ⟨1, by decide⟩).state.queued = false := by
  have hfacts : ∀ sig ∈ [sigcont, sigkill], (signalled (stopRun 0) sig .schedule).map (fun x =>
      decide (x.2.1.2 = 0 ∧ (x.1.processTable ⟨1, by decide⟩).state = .stopped ∧
        (x.2.2.processTable ⟨1, by decide⟩).state.queued = false)) = .ok true := by
    decide +kernel
  constructor
  · obtain ⟨⟨k, r, k'⟩, hrun, hfact⟩ := exists_of_map_decide (hfacts sigcont List.mem_cons_self)
    exact ⟨k, r, k', hrun, hfact⟩
  · obtain ⟨⟨k, r, k'⟩, hrun, hfact⟩ :=
      exists_of_map_decide (hfacts sigkill (List.mem_cons_of_mem _ List.mem_cons_self))
    exact ⟨k, r, k', hrun, hfact⟩

end Kernel

end Yak.Process
