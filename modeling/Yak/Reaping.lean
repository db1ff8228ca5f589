import Yak.QueueInvariant
import Mathlib.Tactic

/-!
# Zombies and their parents

The loops of `kernel_waitpid` go on after the first zombie they find.  All zombies which match
become exited slots, and only the last of them is reported.
-/

namespace Yak.Process

namespace Kernel

variable {k k' : Kernel} {p q : Slot} {slots : List Slot}

/-! ## The scan -/

/-- The zombies which a loop of `kernel_waitpid` reaps. -/
def Reapable (skip wanted : Proc → Bool) (k : Kernel) (p : Slot) : Prop :=
  ((k.processTable p).ppid = k.current.pid ∧ skip (k.processTable p) = false) ∧
    wanted (k.processTable p) = true ∧ (k.processTable p).state = .zombie

instance (skip wanted : Proc → Bool) (k : Kernel) : DecidablePred (Reapable skip wanted k) :=
  fun _ => inferInstanceAs (Decidable ((_ ∧ _) ∧ _ ∧ _))

def reap (k : Kernel) (p : Slot) : Kernel := k.setState p .exited

theorem reap_processTable (k : Kernel) (p q : Slot) :
    (k.reap p).processTable q =
      if q = p then { k.processTable q with state := .exited } else k.processTable q := by
  unfold reap setState
  rw [← modify_processTable k p q fun x => { x with state := .exited }]

theorem reap_current_pid (k : Kernel) (p : Slot) : (k.reap p).current.pid = k.current.pid := by
  unfold current
  rw [reap_processTable]
  split <;> rfl

theorem reapable_reap (skip wanted : Proc → Bool) (hne : q ≠ p) :
    Reapable skip wanted (k.reap p) q ↔ Reapable skip wanted k q := by
  unfold Reapable
  rw [reap_processTable, if_neg hne, reap_current_pid]

theorem waitpidSlot_reapable {skip wanted : Proc → Bool} {w : WaitScan}
    (h : Reapable skip wanted w.kernel p) :
    waitpidSlot skip wanted w p =
      { kernel := w.kernel.reap p, children := w.children + 1, flag := w.flag + 1,
        ret := (w.kernel.processTable p).pid,
        status := some (w.kernel.processTable p).exitCode } := by
  obtain ⟨⟨hchild, hskip⟩, hwanted⟩ := h
  unfold waitpidSlot
  dsimp only
  rw [if_neg, if_pos hwanted, reap]
  rw [hskip]
  rintro (hne | hfalse)
  · exact hne hchild
  · cases hfalse

theorem waitpidSlot_other {skip wanted : Proc → Bool} {w : WaitScan}
    (h : ¬Reapable skip wanted w.kernel p) :
    (waitpidSlot skip wanted w p).kernel = w.kernel ∧
      (waitpidSlot skip wanted w p).flag = w.flag ∧
      (waitpidSlot skip wanted w p).ret = w.ret ∧
      (waitpidSlot skip wanted w p).status = w.status := by
  unfold waitpidSlot
  dsimp only
  split
  next => exact ⟨rfl, rfl, rfl, rfl⟩
  next hchild =>
    rw [not_or, not_not, Bool.not_eq_true] at hchild
    rw [if_neg fun hwanted => h ⟨hchild, hwanted⟩]
    exact ⟨rfl, rfl, rfl, rfl⟩

/-- What a loop has done after these slots: all matching zombies are reaped, the flag counts
them, and the last one is reported. -/
structure Scanned (skip wanted : Proc → Bool) (slots : List Slot) (w w' : WaitScan) : Prop where
  kernel : w'.kernel = (slots.filter (Reapable skip wanted w.kernel)).foldl reap w.kernel
  flag : w'.flag = w.flag + (slots.filter (Reapable skip wanted w.kernel)).length
  report : ∀ p, (slots.filter (Reapable skip wanted w.kernel)).getLast? = some p →
    w'.ret = (w.kernel.processTable p).pid ∧ w'.status = some (w.kernel.processTable p).exitCode
  none : slots.filter (Reapable skip wanted w.kernel) = [] →
    w'.ret = w.ret ∧ w'.status = w.status

theorem scanned_foldl (skip wanted : Proc → Bool) (hnodup : slots.Nodup) (w : WaitScan) :
    Scanned skip wanted slots w (slots.foldl (waitpidSlot skip wanted) w) := by
  induction slots generalizing w with
  | nil => exact ⟨rfl, rfl, nofun, fun _ => ⟨rfl, rfl⟩⟩
  | cons p slots ih =>
      obtain ⟨hp, hnodup⟩ := List.nodup_cons.mp hnodup
      rw [List.foldl_cons]
      by_cases hreap : Reapable skip wanted w.kernel p
      · have hrest := ih hnodup (waitpidSlot skip wanted w p)
        rw [waitpidSlot_reapable hreap] at hrest ⊢
        -- the slots behind `p` match as before
        have hfilter : slots.filter (Reapable skip wanted (w.kernel.reap p)) =
            slots.filter (Reapable skip wanted w.kernel) := by
          apply List.filter_congr
          intro q hq
          have hne : q ≠ p := fun heq => hp (heq ▸ hq)
          exact decide_eq_decide.mpr (reapable_reap skip wanted hne)
        have htable : ∀ q ∈ slots, (w.kernel.reap p).processTable q = w.kernel.processTable q := by
          intro q hq
          have hne : q ≠ p := fun heq => hp (heq ▸ hq)
          rw [reap_processTable, if_neg hne]
        obtain ⟨hkernel, hflag, hreport, hnone⟩ := hrest
        dsimp only at hkernel hflag hreport hnone
        rw [hfilter] at hkernel hflag hreport hnone
        have hcons : (p :: slots).filter (Reapable skip wanted w.kernel) =
            p :: slots.filter (Reapable skip wanted w.kernel) :=
          List.filter_cons_of_pos (decide_eq_true hreap)
        constructor
        · rw [hcons, List.foldl_cons]
          exact hkernel
        · rw [hcons, List.length_cons, hflag]
          omega
        · intro q hq
          rw [hcons, List.getLast?_cons] at hq
          cases hlast : (slots.filter (Reapable skip wanted w.kernel)).getLast? with
          | none =>
              rw [hlast] at hq
              obtain rfl := Option.some.inj hq
              exact hnone (List.getLast?_eq_none_iff.mp hlast)
          | some r =>
              rw [hlast] at hq
              obtain rfl := Option.some.inj hq
              have hmem : r ∈ slots :=
                (List.mem_filter.mp (List.mem_of_getLast? hlast)).1
              obtain ⟨hret, hstatus⟩ := hreport r hlast
              rw [htable r hmem] at hret hstatus
              exact ⟨hret, hstatus⟩
        · intro hnil
          rw [hcons] at hnil
          cases hnil
      · have hcons : (p :: slots).filter (Reapable skip wanted w.kernel) =
            slots.filter (Reapable skip wanted w.kernel) :=
          List.filter_cons_of_neg (by rw [decide_eq_true_iff]; exact hreap)
        obtain ⟨hk, hf, hr, hs⟩ := waitpidSlot_other hreap
        obtain ⟨hkernel, hflag, hreport, hnone⟩ := ih hnodup (waitpidSlot skip wanted w p)
        rw [hk] at hkernel hflag hreport hnone
        rw [hf] at hflag
        rw [hr, hs] at hnone
        refine ⟨?_, ?_, ?_, ?_⟩
        · rw [hcons]
          exact hkernel
        · rw [hcons]
          exact hflag
        · rw [hcons]
          exact hreport
        · rw [hcons]
          exact hnone

/-- The zombies which the call reaps. -/
def matching (k : Kernel) (pid : ℤ) : List Slot :=
  (List.finRange nrProc).filter (Reapable (waitpidSkip pid) (k.waitpidWanted pid) k)

theorem waitpidScan_scanned (k : Kernel) (pid : ℤ) :
    Scanned (waitpidSkip pid) (k.waitpidWanted pid) (List.finRange nrProc) ⟨k, 0, 0, 0, none⟩
      (k.waitpidScan pid) := scanned_foldl _ _ (List.nodup_finRange nrProc) _

/-- The call reports one zombie, and reaps it and no other. -/
def ReapsOne (k : Kernel) (w : WaitScan) : Prop :=
  ∃ p, (k.processTable p).state = .zombie ∧ w.kernel = k.reap p ∧
    w.ret = (k.processTable p).pid ∧ w.status = some (k.processTable p).exitCode

/-- A scan which finds something reaps what it reports, and one which finds nothing reaps
nothing. -/
def Exact (k : Kernel) (w : WaitScan) : Prop :=
  (w.flag ≠ 0 → k.ReapsOne w) ∧ (w.flag = 0 → w.kernel = k)

theorem zombie_of_mem_matching {pid : ℤ} (hp : p ∈ k.matching pid) :
    (k.processTable p).state = .zombie :=
  (of_decide_eq_true (List.mem_filter.mp hp).2).2.2

theorem reapAll_exited (slots : List Slot) (k : Kernel) (hp : p ∈ slots) :
    ((slots.foldl reap k).processTable p).state = .exited := by
  have hkeep : ∀ (slots : List Slot) (k : Kernel), (k.processTable p).state = .exited →
      ((slots.foldl reap k).processTable p).state = .exited := by
    intro slots
    induction slots with
    | nil => exact fun k h => h
    | cons q slots ih =>
        intro k h
        apply ih
        rw [reap_processTable]
        split
        · rfl
        · exact h
  induction slots generalizing k with
  | nil => cases hp
  | cons q slots ih =>
      rw [List.foldl_cons]
      rcases List.mem_cons.mp hp with rfl | hp
      · apply hkeep
        rw [reap_processTable, if_pos rfl]
      · exact ih (k.reap q) hp

/-- The scan is exact exactly if at most one zombie matches. -/
theorem exact_iff (k : Kernel) (pid : ℤ) :
    k.Exact (k.waitpidScan pid) ↔ (k.matching pid).length ≤ 1 := by
  obtain ⟨hkernel, hflag, hreport, _⟩ := waitpidScan_scanned k pid
  have hmatch : (List.finRange nrProc).filter
      (Reapable (waitpidSkip pid) (k.waitpidWanted pid) k) = k.matching pid := rfl
  dsimp only at hkernel hflag hreport
  rw [hmatch] at hkernel hflag hreport
  rw [Nat.zero_add] at hflag
  constructor
  · intro hexact
    by_contra hmany
    obtain ⟨p, hzombie, hreaped, _⟩ := hexact.1 (by omega)
    -- another matching zombie was reaped beside `p`
    have hother : ∃ q ∈ k.matching pid, q ≠ p := by
      by_contra hall
      push Not at hall
      have hnodup : (k.matching pid).Nodup := (List.nodup_finRange nrProc).filter _
      have hle : (k.matching pid).length ≤ [p].length := by
        apply List.Subperm.length_le
        apply hnodup.subperm
        intro q hq
        exact List.mem_singleton.mpr (hall q hq)
      exact hmany hle
    obtain ⟨q, hq, hne⟩ := hother
    have hexited := reapAll_exited (k.matching pid) k hq
    rw [← hkernel, hreaped, reap_processTable, if_neg hne, zombie_of_mem_matching hq] at hexited
    cases hexited
  · intro hle
    constructor
    · intro hne
      rw [hflag] at hne
      obtain ⟨p, hp⟩ := List.length_eq_one_iff.mp (Nat.le_antisymm hle (Nat.pos_of_ne_zero hne))
      obtain ⟨hret, hstatus⟩ := hreport p (by rw [hp]; rfl)
      refine ⟨p, zombie_of_mem_matching (by rw [hp]; exact List.mem_singleton_self p), ?_, hret,
        hstatus⟩
      rw [hkernel, hp]
      rfl
    · intro hzero
      rw [hflag] at hzero
      rw [hkernel, List.length_eq_zero_iff.mp hzero]
      rfl

/-! ## Runs -/

/-- What processes do here.  `switch` and `wake` stand for the scheduler. -/
inductive ReapStep where
  | fork (archOk : Bool)
  | exit (status : ℕ)
  | waitpid (pid : ℤ) (wnohang : Bool)
  | waitpidWoken
  | switch (q : Slot)
  | wake (p : Slot)

/-- One pass of `kernel_waitpid`, up to the return or the sleep. -/
def waitpidPass (k : Kernel) (pid : ℤ) (wnohang : Bool) : Kernel :=
  let w := k.waitpidScan pid
  if w.children = 0 ∨ w.flag ≠ 0 ∨ wnohang then w.kernel
  else w.kernel.modify k.currentProcess fun x =>
    { x with state := .sleepInterruptible, sleepingOn := some waitChannel }

def forkPass (k : Kernel) (archOk : Bool) : Kernel :=
  match k.getFreeProc with
  | none => k
  | some (c, k) => if archOk then (k.forkCopy c).forkBuild c else (k.forkCopy c).forkFail c

/-- A step of the current process, which must be alive, or of the scheduler. -/
def reapStep (k : Kernel) : ReapStep → Option Kernel
  | .fork archOk => if k.current.state.dead then none else some (k.forkPass archOk)
  | .exit status => if k.current.state.dead then none else (k.exitMark status).toOption
  | .waitpid pid wnohang => if k.current.state.dead then none else some (k.waitpidPass pid wnohang)
  | .waitpidWoken => if k.current.state.dead then none else some k.waitpidWoken
  | .switch q =>
      if (k.processTable q).state.dead then none else some { k with currentProcess := q }
  | .wake p =>
      if (k.processTable p).state.sleeping then some (k.setState p .runnable) else none

/-- The step is a `kernel_waitpid` which reports the process of the slot, with its exit code. -/
def Reported (k : Kernel) (p : Slot) : ReapStep → Prop
  | .waitpid pid _ => (k.waitpidScan pid).flag ≠ 0 ∧
      (k.waitpidScan pid).ret = (k.processTable p).pid ∧
      (k.waitpidScan pid).status = some (k.processTable p).exitCode
  | _ => False

def ExactStep (k : Kernel) : ReapStep → Prop
  | .waitpid pid _ => k.Exact (k.waitpidScan pid)
  | _ => True

/-- Along the run every `kernel_waitpid` is exact, and a slot which ceases to be a zombie is
reported by the step. -/
def ReapsExactly (k : Kernel) : List ReapStep → Prop
  | [] => True
  | st :: sts => k.ExactStep st ∧ ∀ k', k.reapStep st = some k' →
      (∀ p, (k.processTable p).state = .zombie →
        (k'.processTable p).state = .zombie ∨ k.Reported p st) ∧ k'.ReapsExactly sts

def OneMatch (k : Kernel) : ReapStep → Prop
  | .waitpid pid _ => (k.matching pid).length ≤ 1
  | _ => True

/-- At most one zombie matches in every call of `kernel_waitpid`. -/
def OneMatches (k : Kernel) : List ReapStep → Prop
  | [] => True
  | st :: sts => k.OneMatch st ∧ ∀ k', k.reapStep st = some k' → k'.OneMatches sts

theorem ne_current_of_zombie (hlive : ¬k.current.state.dead = true)
    (hp : (k.processTable p).state = .zombie) : p ≠ k.currentProcess := by
  rintro rfl
  unfold current at hlive
  rw [hp] at hlive
  exact hlive rfl

theorem forkPass_zombie {archOk : Bool} (hp : (k.processTable p).state = .zombie) :
    ((k.forkPass archOk).processTable p).state = .zombie := by
  unfold forkPass
  cases hfree : k.getFreeProc with
  | none => exact hp
  | some r =>
      obtain ⟨c, k₁⟩ := r
      obtain ⟨hexited, rfl⟩ := getFreeProc_eq hfree
      have hne : p ≠ c := by
        rintro rfl
        rw [hp] at hexited
        cases hexited
      dsimp only
      split
      · unfold forkBuild forkCopy
        rw [modify_processTable, if_neg hne, modify_processTable, if_neg hne]
        exact hp
      · unfold forkFail setState forkCopy
        rw [modify_processTable, if_neg hne, modify_processTable, if_neg hne]
        exact hp

/-- An exact pass keeps the zombies which it does not report. -/
theorem waitpidPass_zombie {pid : ℤ} {wnohang : Bool} (hlive : ¬k.current.state.dead = true)
    (hexact : k.Exact (k.waitpidScan pid)) (hp : (k.processTable p).state = .zombie) :
    ((k.waitpidPass pid wnohang).processTable p).state = .zombie ∨
      k.Reported p (.waitpid pid wnohang) := by
  have hne := ne_current_of_zombie hlive hp
  unfold waitpidPass
  dsimp only
  by_cases hflag : (k.waitpidScan pid).flag = 0
  · left
    rw [hexact.2 hflag]
    split
    · exact hp
    · rw [modify_processTable, if_neg hne]
      exact hp
  · have hreturn : (k.waitpidScan pid).children = 0 ∨ (k.waitpidScan pid).flag ≠ 0 ∨
        wnohang = true := Or.inr (Or.inl hflag)
    obtain ⟨q, hq, hkernel, hret, hstatus⟩ := hexact.1 hflag
    rw [if_pos hreturn, hkernel, reap_processTable]
    by_cases hpq : p = q
    · subst hpq
      exact Or.inr ⟨hflag, hret, hstatus⟩
    · rw [if_neg hpq]
      exact Or.inl hp

/-- Only `kernel_waitpid` takes a zombie away. -/
theorem reapStep_zombie {st : ReapStep} (hexact : k.ExactStep st) (hstep : k.reapStep st = some k')
    (hp : (k.processTable p).state = .zombie) :
    (k'.processTable p).state = .zombie ∨ k.Reported p st := by
  unfold reapStep at hstep
  cases st with
  | fork archOk =>
      dsimp only at hstep
      split at hstep
      next => cases hstep
      next =>
        rw [← Option.some.inj hstep]
        exact Or.inl (forkPass_zombie hp)
  | exit status =>
      dsimp only at hstep
      split at hstep
      next => cases hstep
      next hlive =>
        cases hmark : k.exitMark status with
        | error e =>
            rw [hmark] at hstep
            cases hstep
        | ok k₁ =>
            rw [hmark] at hstep
            rw [← Option.some.inj hstep]
            left
            rw [(exitMark_touches hmark).state p (ne_current_of_zombie hlive hp)]
            exact hp
  | waitpid pid wnohang =>
      dsimp only at hstep
      split at hstep
      next => cases hstep
      next hlive =>
        rw [← Option.some.inj hstep]
        exact waitpidPass_zombie hlive hexact hp
  | waitpidWoken =>
      dsimp only at hstep
      split at hstep
      next => cases hstep
      next =>
        rw [← Option.some.inj hstep]
        left
        have htouch : Touches (fun _ => False) k k.waitpidWoken := waitpidWoken_touches k
        rw [htouch.state p not_false]
        exact hp
  | switch q =>
      dsimp only at hstep
      split at hstep
      next => cases hstep
      next =>
        rw [← Option.some.inj hstep]
        exact Or.inl hp
  | wake q =>
      dsimp only at hstep
      split at hstep
      next hsleep =>
        rw [← Option.some.inj hstep]
        left
        have hne : p ≠ q := by
          rintro rfl
          rw [hp] at hsleep
          cases hsleep
        rw [(touches_setState k .runnable).state p hne]
        exact hp
      next => cases hstep

/-- Every zombie is reaped by the call which reports it, and by no other, exactly in the runs in
which no call meets two matching zombies. -/
theorem reapsExactly_iff (sts : List ReapStep) (k : Kernel) :
    k.ReapsExactly sts ↔ k.OneMatches sts := by
  induction sts generalizing k with
  | nil => exact Iff.rfl
  | cons st sts ih =>
      have hexact : k.ExactStep st ↔ k.OneMatch st := by
        cases st with
        | waitpid pid wnohang => exact exact_iff k pid
        | fork _ | exit _ | waitpidWoken | switch _ | wake _ => exact Iff.rfl
      rw [ReapsExactly, OneMatches, hexact]
      constructor
      · rintro ⟨hone, hrest⟩
        exact ⟨hone, fun k' hstep => (ih k').mp (hrest k' hstep).2⟩
      · rintro ⟨hone, hrest⟩
        refine ⟨hone, fun k' hstep => ⟨?_, (ih k').mpr (hrest k' hstep)⟩⟩
        intro p hp
        exact reapStep_zombie (hexact.mpr hone) hstep hp

/-- Process 1 forks twice, both children exit, and then it waits for any child. -/
def twoZombies : List ReapStep :=
  [.fork true, .switch ⟨1, one_lt_nrProc⟩, .fork true, .fork true,
    .switch ⟨2, two_lt_nrProc⟩, .exit 5, .switch ⟨3, three_lt_nrProc⟩, .exit 6,
    .switch ⟨1, one_lt_nrProc⟩]

def reapRun (k : Kernel) : List ReapStep → Option Kernel
  | [] => some k
  | st :: sts => k.reapStep st >>= fun k => k.reapRun sts

theorem ReapsExactly.last {sts : List ReapStep} {st : ReapStep} (h : k.ReapsExactly (sts ++ [st]))
    (hrun : k.reapRun sts = some k') : k'.ExactStep st := by
  induction sts generalizing k with
  | nil => exact Option.some.inj hrun ▸ h.1
  | cons st' sts ih =>
      obtain ⟨k₁, hstep, hrest⟩ := Option.bind_eq_some_iff.mp hrun
      exact ih (h.2 k₁ hstep).2 hrest

/-- Both are reaped at once, and only the second is reported. -/
theorem not_reapsExactly_twoZombies :
    ¬processesInit.ReapsExactly (twoZombies ++ [.waitpid (-1) false]) := by
  intro hreaps
  have hfacts : (processesInit.reapRun twoZombies).map (fun k => (k.matching (-1)).length) =
      some 2 := by decide +kernel
  cases hrun : processesInit.reapRun twoZombies with
  | none =>
      rw [hrun] at hfacts
      cases hfacts
  | some k =>
      rw [hrun] at hfacts
      have hexact : k.Exact (k.waitpidScan (-1)) := hreaps.last hrun
      have hle := (exact_iff k (-1)).mp hexact
      have htwo : (k.matching (-1)).length = 2 := Option.some.inj hfacts
      omega

end Kernel

end Yak.Process
