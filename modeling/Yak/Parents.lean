import Yak.ProcessIdentity
import Mathlib.Tactic

/-!
# Parents

The links from processes to their parents along runs of `kernel_fork`, `kernel_exit` and
`kernel_waitpid`.  A number of a process is an index of the table and is used again, so
that each process has a name here, which is not: the first process has name 0 and the
child of the first fork, process 1, has name 1.
-/

namespace Yak.Process

/-- The process table with the names of the processes in it. -/
structure Parents where
  kernel : Kernel
  names : Slot → ℕ
  /-- The process that has forked the one in the slot. -/
  forker : Slot → ℕ
  nextName : ℕ
  /-- The processes which have called `kernel_exit`. -/
  gone : Finset ℕ

namespace Parents

def init : Parents where
  kernel := Kernel.processesInit
  names _ := 0
  forker _ := 0
  nextName := 1
  gone := ∅

/-- The child of a fork, if there is a slot for it, is given the next name. -/
def forked (s : Parents) (k : Kernel) : Parents :=
  match s.kernel.getFreeProc with
  | some (c, _) =>
      { s with
        kernel := k
        names := Function.update s.names c s.nextName
        forker := Function.update s.forker c (s.names s.kernel.currentProcess)
        nextName := s.nextName + 1 }
  | none => { s with kernel := k }

/-- The names after a step. -/
def named (s : Parents) (k : Kernel) : Kernel.ReapStep → Parents
  | .fork true => s.forked k
  | .exit _ => { s with kernel := k, gone := insert (s.names s.kernel.currentProcess) s.gone }
  | _ => { s with kernel := k }

def step (s : Parents) (st : Kernel.ReapStep) : Option Parents :=
  (s.kernel.reapStep st).map fun k => s.named k st

def run (s : Parents) : List Kernel.ReapStep → Option Parents
  | [] => some s
  | st :: sts => s.step st >>= fun s' => s'.run sts

def firstSlot : Slot := ⟨0, zero_lt_nrProc⟩

/-- The slot of process 1. -/
def initSlot : Slot := ⟨1, one_lt_nrProc⟩

def Live (s : Parents) (p : Slot) : Prop := (s.kernel.processTable p).state ≠ .exited

def ppid (s : Parents) (p : Slot) : ℤ := (s.kernel.processTable p).ppid

/-- The parent of a process is in its slot: the process that has forked it, or process 1
after that process has exited. -/
def Linked (s : Parents) (p : Slot) : Prop :=
  ∃ q : Slot, s.ppid p = q.val ∧ s.Live q ∧
    (s.names q = s.forker p ∨ (q = initSlot ∧ s.names q = 1 ∧ s.forker p ∈ s.gone))

/-- So it is for all processes but the first. -/
def Kept (s : Parents) : Prop := ∀ p ≠ firstSlot, s.Live p → s.Linked p

/-- A process other than the first has this one for its parent. -/
def HasChild (s : Parents) (q : Slot) : Prop :=
  ∃ p ≠ firstSlot, s.Live p ∧ s.ppid p = q.val

/-- A process that exits has no child, or process 1 is still there to have its children; if
it is process 1 itself then it has a parent to wait for it. -/
def SafeExit (s : Parents) : Prop :=
  s.HasChild s.kernel.currentProcess →
    if s.kernel.currentProcess = initSlot then s.ppid initSlot ≠ 0
    else s.Live initSlot ∧ s.names initSlot = 1

/-- No process which still is a parent is reaped, and exits are safe. -/
def SafeStep (s : Parents) : Kernel.ReapStep → Prop
  | .exit _ => s.SafeExit
  | .waitpid pid _ => ∀ q ∈ s.kernel.matching pid, ¬ s.HasChild q
  | _ => True

/-- The links are right in all states of the run. -/
def KeptRun (s : Parents) : List Kernel.ReapStep → Prop
  | [] => s.Kept
  | st :: sts => s.Kept ∧ ∀ s', s.step st = some s' → s'.KeptRun sts

def SafeRun (s : Parents) : List Kernel.ReapStep → Prop
  | [] => True
  | st :: sts => ∀ s', s.step st = some s' → s.SafeStep st ∧ s'.SafeRun sts

structure Inv (s : Parents) : Prop where
  pid : ∀ p, s.Live p → (s.kernel.processTable p).pid = p.val
  name_lt : ∀ p, s.Live p → s.names p < s.nextName
  name_injective : ∀ p q, s.Live p → s.Live q → s.names p = s.names q → p = q
  forker_lt : ∀ p ≠ firstSlot, s.Live p → s.forker p < s.names p
  kept : s.Kept

end Parents

/-! ## Exit and wait -/

namespace Kernel

variable {k k' : Kernel} {p : Slot}

/-- The parents and the states which `kernel_exit` leaves. -/
theorem exitMark_slot {status : ℕ} (h : k.exitMark status = .ok k')
    (hlive : ¬k.current.state.dead = true) (p : Slot) :
    (k'.processTable p).ppid =
        (if (k.processTable p).state ≠ .exited ∧ (k.processTable p).ppid = k.current.pid then 1
          else (k.processTable p).ppid) ∧
      (k'.processTable p).state =
        if p = k.currentProcess then (if k.notifiedPid = 0 then .exited else .zombie)
        else (k.processTable p).state := by
  have hcurrent : k.current.state ≠ .exited := by
    intro hexited
    refine hlive ?_
    rw [hexited]
    rfl
  have hnotified := exitCode_ppid hcurrent status
  have hcode : ∀ p, ((k.reparent.modify k.currentProcess fun x =>
      { x with exitCode := status % 256 }).processTable p).ppid =
        (if (k.processTable p).state ≠ .exited ∧ (k.processTable p).ppid = k.current.pid then 1
          else (k.processTable p).ppid) ∧
      ((k.reparent.modify k.currentProcess fun x =>
        { x with exitCode := status % 256 }).processTable p).state = (k.processTable p).state := by
    intro p
    rw [modify_processTable, reparent_processTable]
    split <;> split <;> exact ⟨rfl, rfl⟩
  unfold exitMark at h
  dsimp only at h
  rw [hnotified] at h
  have hprocess : (k.reparent.modify k.currentProcess fun x =>
      { x with exitCode := status % 256 }).currentProcess = k.currentProcess := by
    rw [modify_currentProcess, reparent_currentProcess]
  generalize (k.reparent.modify k.currentProcess fun x =>
    { x with exitCode := status % 256 }) = k₁ at h hcode hprocess
  obtain ⟨hppid, hstate⟩ := hcode p
  have hset : ∀ s : ProcState, ((k₁.setState k₁.currentProcess s).processTable p).ppid =
        (k₁.processTable p).ppid ∧
      ((k₁.setState k₁.currentProcess s).processTable p).state =
        if p = k.currentProcess then s else (k₁.processTable p).state := by
    intro s
    unfold setState
    rw [modify_processTable, hprocess]
    split <;> exact ⟨rfl, rfl⟩
  rw [← hppid, ← hstate]
  by_cases horphan : k.notifiedPid = 0
  · rw [if_neg (by simp [horphan])] at h
    obtain rfl := Except.ok.inj h
    rw [if_pos horphan]
    exact hset .exited
  · rw [if_pos horphan, bind_eq_ok] at h
    obtain ⟨r, hkill, h⟩ := h
    obtain rfl := Except.ok.inj h
    obtain ⟨pending, hsignal⟩ := kernelKill_signalled hkill p
    rw [if_neg horphan, hsignal]
    exact hset .zombie

theorem reapAll_processTable (slots : List Slot) (k : Kernel) (p : Slot) :
    ((slots.foldl reap k).processTable p).ppid = (k.processTable p).ppid ∧
      (p ∉ slots → ((slots.foldl reap k).processTable p).state = (k.processTable p).state) := by
  induction slots generalizing k with
  | nil => exact ⟨rfl, fun _ => rfl⟩
  | cons q slots ih =>
      rw [List.foldl_cons, (ih (k.reap q)).1]
      constructor
      · rw [reap_processTable]
        split <;> rfl
      · intro hp
        rw [List.mem_cons, not_or] at hp
        rw [(ih (k.reap q)).2 hp.2, reap_processTable, if_neg hp.1]

/-- A pass of `kernel_waitpid` leaves the parents as they are, and takes away the zombies
which match. -/
theorem waitpidPass_slot (hlive : ¬k.current.state.dead = true) (pid : ℤ) (wnohang : Bool)
    (p : Slot) :
    ((k.waitpidPass pid wnohang).processTable p).ppid = (k.processTable p).ppid ∧
      (((k.waitpidPass pid wnohang).processTable p).state ≠ .exited ↔
        (k.processTable p).state ≠ .exited ∧ p ∉ k.matching pid) := by
  have hscan : (k.waitpidScan pid).kernel = (k.matching pid).foldl reap k :=
    (waitpidScan_scanned k pid).kernel
  have hreaped := reapAll_processTable (k.matching pid) k p
  rw [← hscan] at hreaped
  have hstate : ((k.waitpidScan pid).kernel.processTable p).state ≠ .exited ↔
      (k.processTable p).state ≠ .exited ∧ p ∉ k.matching pid := by
    by_cases hp : p ∈ k.matching pid
    · have hexited := reapAll_exited (k.matching pid) k hp
      rw [← hscan] at hexited
      simp [hexited, hp]
    · rw [hreaped.2 hp]
      simp [hp]
  unfold waitpidPass
  dsimp only
  split
  · exact ⟨hreaped.1, hstate⟩
  · rw [modify_processTable]
    split
    next hcurrent =>
      subst hcurrent
      dsimp only
      refine ⟨hreaped.1, ?_⟩
      have hrunning : (k.processTable k.currentProcess).state ≠ .exited := by
        intro hexited
        refine hlive ?_
        unfold current
        rw [hexited]
        rfl
      have hmatch : k.currentProcess ∉ k.matching pid := by
        intro hmem
        exact ne_current_of_zombie hlive (zombie_of_mem_matching hmem) rfl
      simp [hrunning, hmatch]
    next => exact ⟨hreaped.1, hstate⟩

end Kernel

namespace Parents

variable {s s' : Parents} {p q : Slot} {st : Kernel.ReapStep}

theorem live_current (hlive : ¬s.kernel.current.state.dead = true) :
    s.Live s.kernel.currentProcess :=
  Kernel.current_ne_exited hlive

theorem live_init (h : init.Live p) : p = firstSlot := by
  by_contra hp
  have hzero : p.val ≠ 0 := fun hzero => hp (Fin.ext hzero)
  refine h ?_
  unfold init Kernel.processesInit
  dsimp only
  rw [if_neg hzero]
  rfl

theorem inv_init : init.Inv where
  pid p hp := by
    rw [live_init hp]
    rfl
  name_lt _ _ := Nat.zero_lt_one
  name_injective p q hp hq _ := (live_init hp).trans (live_init hq).symm
  forker_lt p hne hp := absurd (live_init hp) hne
  kept p hne hp := absurd (live_init hp) hne

theorem Inv.current_pid (h : s.Inv) (hlive : ¬s.kernel.current.state.dead = true) :
    s.kernel.current.pid = s.kernel.currentProcess.val :=
  h.pid _ (live_current hlive)

theorem Linked.slot (h : s.Linked p) (hq : s.ppid p = q.val) :
    s.Live q ∧ (s.names q = s.forker p ∨
      (q = initSlot ∧ s.names q = 1 ∧ s.forker p ∈ s.gone)) := by
  obtain ⟨r, hr, hlive, hname⟩ := h
  have hsame : r = q := Fin.ext (by exact_mod_cast hr.symm.trans hq)
  rw [← hsame]
  exact ⟨hlive, hname⟩

/-- Steps which name nobody: what is in use was in use before, and keeps its number. -/
theorem Inv.of_kernel (h : s.Inv) {k' : Kernel} (gone : Finset ℕ)
    (hlive : ∀ p, (k'.processTable p).state ≠ .exited → s.Live p)
    (hpid : ∀ p, (k'.processTable p).state ≠ .exited →
      (k'.processTable p).pid = (s.kernel.processTable p).pid)
    (hkept : Kept { s with kernel := k', gone := gone }) :
    Inv { s with kernel := k', gone := gone } where
  pid p hp := (hpid p hp).trans (h.pid p (hlive p hp))
  name_lt p hp := h.name_lt p (hlive p hp)
  name_injective p q hp hq := h.name_injective p q (hlive p hp) (hlive q hq)
  forker_lt p hne hp := h.forker_lt p hne (hlive p hp)
  kept := hkept

/-! ## Fork -/

theorem Inv.fork (h : s.Inv) (hlive : ¬s.kernel.current.state.dead = true) :
    (s.forked (s.kernel.forkPass true)).Inv := by
  unfold forked
  cases hfree : s.kernel.getFreeProc with
  | none =>
      rw [Kernel.forkPass_none hfree]
      exact h
  | some r =>
      obtain ⟨c, k₁⟩ := r
      have hexited : ¬ s.Live c := not_not_intro (Kernel.getFreeProc_eq hfree).1
      obtain ⟨hstate, hpid, hppid, -⟩ := Kernel.forkPass_child hfree
      have hother : ∀ p ≠ c, (s.kernel.forkPass true).processTable p = s.kernel.processTable p :=
        fun p hp => Kernel.forkPass_other hfree hp
      have hcurrent := live_current hlive
      have hparent : s.kernel.currentProcess ≠ c := fun heq => hexited (heq ▸ hcurrent)
      have hold : ∀ p ≠ c, ((s.kernel.forkPass true).processTable p).state ≠ .exited → s.Live p := by
        intro p hp hafter
        rw [hother p hp] at hafter
        exact hafter
      have hnames : ∀ p ≠ c, Function.update s.names c s.nextName p = s.names p :=
        fun p hp => Function.update_of_ne hp _ _
      have hfresh : ∀ p ≠ c, ((s.kernel.forkPass true).processTable p).state ≠ .exited →
          s.names p ≠ s.nextName := fun p hp hafter => (h.name_lt p (hold p hp hafter)).ne
      constructor
      · intro p hp
        by_cases hchild : p = c
        · rw [hchild]
          exact hpid
        · dsimp only
          rw [hother p hchild]
          exact h.pid p (hold p hchild hp)
      · intro p hp
        dsimp only
        by_cases hchild : p = c
        · rw [hchild, Function.update_self]
          exact Nat.lt_succ_self _
        · rw [hnames p hchild]
          exact Nat.lt_succ_of_lt (h.name_lt p (hold p hchild hp))
      · intro p q hp hq hname
        dsimp only at hname
        by_cases hpc : p = c
        · by_cases hqc : q = c
          · exact hpc.trans hqc.symm
          · rw [hpc, Function.update_self, hnames q hqc] at hname
            exact absurd hname.symm (hfresh q hqc hq)
        · by_cases hqc : q = c
          · rw [hqc, Function.update_self, hnames p hpc] at hname
            exact absurd hname (hfresh p hpc hp)
          · rw [hnames p hpc, hnames q hqc] at hname
            exact h.name_injective p q (hold p hpc hp) (hold q hqc hq) hname
      · intro p hne hp
        dsimp only
        by_cases hchild : p = c
        · rw [hchild, Function.update_self, Function.update_self]
          exact h.name_lt _ hcurrent
        · rw [hnames p hchild, Function.update_of_ne hchild]
          exact h.forker_lt p hne (hold p hchild hp)
      · intro p hne hp
        unfold Linked ppid Live
        dsimp only
        by_cases hchild : p = c
        · rw [hchild]
          refine ⟨s.kernel.currentProcess, hppid.trans (h.current_pid hlive), ?_, Or.inl ?_⟩
          · rw [hother _ hparent]
            exact hcurrent
          · rw [hnames _ hparent, Function.update_self]
        · obtain ⟨q, hq, hqlive, hqname⟩ := h.kept p hne (hold p hchild hp)
          have hqc : q ≠ c := fun heq => hexited (heq ▸ hqlive)
          refine ⟨q, ?_, ?_, ?_⟩
          · rw [hother p hchild]
            exact hq
          · rw [hother q hqc]
            exact hqlive
          · rw [hnames q hqc, Function.update_of_ne hchild]
            exact hqname

/-! ## Exit -/

section Exit

variable {k' : Kernel} {status : ℕ}

/-- The exit of the current process. -/
def exited (s : Parents) (k' : Kernel) : Parents :=
  { s with kernel := k', gone := insert (s.names s.kernel.currentProcess) s.gone }

/-- The process that exits had forked its children, or it is process 1. -/
theorem Inv.child_forker (h : s.Inv) (hne : p ≠ firstSlot) (hp : s.Live p)
    (hchild : s.ppid p = s.kernel.currentProcess.val) :
    s.names s.kernel.currentProcess = s.forker p ∨
      (s.kernel.currentProcess = initSlot ∧ s.names initSlot = 1 ∧ s.forker p ∈ s.gone) := by
  obtain ⟨-, hname | ⟨hinit, hname⟩⟩ := (h.kept p hne hp).slot hchild
  · exact Or.inl hname
  · exact Or.inr ⟨hinit, hinit ▸ hname⟩

theorem exited_live (hlive : ¬s.kernel.current.state.dead = true)
    (hmark : s.kernel.exitMark status = .ok k') : (s.exited k').Live p ↔
      s.Live p ∧ (p = s.kernel.currentProcess → s.kernel.notifiedPid ≠ 0) := by
  have hslot := (Kernel.exitMark_slot hmark hlive p).2
  have hcurrent := live_current hlive
  unfold Parents.exited Live at *
  rw [hslot]
  by_cases hp : p = s.kernel.currentProcess
  · subst hp
    by_cases horphan : s.kernel.notifiedPid = 0
    · simp [horphan]
    · simp [horphan, hcurrent]
  · simp [hp]

variable (h : s.Inv) (hlive : ¬s.kernel.current.state.dead = true)
  (hmark : s.kernel.exitMark status = .ok k')

include h hlive

theorem Inv.notifiedPid_eq_zero_iff (hinit : s.kernel.currentProcess = initSlot) :
    s.kernel.notifiedPid = 0 ↔ s.ppid initSlot = 0 := by
  have hpid := h.current_pid hlive
  have hppid : s.kernel.current.ppid = s.ppid initSlot := by
    unfold Kernel.current ppid
    rw [hinit]
  unfold Kernel.notifiedPid
  rw [hpid, hppid, hinit]
  split
  next hself =>
    rw [hself]
    decide
  next => rfl

include hmark

theorem Inv.exited_ppid (hp : s.Live p) :
    (s.exited k').ppid p =
      if s.ppid p = s.kernel.currentProcess.val then 1 else s.ppid p := by
  have hslot := (Kernel.exitMark_slot hmark hlive p).1
  rw [h.current_pid hlive] at hslot
  unfold Parents.exited ppid
  rw [hslot]
  simp only [show (s.kernel.processTable p).state ≠ .exited from hp, ne_eq, not_false_eq_true,
    true_and]

theorem Inv.exit (hsafe : s.SafeExit) : (s.exited k').Inv := by
  refine h.of_kernel _ ?_ ?_ ?_
  · intro p hp
    exact ((exited_live hlive hmark).mp hp).1
  · intro p hp
    exact congrArg (fun i => i.1.1) (Kernel.exitMark_sameIdentity hmark p)
  · intro p hne hp
    obtain ⟨hold, -⟩ := (exited_live (p := p) hlive hmark).mp hp
    have hppid := h.exited_ppid hlive hmark hold
    change Linked (s.exited k') p
    by_cases hchild : s.ppid p = s.kernel.currentProcess.val
    · rw [if_pos hchild] at hppid
      have hforker := h.child_forker hne hold hchild
      have hcond := hsafe ⟨p, hne, hold, hchild⟩
      by_cases hinit : s.kernel.currentProcess = initSlot
      · rw [if_pos hinit] at hcond
        have hparent : s.kernel.notifiedPid ≠ 0 :=
          fun hzero => hcond ((h.notifiedPid_eq_zero_iff hlive hinit).mp hzero)
        refine ⟨initSlot, hppid, ?_, ?_⟩
        · exact (exited_live hlive hmark).mpr ⟨hinit ▸ live_current hlive, fun _ => hparent⟩
        · rcases hforker with hname | ⟨-, hone, hgone⟩
          · exact Or.inl (hinit ▸ hname)
          · exact Or.inr ⟨rfl, hone, Finset.mem_insert_of_mem hgone⟩
      · rw [if_neg hinit] at hcond
        refine ⟨initSlot, hppid, ?_, Or.inr ⟨rfl, hcond.2, ?_⟩⟩
        · exact (exited_live hlive hmark).mpr ⟨hcond.1, fun heq => absurd heq.symm hinit⟩
        · rcases hforker with hname | ⟨hcurrent, -⟩
          · exact hname ▸ Finset.mem_insert_self _ _
          · exact absurd hcurrent hinit
    · rw [if_neg hchild] at hppid
      obtain ⟨q, hq, hqlive, hqname⟩ := h.kept p hne hold
      have hqne : q ≠ s.kernel.currentProcess := fun heq => hchild (heq ▸ hq)
      refine ⟨q, hppid.trans hq, ?_, ?_⟩
      · exact (exited_live hlive hmark).mpr ⟨hqlive, fun heq => absurd heq hqne⟩
      · rcases hqname with hname | ⟨hinit, hone, hgone⟩
        · exact Or.inl hname
        · exact Or.inr ⟨hinit, hone, Finset.mem_insert_of_mem hgone⟩

/-- A process with children which exits when process 1 is not there, or as process 1 with
nobody to wait for it, leaves them without a parent. -/
theorem Inv.safeExit (hkept : (s.exited k').Kept) : s.SafeExit := by
  rintro ⟨p, hne, hp, hchild⟩
  have hppid := h.exited_ppid hlive hmark hp
  rw [if_pos hchild] at hppid
  have hforker := h.child_forker hne hp hchild
  have hlinked : p ≠ s.kernel.currentProcess → (s.exited k').Live initSlot ∧
      (s.names initSlot = s.forker p ∨ s.names initSlot = 1) := by
    intro hother
    have hafter := (exited_live hlive hmark).mpr ⟨hp, fun heq => absurd heq hother⟩
    obtain ⟨hinit, hname⟩ := (hkept p hne hafter).slot (q := initSlot) hppid
    exact ⟨hinit, hname.imp id fun hone => hone.2.1⟩
  by_cases hinit : s.kernel.currentProcess = initSlot
  · rw [if_pos hinit]
    intro hzero
    have hother : p ≠ s.kernel.currentProcess := by
      intro heq
      rw [heq, hinit, hzero] at hchild
      exact absurd hchild (by decide)
    have hafter := ((exited_live hlive hmark).mp (hlinked hother).1).2 hinit.symm
    exact hafter ((h.notifiedPid_eq_zero_iff hlive hinit).mpr hzero)
  · rw [if_neg hinit]
    have hname : s.names s.kernel.currentProcess = s.forker p := by
      rcases hforker with hname | ⟨hcurrent, -⟩
      · exact hname
      · exact absurd hcurrent hinit
    have hother : p ≠ s.kernel.currentProcess := by
      intro heq
      have hlt := h.forker_lt p hne hp
      rw [heq] at hname hlt
      exact absurd hname hlt.ne'
    obtain ⟨hafter, hnames⟩ := hlinked hother
    have hbefore := ((exited_live hlive hmark).mp hafter).1
    refine ⟨hbefore, ?_⟩
    rcases hnames with hsame | hone
    · have heq := h.name_injective _ _ hbefore (live_current hlive) (hsame.trans hname.symm)
      exact absurd heq.symm hinit
    · exact hone

end Exit

/-! ## Wait and the scheduler -/

/-- Steps which change neither the numbers nor the parents of what is in use. -/
theorem Inv.of_quiet (h : s.Inv) {k' : Kernel}
    (hlive : ∀ p, (k'.processTable p).state ≠ .exited ↔ s.Live p)
    (hsame : ∀ p, s.Live p → (k'.processTable p).pid = (s.kernel.processTable p).pid ∧
      (k'.processTable p).ppid = s.ppid p) : Inv { s with kernel := k' } := by
  refine h.of_kernel s.gone (fun p hp => (hlive p).mp hp)
    (fun p hp => (hsame p ((hlive p).mp hp)).1) ?_
  intro p hne hp
  have hold := (hlive p).mp hp
  obtain ⟨q, hq, hqlive, hqname⟩ := h.kept p hne hold
  exact ⟨q, (hsame p hold).2.trans hq, (hlive q).mpr hqlive, hqname⟩

theorem Inv.waitpid (h : s.Inv) (hlive : ¬s.kernel.current.state.dead = true) {pid : ℤ}
    {wnohang : Bool} (hsafe : ∀ q ∈ s.kernel.matching pid, ¬ s.HasChild q) :
    Inv { s with kernel := s.kernel.waitpidPass pid wnohang } := by
  have hslot := Kernel.waitpidPass_slot hlive pid wnohang
  have hident := Kernel.waitpidPass_sameIdentity s.kernel pid wnohang
  generalize s.kernel.waitpidPass pid wnohang = k' at hslot hident
  refine h.of_kernel s.gone ?_ ?_ ?_
  · intro p hp
    exact ((hslot p).2.mp hp).1
  · intro p hp
    exact congrArg (fun i => i.1.1) (hident p)
  · intro p hne hp
    have hold := ((hslot p).2.mp hp).1
    obtain ⟨q, hq, hqlive, hqname⟩ := h.kept p hne hold
    refine ⟨q, (hslot p).1.trans hq, ?_, hqname⟩
    refine (hslot q).2.mpr ⟨hqlive, fun hmem => ?_⟩
    exact hsafe q hmem ⟨p, hne, hold, hq⟩

/-- A zombie which is reaped while it is a parent leaves its child without one. -/
theorem Inv.safeWait (h : s.Inv) (hlive : ¬s.kernel.current.state.dead = true) {pid : ℤ}
    {wnohang : Bool} (hkept : Kept { s with kernel := s.kernel.waitpidPass pid wnohang }) :
    ∀ q ∈ s.kernel.matching pid, ¬ s.HasChild q := by
  rintro q hq ⟨p, hne, hp, hchild⟩
  have hmatch : p ∉ s.kernel.matching pid := by
    intro hmem
    have hreapable := of_decide_eq_true (List.mem_filter.mp hmem).2
    have hparent : s.ppid p = s.kernel.current.pid := hreapable.1.1
    rw [h.current_pid hlive, hchild] at hparent
    have hsame : q = s.kernel.currentProcess := Fin.ext (by exact_mod_cast hparent)
    exact Kernel.ne_current_of_zombie hlive (Kernel.zombie_of_mem_matching hq) hsame
  have hslot := Kernel.waitpidPass_slot hlive pid wnohang
  generalize s.kernel.waitpidPass pid wnohang = k' at hslot hkept
  have hlinked := hkept p hne ((hslot p).2.mpr ⟨hp, hmatch⟩)
  have hqlive := (hlinked.slot ((hslot p).1.trans hchild)).1
  exact ((hslot q).2.mp hqlive).2 hq

theorem Inv.forkFailed (h : s.Inv) : Inv { s with kernel := s.kernel.forkPass false } := by
  cases hfree : s.kernel.getFreeProc with
  | none =>
      rw [Kernel.forkPass_none hfree]
      exact h
  | some r =>
      obtain ⟨c, k₁⟩ := r
      have hexited := (Kernel.getFreeProc_eq hfree).1
      have hfailed := Kernel.forkPass_fail hfree
      refine h.of_quiet ?_ ?_
      · intro p
        by_cases hchild : p = c
        · rw [hchild, hfailed]
          exact ⟨fun hp => absurd rfl hp, fun hp => absurd hexited hp⟩
        · rw [Kernel.forkPass_other hfree hchild]
          rfl
      · intro p hp
        have hchild : p ≠ c := fun heq => hp (heq ▸ hexited)
        rw [Kernel.forkPass_other hfree hchild]
        exact ⟨rfl, rfl⟩

theorem Inv.quietModify (h : s.Inv) {f : Proc → Proc}
    (hf : ∀ x, ((f x).state = .exited ↔ x.state = .exited) ∧ (f x).pid = x.pid ∧
      (f x).ppid = x.ppid) : Inv { s with kernel := s.kernel.modify q f } := by
  refine h.of_quiet ?_ ?_
  · intro p
    rw [Kernel.modify_processTable]
    split
    · exact not_congr (hf _).1
    · rfl
  · intro p _
    rw [Kernel.modify_processTable]
    split
    · exact (hf _).2
    · exact ⟨rfl, rfl⟩

theorem Inv.step (h : s.Inv) (hsafe : s.SafeStep st) (hstep : s.step st = some s') : s'.Inv := by
  obtain ⟨k', hk', rfl⟩ := Option.map_eq_some_iff.mp hstep
  cases st with
  | fork archOk =>
      simp only [Kernel.reapStep] at hk'
      split at hk'
      · cases hk'
      · rename_i hlive
        obtain rfl := Option.some.inj hk'
        cases archOk with
        | true => exact h.fork hlive
        | false => exact h.forkFailed
  | exit status =>
      simp only [Kernel.reapStep] at hk'
      split at hk'
      · cases hk'
      · rename_i hlive
        exact h.exit hlive (Kernel.exitMark_of_toOption hk') hsafe
  | waitpid pid wnohang =>
      simp only [Kernel.reapStep] at hk'
      split at hk'
      · cases hk'
      · rename_i hlive
        obtain rfl := Option.some.inj hk'
        exact h.waitpid hlive hsafe
  | waitpidWoken =>
      simp only [Kernel.reapStep] at hk'
      split at hk'
      · cases hk'
      · obtain rfl := Option.some.inj hk'
        unfold Kernel.waitpidWoken
        refine h.quietModify ?_
        intro x
        exact ⟨Iff.rfl, rfl, rfl⟩
  | switch q =>
      simp only [Kernel.reapStep] at hk'
      split at hk'
      · cases hk'
      · obtain rfl := Option.some.inj hk'
        exact h.of_quiet (fun _ => Iff.rfl) fun _ _ => ⟨rfl, rfl⟩
  | wake q =>
      simp only [Kernel.reapStep] at hk'
      split at hk'
      · rename_i hsleeping
        obtain rfl := Option.some.inj hk'
        have hq : (s.kernel.processTable q).state ≠ .exited := by
          intro hexited
          rw [hexited] at hsleeping
          cases hsleeping
        refine h.of_quiet ?_ ?_
        · intro p
          unfold Kernel.setState
          rw [Kernel.modify_processTable]
          split
          next hpq =>
            subst hpq
            exact ⟨fun _ => hq, fun _ hexited => by cases hexited⟩
          next => rfl
        · intro p _
          unfold Kernel.setState
          rw [Kernel.modify_processTable]
          split <;> exact ⟨rfl, rfl⟩
      · cases hk'

theorem Inv.safeStep (h : s.Inv) (hstep : s.step st = some s') (hkept : s'.Kept) :
    s.SafeStep st := by
  obtain ⟨k', hk', rfl⟩ := Option.map_eq_some_iff.mp hstep
  cases st with
  | exit status =>
      simp only [Kernel.reapStep] at hk'
      split at hk'
      · cases hk'
      · rename_i hlive
        exact h.safeExit hlive (Kernel.exitMark_of_toOption hk') hkept
  | waitpid pid wnohang =>
      simp only [Kernel.reapStep] at hk'
      split at hk'
      · cases hk'
      · rename_i hlive
        obtain rfl := Option.some.inj hk'
        exact h.safeWait hlive hkept
  | fork _ | waitpidWoken | switch _ | wake _ => trivial

theorem Inv.keptRun_iff (h : s.Inv) (sts : List Kernel.ReapStep) : s.KeptRun sts ↔ s.SafeRun sts := by
  induction sts generalizing s with
  | nil => exact ⟨fun _ => trivial, fun _ => h.kept⟩
  | cons st sts ih =>
      constructor
      · rintro ⟨-, hrest⟩ s' hstep
        have hafter := hrest s' hstep
        have hkept : s'.Kept := by
          cases sts with
          | nil => exact hafter
          | cons _ _ => exact hafter.1
        have hsafe := h.safeStep hstep hkept
        exact ⟨hsafe, (ih (h.step hsafe hstep)).mp hafter⟩
      · intro hsafe
        refine ⟨h.kept, fun s' hstep => ?_⟩
        obtain ⟨hsafe, hrest⟩ := hsafe s' hstep
        exact (ih (h.step hsafe hstep)).mpr hrest

/-- The links from processes to their parents are right in all states of a run if and only
if every exit of a process with children finds process 1 in its slot, or is that of
process 1 while it has a parent, and no process is reaped while it is a parent. -/
theorem keptRun_iff_safeRun (sts : List Kernel.ReapStep) : init.KeptRun sts ↔ init.SafeRun sts :=
  inv_init.keptRun_iff sts

/-- Process 1 forks process 2 and exits. -/
def initExits : List Kernel.ReapStep :=
  [.fork true, .switch initSlot, .fork true, .exit 0]

instance (s : Parents) (p : Slot) : Decidable (s.Live p) :=
  inferInstanceAs (Decidable (_ ≠ _))

theorem not_linked_initExits : ∃ s, init.run initExits = some s ∧
    s.Live ⟨2, by decide⟩ ∧ ¬ s.Linked ⟨2, by decide⟩ := by
  have hrun : (init.run initExits).any (fun s => decide
      (s.Live ⟨2, by decide⟩ ∧ s.ppid ⟨2, by decide⟩ = 1 ∧ ¬ s.Live initSlot)) = true := by
    decide +kernel
  obtain ⟨s, hs, hall⟩ := (Option.any_eq_true _ _).mp hrun
  obtain ⟨hlive, hppid, hgone⟩ := of_decide_eq_true hall
  exact ⟨s, hs, hlive, fun hlinked => hgone (hlinked.slot (q := initSlot) hppid).1⟩

end Parents

end Yak.Process
