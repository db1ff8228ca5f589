import Yak.ProcessIdentity
import Mathlib.Tactic

/-!
# Sessions

A transcription of `kernel_setsid`, `kernel_getsid` and `kernel_setpgid` over the process
table, and the leaders of sessions along runs of these calls with `kernel_fork`,
`kernel_exit` and `kernel_waitpid`.
-/

namespace Yak.Process

/-- The other fields of `struct pgrp_info`, and the terminal. -/
structure PgrpInfo where
  leader : Bool
  sid : ℤ
  tty : ℤ
  deriving DecidableEq

structure Sessions where
  kernel : Kernel
  pgrps : Slot → PgrpInfo

inductive SessionStep where
  | proc (st : Kernel.ReapStep)
  | setsid
  | setpgid (pid pgid : ℤ)

namespace Sessions

/-- `processes_init` over a table of zeros. -/
def init : Sessions where
  kernel := Kernel.processesInit
  pgrps _ := { leader := false, sid := 0, tty := 0 }

/-- The entry of the current process. -/
def pgrp (s : Sessions) : PgrpInfo := s.pgrps s.kernel.currentProcess

def kernelSetsid (s : Sessions) : Sessions × ℤ :=
  let pid := s.kernel.current.pid
  if s.pgrp.leader then (s, -Kernel.eperm)
  else
    ({ kernel := s.kernel.modify s.kernel.currentProcess fun x => { x with pgid := pid }
       pgrps :=
        Function.update s.pgrps s.kernel.currentProcess { leader := true, sid := pid, tty := -1 } },
      pid)

/-- The second loop of `kernel_getsid`. -/
def leaderPgid (s : Sessions) (sid : ℤ) : ℤ :=
  match (List.finRange nrProc).find? fun p =>
      (s.kernel.processTable p).state ≠ .exited ∧ (s.pgrps p).leader ∧ (s.pgrps p).sid = sid with
  | some p => (s.kernel.processTable p).pgid
  | none => -Kernel.esrch

/-- `kernel_getsid`.  What it assigns to `sid` for argument zero is overwritten in the
first loop, or not used. -/
def kernelGetsid (s : Sessions) (pid : ℤ) : ℤ :=
  match (List.finRange nrProc).find? fun p =>
      (s.kernel.processTable p).state ≠ .exited ∧ (s.kernel.processTable p).pid = pid with
  | some p => s.leaderPgid (s.pgrps p).sid
  | none => -Kernel.esrch

def setPgid (s : Sessions) (p : Slot) (pgid : ℤ) : Sessions :=
  { s with kernel := s.kernel.modify p fun x => { x with pgid := pgid } }

def kernelSetpgid (s : Sessions) (pid pgid : ℤ) : Sessions × ℤ :=
  if pgid < 0 then (s, -Kernel.einval)
  else
    let pid := if pid = 0 then s.kernel.current.pid else pid
    let pgid := if pgid = 0 then pid else pgid
    if pid = s.kernel.current.pid then
      if s.pgrp.leader then (s, -Kernel.eperm) else (s.setPgid s.kernel.currentProcess pgid, 0)
    else
      match (List.finRange nrProc).find? fun p =>
          (s.kernel.processTable p).pid = pid ∧
            (s.kernel.processTable p).ppid = s.kernel.current.pid with
      | some p =>
          if (s.pgrps p).leader then (s, -Kernel.eperm)
          else if (s.pgrps p).sid ≠ s.pgrp.sid then (s, -Kernel.eperm)
          else (s.setPgid p pgid, 0)
      | none => (s, -Kernel.esrch)

/-- The entries after a step: `kernel_fork` copies that of the parent with the rest. -/
def copied (s : Sessions) : Kernel.ReapStep → Slot → PgrpInfo
  | .fork _ =>
      match s.kernel.getFreeProc with
      | some (c, _) => Function.update s.pgrps c s.pgrp
      | none => s.pgrps
  | _ => s.pgrps

/-- A step of the current process, which must be alive. -/
def step (s : Sessions) : SessionStep → Option Sessions
  | .proc st => (s.kernel.reapStep st).map fun k => { kernel := k, pgrps := s.copied st }
  | .setsid => if s.kernel.current.state.dead then none else some s.kernelSetsid.1
  | .setpgid pid pgid =>
      if s.kernel.current.state.dead then none else some (s.kernelSetpgid pid pgid).1

def run (s : Sessions) : List SessionStep → Option Sessions
  | [] => some s
  | st :: sts => s.step st >>= fun s' => s'.run sts

variable {s s' : Sessions} {p : Slot} {st : SessionStep}

/-! ## Leaders -/

def Live (s : Sessions) (p : Slot) : Prop := (s.kernel.processTable p).state ≠ .exited

/-- A process leads a session if and only if the session is its own. -/
def Led (s : Sessions) (p : Slot) : Prop :=
  (s.pgrps p).leader = true ↔ (s.pgrps p).sid = (s.kernel.processTable p).pid

/-- Slot 0 as the first process has it before it calls `kernel_setsid`. -/
def Unled (s : Sessions) (p : Slot) : Prop :=
  p.val = 0 ∧ (s.pgrps p).leader = false ∧ (s.pgrps p).sid = 0

/-- The first process apart, the leaders are those whose session is their own. -/
def Kept (s : Sessions) : Prop := ∀ p, s.Live p → s.Led p ∨ s.Unled p

/-- `kernel_getsid(0)`, called by the process, answers as with its own number. -/
def AsksItself (s : Sessions) (p : Slot) : Prop :=
  s.kernelGetsid 0 = s.kernelGetsid (s.kernel.processTable p).pid

instance (s : Sessions) (p : Slot) : Decidable (s.Live p) :=
  inferInstanceAs (Decidable (_ ≠ _))

instance (s : Sessions) (p : Slot) : Decidable (s.Led p) :=
  inferInstanceAs (Decidable (_ ↔ _))

instance (s : Sessions) (p : Slot) : Decidable (s.AsksItself p) :=
  inferInstanceAs (Decidable (_ = _))

/-- The leaders are right, and so are the answers of `kernel_getsid(0)`. -/
def Right (s : Sessions) : Prop :=
  (∀ p, s.Live p → s.Led p) ∧
    ∀ p, (s.kernel.processTable p).state.dead = false → s.AsksItself p

/-- A fork is by a process which is no leader, and not into the slot whose number its
session has. -/
def SafeStep (s : Sessions) : SessionStep → Prop
  | .proc (.fork true) => ∀ c k₁, s.kernel.getFreeProc = some (c, k₁) →
      s.pgrp.leader = false ∧ (s.pgrp.sid = c.val → c.val = 0)
  | _ => True

/-- A property of all states of the run. -/
def Throughout (P : Sessions → Prop) (s : Sessions) : List SessionStep → Prop
  | [] => P s
  | st :: sts => P s ∧ ∀ s', s.step st = some s' → s'.Throughout P sts

def SafeRun (s : Sessions) : List SessionStep → Prop
  | [] => True
  | st :: sts => ∀ s', s.step st = some s' → s.SafeStep st ∧ s'.SafeRun sts

structure Inv (s : Sessions) : Prop where
  pid : ∀ p, s.Live p → (s.kernel.processTable p).pid = p.val
  group : ∀ p, s.Live p → (s.pgrps p).leader = true → (s.kernel.processTable p).pgid = p.val
  nonneg : ∀ p, s.Live p → 0 ≤ (s.pgrps p).sid
  kept : s.Kept

theorem live_init (h : init.Live p) : p.val = 0 := by
  by_contra hp
  refine h ?_
  unfold init Kernel.processesInit
  dsimp only
  rw [if_neg hp]
  rfl

theorem inv_init : init.Inv where
  pid p hp := by
    have hzero := live_init hp
    unfold init Kernel.processesInit
    dsimp only
    rw [if_pos hzero, hzero]
    rfl
  group _ _ hleader := by cases hleader
  nonneg _ _ := le_refl 0
  kept p hp := Or.inr ⟨live_init hp, rfl, rfl⟩

theorem live_current (hlive : ¬s.kernel.current.state.dead = true) :
    s.Live s.kernel.currentProcess :=
  Kernel.current_ne_exited hlive

theorem identity_pid {x y : Proc} (h : y.identity = x.identity) : y.pid = x.pid :=
  congrArg (fun i => i.1.1) h

theorem identity_pgid {x y : Proc} (h : y.identity = x.identity) : y.pgid = x.pgid :=
  congrArg (fun i => i.1.2) h

theorem copied_of_live (hp : s.Live p) (st : Kernel.ReapStep) : s.copied st p = s.pgrps p := by
  unfold copied
  split
  · cases hfree : s.kernel.getFreeProc with
    | none => rfl
    | some r =>
        obtain ⟨c, k₁⟩ := r
        have hne : p ≠ c := by
          rintro rfl
          exact hp (Kernel.getFreeProc_eq hfree).1
        exact Function.update_of_ne hne _ _
  · rfl

theorem copied_child {k₁ : Kernel} (hfree : s.kernel.getFreeProc = some (p, k₁)) (archOk : Bool) :
    s.copied (.fork archOk) p = s.pgrp := by
  unfold copied
  rw [hfree]
  exact Function.update_self _ _ _

/-! ## Steps -/

/-- A process in use keeps its number, its group and its session over a step of the others,
or has all but the number from the process that has forked it. -/
theorem step_proc_slot {st : Kernel.ReapStep} (hstep : s.step (.proc st) = some s')
    (hp : s'.Live p) :
    (s.Live p ∧ s'.pgrps p = s.pgrps p ∧
      (s'.kernel.processTable p).pid = (s.kernel.processTable p).pid ∧
      (s'.kernel.processTable p).pgid = (s.kernel.processTable p).pgid) ∨
    (st = .fork true ∧ (∃ k₁, s.kernel.getFreeProc = some (p, k₁)) ∧
      ¬ s.kernel.current.state.dead = true ∧ s'.pgrps p = s.pgrp ∧
      (s'.kernel.processTable p).pid = p.val) := by
  obtain ⟨k', hk', rfl⟩ := Option.map_eq_some_iff.mp hstep
  rcases Kernel.reapStep_slot hk' hp with ⟨hold, hident⟩ | ⟨rfl, ⟨k₁, hfree⟩, hpid, hpgid⟩
  · exact Or.inl ⟨hold, copied_of_live hold st, identity_pid hident, identity_pgid hident⟩
  · refine Or.inr ⟨rfl, ⟨k₁, hfree⟩, ?_, copied_child hfree true, hpid⟩
    intro hdead
    simp only [Kernel.reapStep, if_pos hdead] at hk'
    cases hk'

theorem Inv.proc {st : Kernel.ReapStep} (h : s.Inv) (hsafe : s.SafeStep (.proc st))
    (hstep : s.step (.proc st) = some s') : s'.Inv := by
  have hchild : ∀ p k₁, st = .fork true → s.kernel.getFreeProc = some (p, k₁) →
      s.pgrp.leader = false ∧ (s.pgrp.sid = p.val → p.val = 0) := by
    rintro p k₁ rfl hfree
    exact hsafe p k₁ hfree
  constructor
  · intro p hp
    rcases step_proc_slot hstep hp with ⟨hold, -, hpid, -⟩ | ⟨-, -, -, -, hpid⟩
    · rw [hpid, h.pid p hold]
    · exact hpid
  · intro p hp hleader
    rcases step_proc_slot hstep hp with ⟨hold, hsame, -, hpgid⟩ | ⟨hst, ⟨k₁, hfree⟩, -, hsame, -⟩
    · rw [hsame] at hleader
      rw [hpgid, h.group p hold hleader]
    · rw [hsame, (hchild p k₁ hst hfree).1] at hleader
      cases hleader
  · intro p hp
    rcases step_proc_slot hstep hp with ⟨hold, hsame, -, -⟩ | ⟨-, -, hlive, hsame, -⟩
    · rw [hsame]
      exact h.nonneg p hold
    · rw [hsame]
      exact h.nonneg _ (live_current hlive)
  · intro p hp
    unfold Led Unled
    rcases step_proc_slot hstep hp with ⟨hold, hsame, hpid, -⟩ |
      ⟨hst, ⟨k₁, hfree⟩, -, hsame, hpid⟩
    · rw [hsame, hpid]
      exact h.kept p hold
    · obtain ⟨hleader, hsid⟩ := hchild p k₁ hst hfree
      rw [hsame, hpid, hleader]
      by_cases hown : s.pgrp.sid = p.val
      · have hzero := hsid hown
        exact Or.inr ⟨hzero, rfl, by rw [hown, hzero]; rfl⟩
      · left
        simp [hown]

/-- Calls which write only the group of processes that lead no session, and the calls which
make a process the leader of its own. -/
theorem Inv.of_slots (h : s.Inv)
    (hslots : ∀ p, s'.Live p → s.Live p ∧
      (s'.kernel.processTable p).pid = (s.kernel.processTable p).pid ∧
      ((s'.pgrps p = s.pgrps p ∧
          ((s'.kernel.processTable p).pgid = (s.kernel.processTable p).pgid ∨
            (s.pgrps p).leader = false)) ∨
        ((s'.pgrps p).leader = true ∧ (s'.pgrps p).sid = p.val ∧
          (s'.kernel.processTable p).pgid = p.val))) : s'.Inv := by
  constructor
  · intro p hp
    obtain ⟨hold, hpid, -⟩ := hslots p hp
    rw [hpid, h.pid p hold]
  · intro p hp hleader
    obtain ⟨hold, -, ⟨hsame, hgroup⟩ | ⟨-, -, hown⟩⟩ := hslots p hp
    · rw [hsame] at hleader
      rcases hgroup with hpgid | hnone
      · rw [hpgid, h.group p hold hleader]
      · rw [hnone] at hleader
        cases hleader
    · exact hown
  · intro p hp
    obtain ⟨hold, -, ⟨hsame, -⟩ | ⟨-, hsid, -⟩⟩ := hslots p hp
    · rw [hsame]
      exact h.nonneg p hold
    · rw [hsid]
      exact Int.natCast_nonneg _
  · intro p hp
    unfold Led Unled
    obtain ⟨hold, hpid, ⟨hsame, -⟩ | ⟨hleader, hsid, -⟩⟩ := hslots p hp
    · rw [hsame, hpid]
      exact h.kept p hold
    · left
      rw [hleader, hsid, hpid, h.pid p hold]
      simp

theorem Inv.setsid (h : s.Inv) (hlive : ¬s.kernel.current.state.dead = true) :
    s.kernelSetsid.1.Inv := by
  unfold kernelSetsid
  dsimp only
  split
  · exact h
  · have hpid := h.pid _ (live_current hlive)
    refine h.of_slots ?_
    intro p hp
    unfold Live at hp ⊢
    rw [Kernel.modify_processTable] at hp ⊢
    by_cases hcurrent : p = s.kernel.currentProcess
    · subst hcurrent
      rw [if_pos rfl] at hp ⊢
      refine ⟨hp, rfl, Or.inr ?_⟩
      dsimp only
      rw [Function.update_self]
      exact ⟨rfl, hpid, hpid⟩
    · rw [if_neg hcurrent] at hp ⊢
      exact ⟨hp, rfl, Or.inl ⟨Function.update_of_ne hcurrent _ _, Or.inl rfl⟩⟩

theorem Inv.setPgid {pgid : ℤ} (h : s.Inv) (hleader : (s.pgrps p).leader = false) :
    (s.setPgid p pgid).Inv := by
  refine h.of_slots ?_
  intro q hq
  unfold Live Sessions.setPgid at hq
  unfold Sessions.setPgid
  rw [Kernel.modify_processTable] at hq ⊢
  by_cases hqp : q = p
  · subst hqp
    rw [if_pos rfl] at hq ⊢
    exact ⟨hq, rfl, Or.inl ⟨rfl, Or.inr hleader⟩⟩
  · rw [if_neg hqp] at hq ⊢
    exact ⟨hq, rfl, Or.inl ⟨rfl, Or.inl rfl⟩⟩

/-- `kernel_setpgid` changes nothing, or the group of one process which leads no session. -/
theorem kernelSetpgid_cases (s : Sessions) (pid pgid : ℤ) :
    (s.kernelSetpgid pid pgid).1 = s ∨
      ∃ p v, (s.kernelSetpgid pid pgid).1 = s.setPgid p v ∧ (s.pgrps p).leader = false := by
  unfold kernelSetpgid
  by_cases hnegative : pgid < 0
  · rw [if_pos hnegative]
    exact Or.inl rfl
  · rw [if_neg hnegative]
    dsimp only
    generalize (if pid = 0 then s.kernel.current.pid else pid) = pid
    generalize (if pgid = 0 then pid else pgid) = pgid
    split
    · split
      · exact Or.inl rfl
      · rename_i hleader
        exact Or.inr ⟨_, _, rfl, Bool.eq_false_iff.mpr hleader⟩
    · split
      · split
        · exact Or.inl rfl
        · rename_i hleader
          split
          · exact Or.inl rfl
          · exact Or.inr ⟨_, _, rfl, Bool.eq_false_iff.mpr hleader⟩
      · exact Or.inl rfl

theorem Inv.setpgid (h : s.Inv) (pid pgid : ℤ) : (s.kernelSetpgid pid pgid).1.Inv := by
  obtain hnone | ⟨p, v, hset, hleader⟩ := s.kernelSetpgid_cases pid pgid
  · rw [hnone]
    exact h
  · rw [hset]
    exact h.setPgid hleader

theorem Inv.step (h : s.Inv) (hsafe : s.SafeStep st) (hstep : s.step st = some s') : s'.Inv := by
  cases st with
  | proc st => exact h.proc hsafe hstep
  | setsid =>
      simp only [Sessions.step] at hstep
      split at hstep
      · cases hstep
      · rename_i hlive
        obtain rfl := Option.some.inj hstep
        exact h.setsid hlive
  | setpgid pid pgid =>
      simp only [Sessions.step] at hstep
      split at hstep
      · cases hstep
      · obtain rfl := Option.some.inj hstep
        exact h.setpgid pid pgid

/-- An unsafe fork makes a child for which the leadership is wrong at once. -/
theorem Inv.safeStep (h : s.Inv) (hstep : s.step st = some s') (hkept : s'.Kept) :
    s.SafeStep st := by
  unfold SafeStep
  split
  · rename_i st
    intro c k₁ hfree
    obtain ⟨k', hk', rfl⟩ := Option.map_eq_some_iff.mp hstep
    have hlive : ¬ s.kernel.current.state.dead = true := by
      intro hdead
      simp only [Kernel.reapStep, if_pos hdead] at hk'
      cases hk'
    have hforked : s.kernel.forkPass true = k' := by
      simp only [Kernel.reapStep, if_neg hlive] at hk'
      exact Option.some.inj hk'
    obtain ⟨hstate, hpid, -, -⟩ := Kernel.forkPass_child hfree
    rw [hforked] at hstate hpid
    have hchild := hkept c (by unfold Live; rw [hstate]; decide)
    unfold Led Unled at hchild
    dsimp only at hchild
    rw [copied_child hfree true, hpid] at hchild
    have hcurrent := live_current hlive
    have hne : s.kernel.currentProcess ≠ c := by
      intro heq
      exact hcurrent (heq ▸ (Kernel.getFreeProc_eq hfree).1)
    have hleader : s.pgrp.leader = false := by
      by_contra hleads
      rw [Bool.not_eq_false] at hleads
      -- The session of a leader is its own, and it is not the child's.
      have hown : s.pgrp.sid = s.kernel.currentProcess.val := by
        rcases h.kept _ hcurrent with hled | ⟨-, hnot, -⟩
        · rw [← h.pid _ hcurrent]
          exact hled.mp hleads
        · exact absurd (hleads.symm.trans hnot) (by decide)
      rcases hchild with hled | ⟨-, hnot, -⟩
      · have hsame := hled.mp hleads
        rw [hown] at hsame
        exact hne (Fin.ext (by exact_mod_cast hsame))
      · exact absurd (hleads.symm.trans hnot) (by decide)
    refine ⟨hleader, fun hsid => ?_⟩
    rcases hchild with hled | ⟨hzero, -, -⟩
    · exact absurd (hleader.symm.trans (hled.mpr hsid)) (by decide)
    · exact hzero
  · trivial

theorem Inv.safeRun_iff (h : s.Inv) (sts : List SessionStep) :
    s.Throughout Kept sts ↔ s.SafeRun sts := by
  induction sts generalizing s with
  | nil => exact ⟨fun _ => trivial, fun _ => h.kept⟩
  | cons st sts ih =>
      constructor
      · rintro ⟨-, hrest⟩ s' hstep
        have hafter := hrest s' hstep
        have hkept : s'.Kept := by
          cases sts with
          | nil => exact hafter
          | cons _ _ => exact hafter.1
        have hsafe := h.safeStep hstep hkept
        exact ⟨hsafe, (ih (h.step hsafe hstep)).mp hafter⟩
      · intro hsafe
        refine ⟨h.kept, fun s' hstep => ?_⟩
        obtain ⟨hsafe, hrest⟩ := hsafe s' hstep
        exact (ih (h.step hsafe hstep)).mpr hrest

theorem Inv.run {sts : List SessionStep} (h : s.Inv) (hsafe : s.SafeRun sts)
    (hrun : s.run sts = some s') : s'.Inv := by
  induction sts generalizing s with
  | nil =>
      cases hrun
      exact h
  | cons st sts ih =>
      obtain ⟨s₁, hstep, hrun⟩ := Option.bind_eq_some_iff.mp hrun
      obtain ⟨hsafe, hrest⟩ := hsafe s₁ hstep
      exact ih (h.step hsafe hstep) hrest hrun

/-! ## `kernel_getsid` -/

def firstSlot : Slot := ⟨0, zero_lt_nrProc⟩

/-- A process in use leads the session. -/
def HasLeader (s : Sessions) (sid : ℤ) : Prop :=
  ∃ p, s.Live p ∧ (s.pgrps p).leader = true ∧ (s.pgrps p).sid = sid

/-- The session of slot 0 is that of the process, or neither of the two has a leader, where
an exited slot 0 is of no session. -/
def SameSession (s : Sessions) (p : Slot) : Prop :=
  (s.Live firstSlot ∧ (s.pgrps p).sid = (s.pgrps firstSlot).sid) ∨
    (¬ s.HasLeader (s.pgrps p).sid ∧
      (s.Live firstSlot → ¬ s.HasLeader (s.pgrps firstSlot).sid))

theorem Inv.leaderPgid (h : s.Inv) {sid : ℤ} (hleader : s.HasLeader sid) :
    s.leaderPgid sid = sid := by
  unfold Sessions.leaderPgid
  split
  · rename_i p hfind
    have hp := List.find?_some hfind
    simp only [decide_eq_true_eq] at hp
    obtain ⟨hlive, hleads, hsid⟩ := hp
    rw [h.group p hlive hleads]
    rcases h.kept p hlive with hled | ⟨-, hnot, -⟩
    · rw [← h.pid p hlive, ← hled.mp hleads, hsid]
    · rw [hnot] at hleads
      cases hleads
  · rename_i hfind
    obtain ⟨p, hlive, hleads, hsid⟩ := hleader
    have hp := List.find?_eq_none.mp hfind p (List.mem_finRange p)
    simp only [decide_eq_true_eq] at hp
    exact absurd ⟨hlive, hleads, hsid⟩ hp

theorem leaderPgid_none {sid : ℤ} (hleader : ¬ s.HasLeader sid) :
    s.leaderPgid sid = -Kernel.esrch := by
  unfold leaderPgid
  split
  · rename_i p hfind
    have hp := List.find?_some hfind
    simp only [decide_eq_true_eq] at hp
    exact absurd ⟨p, hp⟩ hleader
  · rfl

/-- The first loop of `kernel_getsid` finds the process of a slot by its number. -/
theorem Inv.kernelGetsid (h : s.Inv) (hp : s.Live p) {pid : ℤ} (hpid : pid = p.val) :
    s.kernelGetsid pid = s.leaderPgid (s.pgrps p).sid := by
  unfold Sessions.kernelGetsid
  split
  · rename_i q hfind
    have hq := List.find?_some hfind
    simp only [decide_eq_true_eq] at hq
    have hsame : q = p := by
      have hnumber := h.pid q hq.1
      rw [hq.2, hpid] at hnumber
      exact Fin.ext (by exact_mod_cast hnumber.symm)
    rw [hsame]
  · rename_i hfind
    have hmiss := List.find?_eq_none.mp hfind p (List.mem_finRange p)
    simp only [decide_eq_true_eq] at hmiss
    exact absurd ⟨hp, (h.pid p hp).trans hpid.symm⟩ hmiss

theorem Inv.kernelGetsid_zero (h : s.Inv) (hfirst : ¬ s.Live firstSlot) :
    s.kernelGetsid 0 = -Kernel.esrch := by
  unfold Sessions.kernelGetsid
  split
  · rename_i q hfind
    have hq := List.find?_some hfind
    simp only [decide_eq_true_eq] at hq
    have hsame : q = firstSlot := by
      have hnumber := h.pid q hq.1
      rw [hq.2] at hnumber
      exact Fin.ext (by exact_mod_cast hnumber.symm)
    exact absurd (hsame ▸ hq.1) hfirst
  · rfl

theorem Inv.asksItself_iff (h : s.Inv) (hp : s.Live p) : s.AsksItself p ↔ s.SameSession p := by
  have hesrch : ∀ q, s.Live q → (s.pgrps q).sid ≠ -Kernel.esrch := by
    intro q hq hsid
    have hnonneg := h.nonneg q hq
    rw [hsid] at hnonneg
    exact absurd hnonneg (by decide)
  unfold AsksItself SameSession
  rw [h.kernelGetsid hp (h.pid p hp)]
  by_cases hfirst : s.Live firstSlot
  · have hzeroth : s.kernelGetsid 0 = s.leaderPgid (s.pgrps firstSlot).sid :=
      h.kernelGetsid hfirst rfl
    rw [hzeroth]
    by_cases hmine : s.HasLeader (s.pgrps p).sid
    · rw [h.leaderPgid hmine]
      by_cases hzero : s.HasLeader (s.pgrps firstSlot).sid
      · rw [h.leaderPgid hzero]
        simp [hfirst, hmine, eq_comm]
      · rw [leaderPgid_none hzero]
        have hdiffer : (s.pgrps p).sid ≠ (s.pgrps firstSlot).sid := by
          intro heq
          exact hzero (heq ▸ hmine)
        simp [hmine, hdiffer, (hesrch p hp).symm]
    · rw [leaderPgid_none hmine]
      by_cases hzero : s.HasLeader (s.pgrps firstSlot).sid
      · rw [h.leaderPgid hzero]
        have hdiffer : (s.pgrps p).sid ≠ (s.pgrps firstSlot).sid := by
          intro heq
          exact hmine (heq ▸ hzero)
        simp [hfirst, hzero, hdiffer, hesrch _ hfirst]
      · rw [leaderPgid_none hzero]
        simp [hmine, hzero]
  · rw [h.kernelGetsid_zero hfirst]
    by_cases hmine : s.HasLeader (s.pgrps p).sid
    · rw [h.leaderPgid hmine]
      simp [hfirst, hmine, (hesrch p hp).symm]
    · rw [leaderPgid_none hmine]
      simp [hfirst, hmine]

theorem live_of_not_dead (hp : (s.kernel.processTable p).state.dead = false) : s.Live p := by
  intro hexited
  rw [hexited] at hp
  cases hp

theorem Inv.led_iff (h : s.Inv) :
    (∀ p, s.Live p → s.Led p) ↔ (s.Live firstSlot → ¬ s.Unled firstSlot) := by
  constructor
  · rintro hall hfirst ⟨-, hleader, hsid⟩
    have hled := (hall firstSlot hfirst).mpr (hsid.trans (h.pid firstSlot hfirst).symm)
    rw [hleader] at hled
    cases hled
  · intro hfirst p hp
    rcases h.kept p hp with hled | hunled
    · exact hled
    · have hsame : p = firstSlot := Fin.ext hunled.1
      subst hsame
      exact absurd hunled (hfirst hp)

theorem Inv.right_iff (h : s.Inv) :
    s.Right ↔ (s.Live firstSlot → ¬ s.Unled firstSlot) ∧
      ∀ p, (s.kernel.processTable p).state.dead = false → s.SameSession p := by
  unfold Right
  rw [h.led_iff]
  apply and_congr_right
  intro _
  refine forall₂_congr ?_
  intro p hp
  exact h.asksItself_iff (live_of_not_dead hp)

theorem not_right_init : ¬ init.Right := by
  intro hright
  have hlive : init.Live firstSlot := by
    unfold Live
    decide
  exact absurd ((hright.1 firstSlot hlive).mpr rfl) (by decide)

/-- The first process leads no session when it starts, though its session is its own.  It is
the only such process as long as no leader forks and no process forks into the slot whose
number its session has.  In these runs all leaders are right once the first process is a
leader or is gone, and the answers of `kernel_getsid(0)` are right for the processes which
share the session of slot 0, or where neither session has a leader any more. -/
theorem sessions_iff (sts : List SessionStep) :
    ¬ init.Throughout Right sts ∧
      (init.Throughout Kept sts ↔ init.SafeRun sts) ∧
      ∀ s, init.run sts = some s → init.SafeRun sts →
        (s.Right ↔ (s.Live firstSlot → ¬ s.Unled firstSlot) ∧
          ∀ p, (s.kernel.processTable p).state.dead = false → s.SameSession p) := by
  refine ⟨?_, inv_init.safeRun_iff sts, fun s hrun hsafe => (inv_init.run hsafe hrun).right_iff⟩
  intro hright
  refine not_right_init ?_
  cases sts with
  | nil => exact hright
  | cons _ _ => exact hright.1

/-- Process 1 makes itself the leader of a session and forks. -/
def leaderForks : List SessionStep :=
  [.proc (.fork true), .proc (.switch ⟨1, one_lt_nrProc⟩), .setsid, .proc (.fork true)]

theorem not_right_leaderForks : ∃ s, init.run leaderForks = some s ∧
    s.Live ⟨2, by decide⟩ ∧ ¬ s.Led ⟨2, by decide⟩ ∧ ¬ s.AsksItself ⟨2, by decide⟩ := by
  have hrun : (init.run leaderForks).any (fun s => decide
      (s.Live ⟨2, by decide⟩ ∧ ¬ s.Led ⟨2, by decide⟩ ∧ ¬ s.AsksItself ⟨2, by decide⟩)) = true := by
    decide +kernel
  obtain ⟨s, hs, hall⟩ := (Option.any_eq_true _ _).mp hrun
  exact ⟨s, hs, of_decide_eq_true hall⟩

end Sessions

end Yak.Process
