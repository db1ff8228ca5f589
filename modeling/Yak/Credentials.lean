import Yak.OpenFiles
import Yak.Sessions
import Mathlib.Tactic

/-!
# Users of processes

The user of a process along runs of all system calls.  Two of them write one of the
fields `uid`, `euid` and `suid`: `kernel_setuid`, and `kernel_fork`, which copies them with
the rest of the process.  The lineage of a process is followed through the slots it is
forked into; a slot leaves it when a process from outside is forked there.
-/

namespace Yak.Process

/-- The user of a process: `uid`, `euid` and `suid`. -/
def Proc.user (x : Proc) : ℤ × ℤ × ℤ := (x.uid, x.euid, x.suid)

/-- None of the three is the superuser. -/
def Proc.Dropped (x : Proc) : Prop := x.uid ≠ 0 ∧ x.euid ≠ 0 ∧ x.suid ≠ 0

instance (x : Proc) : Decidable x.Dropped := inferInstanceAs (Decidable (_ ∧ _))

theorem Proc.dropped_of_user {x y : Proc} (h : y.user = x.user) (hx : x.Dropped) : y.Dropped := by
  simp only [Proc.user, Prod.mk.injEq] at h
  unfold Proc.Dropped
  rw [h.1, h.2.1, h.2.2]
  exact hx

theorem Proc.user_of_identity {x y : Proc} (h : y.identity = x.identity) : y.user = x.user :=
  congrArg Prod.snd h

namespace Kernel

variable {k k' : Kernel}

/-! ## Fork -/

/-- The users after a fork: the slot that was free has that of the process which forks. -/
theorem kernelFork_user {archOk : Bool} (h : k.kernelFork archOk = .ok k') (p : Slot) :
    (k'.processTable p).user =
      match k.getFreeProc with
      | some (c, _) => if p = c then k.current.user else (k.processTable p).user
      | none => (k.processTable p).user := by
  unfold kernelFork at h
  cases hfree : k.getFreeProc with
  | none =>
      rw [hfree] at h
      obtain rfl := Except.ok.inj h
      rfl
  | some r =>
      obtain ⟨c, k₁⟩ := r
      have hk₁ := (getFreeProc_eq hfree).2
      have hcopy : ((k₁.forkCopy c).processTable p).user =
          if p = c then k.current.user else (k.processTable p).user := by
        unfold forkCopy
        rw [modify_processTable, hk₁]
        split <;> rfl
      simp only [hfree] at h
      dsimp only
      rw [← hcopy]
      split at h
      · rw [bind_eq_ok] at h
        obtain ⟨k₂, hadjust, hschedule⟩ := h
        have hbuilt : (((k₁.forkCopy c).forkBuild c).processTable p).user =
            ((k₁.forkCopy c).processTable p).user := by
          unfold forkBuild
          rw [modify_processTable]
          split <;> rfl
        have hlinked := (adjustProcQueues_sameIdentity hadjust).trans (schedule_sameIdentity hschedule)
        exact (Proc.user_of_identity (hlinked p)).trans hbuilt
      · obtain rfl := Except.ok.inj h
        exact Proc.user_of_identity (setState_sameIdentity _ c .exited p)

end Kernel

namespace Sessions

theorem kernelSetsid_user (s : Sessions) (p : Slot) :
    (s.kernelSetsid.1.kernel.processTable p).user = (s.kernel.processTable p).user := by
  unfold kernelSetsid
  dsimp only
  split
  · rfl
  · rw [Kernel.modify_processTable]
    split <;> rfl

theorem setPgid_user (s : Sessions) (p q : Slot) (pgid : ℤ) :
    ((s.setPgid q pgid).kernel.processTable p).user = (s.kernel.processTable p).user := by
  unfold setPgid
  rw [Kernel.modify_processTable]
  split <;> rfl

theorem kernelSetpgid_user (s : Sessions) (pid pgid : ℤ) (p : Slot) :
    ((s.kernelSetpgid pid pgid).1.kernel.processTable p).user = (s.kernel.processTable p).user := by
  obtain hnone | ⟨q, v, hset, -⟩ := s.kernelSetpgid_cases pid pgid
  · rw [hnone]
  · rw [hset]
    exact s.setPgid_user p q v

end Sessions

/-! ## All system calls -/

/-- The group of a process: `gid`, `egid` and `sgid`. -/
structure Group where
  gid : ℤ
  egid : ℤ
  sgid : ℤ
  deriving DecidableEq

/-- The processes with their sessions, their groups and their open files. -/
structure Family extends Sessions where
  groups : Slot → Group
  files : Files.System

namespace Family

/-- `processes_init`, with nothing opened. -/
def init : Family where
  toSessions := .init
  groups _ := ⟨0, 0, 0⟩
  files := .boot

/-- What the current process may ask of the kernel.  The steps of `file` are those of
`kernel_execve` and of the descriptor calls, and `op` has the others. -/
inductive Call where
  | setuid (uid : ℤ)
  | setgid (gid : ℤ)
  | setsid
  | setpgid (pid pgid : ℤ)
  | op (op : Kernel.Op)
  | file (event : Files.Event)

def kernelSetgid (s : Family) (gid : ℤ) : Family × Bool :=
  let p := s.kernel.currentProcess
  if s.kernel.current.uid = 0 ∨ s.kernel.current.euid = 0 then
    ({ s with groups := Function.update s.groups p ⟨gid, gid, gid⟩ }, true)
  else if gid = (s.groups p).gid ∨ gid = (s.groups p).sgid then
    ({ s with groups := Function.update s.groups p { s.groups p with egid := gid } }, true)
  else (s, false)

/-- The group which `kernel_fork` copies with the rest of the process. -/
def forkGroups (s : Family) : Slot → Group :=
  match s.kernel.getFreeProc with
  | some (c, _) => Function.update s.groups c (s.groups s.kernel.currentProcess)
  | none => s.groups

def exec (s : Family) : Call → Except Halt Family
  | .setuid uid => .ok { s with kernel := (s.kernel.kernelSetuid uid).1 }
  | .setgid gid => .ok (s.kernelSetgid gid).1
  | .setsid => .ok { s with toSessions := s.kernelSetsid.1 }
  | .setpgid pid pgid => .ok { s with toSessions := (s.kernelSetpgid pid pgid).1 }
  | .op (.fork archOk) => do
      let k ← s.kernel.kernelFork archOk
      .ok { s with kernel := k, pgrps := s.copied (.fork archOk), groups := s.forkGroups }
  | .op op => do
      let k ← op.exec s.kernel
      .ok { s with kernel := k }
  | .file event =>
      match s.files.step event with
      | some files => .ok { s with files := files }
      | none => .ok s

/-- The slots of a set of processes and of what they have forked, after a call. -/
def lineage (s : Family) (slots : Finset Slot) : Call → Finset Slot
  | .op (.fork _) =>
      match s.kernel.getFreeProc with
      | some (c, _) =>
          if s.kernel.currentProcess ∈ slots then insert c slots else slots.erase c
      | none => slots
  | _ => slots

/-- A run, and the lineage of the slots along it. -/
def run (s : Family) (slots : Finset Slot) : List Call → Except Halt (Family × Finset Slot)
  | [] => .ok (s, slots)
  | call :: calls => do
      let s' ← s.exec call
      s'.run (s.lineage slots call) calls

variable {s s' : Family} {slots slots' : Finset Slot} {call : Call}

/-- Nobody of the lineage is the superuser, in any of the three fields. -/
def AllDropped (s : Family) (slots : Finset Slot) : Prop :=
  ∀ p ∈ slots, (s.kernel.processTable p).Dropped

theorem AllDropped.of_user (h : s.AllDropped slots)
    (hsame : ∀ p, (s'.kernel.processTable p).user = (s.kernel.processTable p).user) :
    s'.AllDropped slots :=
  fun p hp => Proc.dropped_of_user (hsame p) (h p hp)

/-- A process of the lineage takes the branch of `kernel_setuid` which chooses among its
own users. -/
theorem AllDropped.setuid (h : s.AllDropped slots) (uid : ℤ) :
    AllDropped { s with kernel := (s.kernel.kernelSetuid uid).1 } slots := by
  intro p hp
  have hdropped := h p hp
  have hbranch : p = s.kernel.currentProcess →
      ¬ (s.kernel.current.uid = 0 ∨ s.kernel.current.euid = 0) := by
    rintro rfl
    exact not_or.mpr ⟨hdropped.1, hdropped.2.1⟩
  dsimp only
  unfold Kernel.kernelSetuid
  split_ifs with hroot hown
  · rw [Kernel.modify_processTable]
    split_ifs with hcurrent
    · exact absurd hroot (hbranch hcurrent)
    · exact hdropped
  · rw [Kernel.modify_processTable]
    split_ifs with hcurrent
    · subst hcurrent
      refine ⟨hdropped.1, ?_, hdropped.2.2⟩
      rcases hown with huid | hsuid
      · exact huid ▸ hdropped.1
      · exact hsuid ▸ hdropped.2.2
    · exact hdropped
  · exact hdropped

theorem AllDropped.fork {archOk : Bool} {k' : Kernel} {pgrps : Slot → PgrpInfo}
    {groups : Slot → Group} (h : s.AllDropped slots)
    (hfork : s.kernel.kernelFork archOk = .ok k') :
    AllDropped { s with kernel := k', pgrps := pgrps, groups := groups }
      (s.lineage slots (.op (.fork archOk))) := by
  intro p hp
  have huser := Kernel.kernelFork_user hfork p
  unfold lineage at hp
  cases hfree : s.kernel.getFreeProc with
  | none =>
      simp only [hfree] at hp huser
      exact Proc.dropped_of_user huser (h p hp)
  | some r =>
      simp only [hfree] at hp huser
      split at hp <;> rename_i hcurrent
      · rcases Finset.mem_insert.mp hp with hchild | hold
        · rw [if_pos hchild] at huser
          exact Proc.dropped_of_user huser (h _ hcurrent)
        · split at huser
          · exact Proc.dropped_of_user huser (h _ hcurrent)
          · exact Proc.dropped_of_user huser (h p hold)
      · obtain ⟨hchild, hold⟩ := Finset.mem_erase.mp hp
        rw [if_neg hchild] at huser
        exact Proc.dropped_of_user huser (h p hold)

theorem AllDropped.exec (h : s.AllDropped slots) (hexec : s.exec call = .ok s') :
    s'.AllDropped (s.lineage slots call) := by
  cases call with
  | setuid uid =>
      obtain rfl := Except.ok.inj hexec
      exact h.setuid uid
  | setgid gid =>
      obtain rfl := Except.ok.inj hexec
      refine h.of_user fun p => ?_
      unfold kernelSetgid
      dsimp only
      split_ifs <;> rfl
  | setsid =>
      obtain rfl := Except.ok.inj hexec
      exact h.of_user s.kernelSetsid_user
  | setpgid pid pgid =>
      obtain rfl := Except.ok.inj hexec
      exact h.of_user (s.kernelSetpgid_user pid pgid)
  | op op =>
      by_cases hfork : ∃ archOk, op = .fork archOk
      · obtain ⟨archOk, rfl⟩ := hfork
        change (s.kernel.kernelFork archOk >>= _) = _ at hexec
        rw [bind_eq_ok] at hexec
        obtain ⟨k', hk', hexec⟩ := hexec
        obtain rfl := Except.ok.inj hexec
        exact h.fork hk'
      · have hother : ∀ archOk, op ≠ .fork archOk := fun archOk hop => hfork ⟨archOk, hop⟩
        have hlineage : s.lineage slots (.op op) = slots := by
          cases op <;> first | rfl | exact absurd rfl (hother _)
        have hrun : (op.exec s.kernel >>= fun k => .ok { s with kernel := k }) = .ok s' := by
          cases op <;> first | exact hexec | exact absurd rfl (hother _)
        rw [bind_eq_ok] at hrun
        obtain ⟨k', hk', hrun⟩ := hrun
        obtain rfl := Except.ok.inj hrun
        rw [hlineage]
        exact h.of_user fun p => Proc.user_of_identity (Kernel.exec_sameIdentity hother hk' p)
  | file event =>
      change (match s.files.step event with
        | some files => Except.ok { s with files := files }
        | none => .ok s) = .ok s' at hexec
      split at hexec <;> obtain rfl := Except.ok.inj hexec <;> exact h

theorem AllDropped.run {calls : List Call} (h : s.AllDropped slots)
    (hrun : s.run slots calls = .ok (s', slots')) : s'.AllDropped slots' := by
  induction calls generalizing s slots with
  | nil =>
      cases hrun
      exact h
  | cons call calls ih =>
      unfold Family.run at hrun
      rw [bind_eq_ok] at hrun
      obtain ⟨s₁, hexec, hrun⟩ := hrun
      exact ih (h.exec hexec) hrun

/-- Of a process whose three users are all other than the superuser, whatever is called
from then on, neither it nor any process that descends from it is the superuser in one of
the three. -/
theorem dropped_of_lineage {calls : List Call} {p : Slot}
    (hdropped : (s.kernel.processTable p).Dropped) (hrun : s.run {p} calls = .ok (s', slots')) :
    ∀ q ∈ slots', (s'.kernel.processTable q).Dropped := by
  have hstart : s.AllDropped {p} := by
    intro q hq
    rw [Finset.mem_singleton.mp hq]
    exact hdropped
  exact hstart.run hrun

/-- Process 1 gives up its privilege, forks, and tries to have it back. -/
def dropAndFork : Except Halt (Family × Family × Finset Slot) := do
  let (s, _) ← init.run ∅ [.op (.fork true), .setuid 1000]
  let (s', slots) ← s.run {⟨1, one_lt_nrProc⟩} [.op (.fork true), .setuid 0, .setgid 0]
  .ok (s, s', slots)

theorem dropped_of_lineage_fork : ∃ s s' slots, dropAndFork = .ok (s, s', slots) ∧
    (⟨2, by decide⟩ : Slot) ∈ slots ∧ ∀ q ∈ slots, (s'.kernel.processTable q).Dropped := by
  have hrun : ∃ r, dropAndFork = .ok r ∧
      (r.1.kernel.processTable ⟨1, by decide⟩).Dropped ∧ (⟨2, by decide⟩ : Slot) ∈ r.2.2 :=
    exists_of_map_decide (by decide +kernel)
  obtain ⟨⟨s, s', slots⟩, hrun, hdropped, hchild⟩ := hrun
  refine ⟨s, s', slots, hrun, hchild, ?_⟩
  unfold dropAndFork at hrun
  simp only [bind_eq_ok] at hrun
  obtain ⟨r, _, r', hafter, hrun⟩ := hrun
  cases hrun
  exact dropped_of_lineage hdropped hafter

end Family

end Yak.Process
