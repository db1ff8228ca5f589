import Yak.Reaping
import Mathlib.Tactic

/-!
# Whether `kernel_waitpid` sleeps

The loops of `kernel_waitpid` count every slot with the caller as its parent, also those of
processes that do not match, and but for a positive argument those which have been reaped.  With
one of them and no child to wait for, the caller sleeps.
-/

namespace Yak.Process

namespace Kernel

def wnohang : BitVec 32 := 1#32
def wuntraced : BitVec 32 := 2#32
def wcontinued : BitVec 32 := 8#32

/-- How a pass of `kernel_waitpid` ends. -/
inductive WaitEnd where
  | enosys
  | echild
  | reaped (pid : ℤ)
  | nothing
  | sleeps
  deriving DecidableEq

/-- What `kernel_waitpid` does after the loop over the table. -/
def waitpidEnd (k : Kernel) (pid : ℤ) (options : BitVec 32) : WaitEnd :=
  if options &&& wcontinued ≠ 0#32 ∨ options &&& wuntraced ≠ 0#32 then .enosys
  else
    let w := k.waitpidScan pid
    if w.children = 0 then .echild
    else if w.flag ≠ 0 then .reaped w.ret
    else if options &&& wnohang ≠ 0#32 then .nothing
    else .sleeps

/-- A child to wait for. -/
def Match (k : Kernel) (pid : ℤ) (p : Slot) : Prop :=
  (k.processTable p).ppid = k.current.pid ∧ (k.processTable p).state ≠ .exited ∧
    k.waitpidWanted pid (k.processTable p) = true

/-- A slot which a loop counts as a child. -/
def Counted (skip : Proc → Bool) (k : Kernel) (p : Slot) : Prop :=
  (k.processTable p).ppid = k.current.pid ∧ skip (k.processTable p) = false

/-- Without a child to wait for, and only then, the answer is `-ECHILD`.  With one and no zombie
among them the call comes back at once if it must not wait, and sleeps otherwise. -/
structure WaitsExactly (k : Kernel) (pid : ℤ) (options : BitVec 32) : Prop where
  echild : k.waitpidEnd pid options = .echild ↔ ∀ p, ¬ k.Match pid p
  nothing : options &&& wnohang ≠ 0#32 → (∃ p, k.Match pid p) →
    (∀ p, k.Match pid p → (k.processTable p).state ≠ .zombie) →
      k.waitpidEnd pid options = .nothing
  sleeps : options &&& wnohang = 0#32 → (∃ p, k.Match pid p) →
    (∀ p, k.Match pid p → (k.processTable p).state ≠ .zombie) →
      k.waitpidEnd pid options = .sleeps

variable {k k' : Kernel} {p q : Slot} {slots : List Slot} {skip wanted : Proc → Bool} {w : WaitScan}
  {pid : ℤ} {options : BitVec 32}

instance (skip : Proc → Bool) (k : Kernel) : DecidablePred (Counted skip k) :=
  fun _ => inferInstanceAs (Decidable (_ ∧ _))

theorem waitpidEnd_accepted (hcontinued : options &&& wcontinued = 0#32)
    (huntraced : options &&& wuntraced = 0#32) : k.waitpidEnd pid options =
      if (k.waitpidScan pid).children = 0 then .echild
      else if (k.waitpidScan pid).flag ≠ 0 then .reaped (k.waitpidScan pid).ret
      else if options &&& wnohang ≠ 0#32 then .nothing
      else .sleeps := by
  unfold waitpidEnd
  rw [if_neg (by simp [hcontinued, huntraced])]

/-- The pass sleeps exactly if it ends so. -/
theorem kernelWaitpid_eq (hcontinued : options &&& wcontinued = 0#32)
    (huntraced : options &&& wuntraced = 0#32) :
    k.kernelWaitpid pid (options &&& wnohang ≠ 0#32) =
      if k.waitpidEnd pid options = .sleeps then
        (k.waitpidScan pid).kernel.sleep waitChannel .sleepInterruptible
      else .ok (k.waitpidScan pid).kernel := by
  rw [waitpidEnd_accepted hcontinued huntraced]
  unfold kernelWaitpid
  dsimp only
  by_cases hnone : (k.waitpidScan pid).children = 0
  · simp [hnone]
  · by_cases hflag : (k.waitpidScan pid).flag ≠ 0
    · simp [hnone, hflag]
    · by_cases hwait : options &&& wnohang ≠ 0#32
      · simp [hnone, hflag, hwait]
      · simp [hnone, hflag, hwait]

/-! ## The number of children -/

/-- A turn of a loop looks at one slot and leaves the others alone. -/
theorem waitpidSlot_step (skip wanted : Proc → Bool) (w : WaitScan) (p : Slot) :
    (waitpidSlot skip wanted w p).children =
        w.children + (if Counted skip w.kernel p then 1 else 0) ∧
      ∀ q ≠ p, Counted skip (waitpidSlot skip wanted w p).kernel q ↔ Counted skip w.kernel q := by
  by_cases hreap : Reapable skip wanted w.kernel p
  · rw [waitpidSlot_reapable hreap]
    have hcounted : Counted skip w.kernel p := hreap.1
    rw [if_pos hcounted]
    refine ⟨rfl, fun q hq => ?_⟩
    unfold Counted
    rw [reap_processTable, if_neg hq, reap_current_pid]
  · rw [(waitpidSlot_other hreap).1]
    refine ⟨?_, fun _ _ => Iff.rfl⟩
    unfold waitpidSlot
    dsimp only
    by_cases hcounted : Counted skip w.kernel p
    · rw [if_neg (by rw [hcounted.2]; simp [hcounted.1]), if_neg fun hw => hreap ⟨hcounted, hw⟩,
        if_pos hcounted]
    · rw [if_neg hcounted, if_pos]
      · rfl
      · by_contra hboth
        rw [not_or, not_not, Bool.not_eq_true] at hboth
        exact hcounted hboth

/-- A loop over the table counts the slots with this parent. -/
theorem waitpidSlots_children (hnodup : slots.Nodup) (w : WaitScan) :
    (slots.foldl (waitpidSlot skip wanted) w).children =
      w.children + slots.countP (Counted skip w.kernel) := by
  induction slots generalizing w with
  | nil => rfl
  | cons p slots ih =>
      obtain ⟨hp, hnodup⟩ := List.nodup_cons.mp hnodup
      obtain ⟨hchildren, hothers⟩ := waitpidSlot_step skip wanted w p
      have hsame : slots.countP (Counted skip (waitpidSlot skip wanted w p).kernel) =
          slots.countP (Counted skip w.kernel) := by
        refine List.countP_congr fun q hq => ?_
        rw [decide_eq_true_eq, decide_eq_true_eq]
        exact hothers q fun heq => hp (heq ▸ hq)
      rw [List.foldl_cons, ih hnodup, hchildren, hsame, List.countP_cons]
      simp only [decide_eq_true_eq]
      omega

theorem waitpidScan_children :
    (k.waitpidScan pid).children = 0 ↔ ∀ p, ¬ Counted (waitpidSkip pid) k p := by
  unfold waitpidScan
  rw [waitpidSlots_children (List.nodup_finRange nrProc), Nat.zero_add, List.countP_eq_zero]
  simp only [decide_eq_true_eq, List.mem_finRange, forall_const]

/-- A loop finds a child if and only if there is a zombie to wait for. -/
theorem waitpidScan_flag :
    (k.waitpidScan pid).flag = 0 ↔ ∀ p, k.Match pid p → (k.processTable p).state ≠ .zombie := by
  have hflag := (waitpidScan_scanned k pid).flag
  dsimp only at hflag
  rw [hflag, Nat.zero_add, List.length_eq_zero_iff, List.filter_eq_nil_iff]
  simp only [decide_eq_true_eq, List.mem_finRange, forall_const]
  refine forall_congr' fun p => ?_
  unfold Reapable Match waitpidSkip
  constructor
  · rintro hnone ⟨hchild, -, hwanted⟩ hzombie
    exact hnone ⟨⟨hchild, by simp [hzombie]⟩, hwanted, hzombie⟩
  · rintro hnone ⟨⟨hchild, -⟩, hwanted, hzombie⟩
    exact hnone ⟨hchild, by simp [hzombie], hwanted⟩ hzombie

theorem Match.counted (h : k.Match pid p) : Counted (waitpidSkip pid) k p := by
  refine ⟨h.1, ?_⟩
  unfold waitpidSkip
  simp [h.2.1]

/-- The decision is right as long as a slot is counted only where there is a child to wait
for. -/
theorem waitsExactly_iff (hcontinued : options &&& wcontinued = 0#32)
    (huntraced : options &&& wuntraced = 0#32) :
    k.WaitsExactly pid options ↔
      (∃ p, k.Match pid p) ∨ ∀ p, ¬ Counted (waitpidSkip pid) k p := by
  have hend : k.waitpidEnd pid options = _ := waitpidEnd_accepted hcontinued huntraced
  have hechild : k.waitpidEnd pid options = .echild ↔
      ∀ p, ¬ Counted (waitpidSkip pid) k p := by
    rw [hend, ← waitpidScan_children]
    split
    next hnone => exact iff_of_true rfl hnone
    next hsome =>
      refine iff_of_false ?_ hsome
      split
      · exact WaitEnd.noConfusion
      · split <;> exact WaitEnd.noConfusion
  constructor
  · intro hexact
    by_cases hmatch : ∃ p, k.Match pid p
    · exact Or.inl hmatch
    · exact Or.inr (hechild.mp (hexact.echild.mpr (not_exists.mp hmatch)))
  · intro hcases
    have hcount : (∃ p, k.Match pid p) → (k.waitpidScan pid).children ≠ 0 := by
      rintro ⟨p, hp⟩ hnone
      exact waitpidScan_children.mp hnone p hp.counted
    refine ⟨?_, ?_, ?_⟩
    · rw [hechild]
      refine ⟨fun hnone p hp => hnone p hp.counted, fun hnone => ?_⟩
      exact hcases.resolve_left (not_exists.mpr hnone)
    · intro hwait hmatch hzombie
      rw [hend, if_neg (hcount hmatch), if_neg (not_not.mpr (waitpidScan_flag.mpr hzombie)),
        if_pos hwait]
    · intro hwait hmatch hzombie
      rw [hend, if_neg (hcount hmatch), if_neg (not_not.mpr (waitpidScan_flag.mpr hzombie)),
        if_neg (not_not.mpr hwait)]

/-! ## A child that has been reaped -/

/-- Process 1 forks a child, waits for it and reaps it. -/
def reapedChild : List Op :=
  [.fork true, .fork true, .waitpid (-1) false, .exit 0, .waitpidWoken, .waitpid (-1) false]

theorem waitsExactly_iff_init : processesInit.WaitsExactly 5 wnohang ↔
    (∃ p, processesInit.Match 5 p) ∨ ∀ p, ¬ Counted (waitpidSkip 5) processesInit p :=
  waitsExactly_iff (by decide) (by decide)

instance (k : Kernel) (pid : ℤ) (p : Slot) : Decidable (k.Match pid p) :=
  inferInstanceAs (Decidable (_ ∧ _ ∧ _))

/-- Process 1 has no child any more and sleeps. -/
theorem not_waitsExactly_reapedChild :
    ∃ k, processesInit.exec reapedChild = .ok k ∧ ¬ k.WaitsExactly (-1) 0#32 := by
  have hrun : (processesInit.exec reapedChild).map (fun k =>
      decide ((∀ p, ¬ k.Match (-1) p) ∧ k.waitpidEnd (-1) 0#32 = .sleeps)) = .ok true := by
    decide +kernel
  obtain ⟨k, hrun, hnone, hsleeps⟩ := exists_of_map_decide hrun
  refine ⟨k, hrun, fun hexact => ?_⟩
  rw [hexact.echild.mpr hnone] at hsleeps
  cases hsleeps

end Kernel

end Yak.Process
