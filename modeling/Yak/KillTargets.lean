import Yak.JobControl
import Mathlib.Tactic

/-!
# The targets of `kernel_kill`

`kernel_kill` takes a positive number for an index into the process table, whatever is in the
slot, and for the group of a number below -1 it looks for a process with that number in the group
of the sender.
-/

namespace Yak.Process

namespace Kernel

/-- The live processes which `kill` is to reach. -/
def Target (k : Kernel) (pid : ℤ) (p : Slot) : Prop :=
  (k.processTable p).state ≠ .exited ∧
    if 0 < pid then (k.processTable p).pid = pid
    else if pid = 0 then (k.processTable p).pgid = k.current.pgid ∧ p ≠ k.currentProcess
    else if pid = -1 then (k.processTable p).pid ≠ 1 ∧ p ≠ k.currentProcess
    else (k.processTable p).pgid = -pid

/-- The processes which the code comes to. -/
def Candidate (k : Kernel) (pid : ℤ) (p : Slot) : Prop :=
  if 0 < pid then (p.val : ℤ) = pid
  else if pid = 0 then (k.processTable p).state ≠ .exited ∧
    (k.processTable p).pgid = k.current.pgid ∧ p ≠ k.currentProcess
  else if pid = -1 then (k.processTable p).state ≠ .exited ∧ (k.processTable p).pid ≠ 1 ∧
    p ≠ k.currentProcess
  else (k.processTable p).state ≠ .exited ∧ (k.processTable p).pgid = k.current.pgid ∧
    p ≠ k.currentProcess ∧ (k.processTable p).pid = -pid

/-- The sender may signal the process. -/
def Permitted (k : Kernel) (p : Slot) : Prop :=
  sigPermission k.current (k.processTable p) = true

/-- Only targets which the sender may signal get the pending bit, and the result says whether
there are targets, and whether all of them refuse. -/
def Delivers (k : Kernel) (pid sig : ℤ) : Prop :=
  ∃ k' ret, k.kernelKill pid sig = .ok (k', ret) ∧
    (∀ p i, (k'.processTable p).sigpending.getLsbD i = true →
      (k.processTable p).sigpending.getLsbD i = false →
        i = sig.toNat - 1 ∧ k.Target pid p ∧ k.Permitted p) ∧
    (ret = -esrch ↔ ∀ p, ¬ k.Target pid p) ∧
    (ret = -eperm ↔ (∃ p, k.Target pid p) ∧ ∀ p, k.Target pid p → ¬ k.Permitted p)

/-- `send_signal` sets the bit in this process if it has permission. -/
def Receives (k : Kernel) (sig : ℕ) (p : Slot) : Prop :=
  sig = sigkill ∨ (sig ≠ 0 ∧ (k.processTable p).state ≠ .stopped)

/-- There are candidates exactly if there are targets, and candidates that may be signalled
exactly if there are such targets, and a candidate which gets a new bit is a target. -/
structure Suited (k : Kernel) (pid sig : ℤ) : Prop where
  inTable : pid < nrProc
  some_iff : (∃ p, k.Candidate pid p) ↔ ∃ p, k.Target pid p
  permitted_iff : (∃ p, k.Candidate pid p ∧ k.Permitted p) ↔ ∃ p, k.Target pid p ∧ k.Permitted p
  only : ∀ p, k.Candidate pid p → k.Permitted p → k.Receives sig.toNat p →
    (k.processTable p).sigpending.getLsbD (sig.toNat - 1) = false → k.Target pid p

variable {k k' : Kernel} {p : Slot} {pid sig ret : ℤ} {n : ℕ}

instance (k : Kernel) (p : Slot) : Decidable (k.Permitted p) :=
  inferInstanceAs (Decidable (_ = true))

instance (k : Kernel) (n : ℕ) (p : Slot) : Decidable (k.Receives n p) :=
  inferInstanceAs (Decidable (_ ∨ _))

/-! ## One signal -/

open Classical in
/-- The process table once these processes have got the signal. -/
noncomputable def pendingAfter (k : Kernel) (n : ℕ) (hit : Slot → Prop) (p : Slot) : Proc :=
  { k.processTable p with
    sigpending :=
      if hit p then (k.processTable p).sigpending ||| 1#32 <<< (n - 1)
      else (k.processTable p).sigpending }

theorem pendingAfter_congr {hit hit' : Slot → Prop} (h : hit p ↔ hit' p) :
    k.pendingAfter n hit p = k.pendingAfter n hit' p := by
  unfold pendingAfter
  by_cases hhit : hit p
  · rw [if_pos hhit, if_pos (h.mp hhit)]
  · rw [if_neg hhit, if_neg (mt h.mpr hhit)]

/-- Some processes have got the signal, and nothing else has changed. -/
structure SignalSent (k k' : Kernel) (n : ℕ) (hit : Slot → Prop) : Prop where
  current : k'.currentProcess = k.currentProcess
  table : ∀ p, k'.processTable p = k.pendingAfter n hit p

theorem signalSent_refl (k : Kernel) (n : ℕ) : SignalSent k k n fun _ => False :=
  ⟨rfl, fun p => by simp [pendingAfter]⟩

theorem SignalSent.permitted (h : SignalSent k k' n hit) (p : Slot) :
    sigPermission k'.current (k'.processTable p) = sigPermission k.current (k.processTable p) := by
  unfold Kernel.current
  rw [h.current, h.table, h.table]
  rfl

theorem SignalSent.congr {hit hit' : Slot → Prop} (h : SignalSent k k' n hit)
    (heq : ∀ p, hit p ↔ hit' p) : SignalSent k k' n hit' := by
  obtain rfl : hit = hit' := funext fun p => propext (heq p)
  exact h

/-- One more process gets the signal, or not. -/
theorem SignalSent.sendSignal {hit : Slot → Prop} (h : SignalSent k k' n hit) (p : Slot) :
    SignalSent k (k'.sendSignal p n).1 n
        (fun q => hit q ∨ (q = p ∧ k.Permitted p ∧ k.Receives n p)) ∧
      ((k'.sendSignal p n).2 = true ↔ k.Permitted p) := by
  have hpermitted := h.permitted p
  have hstate : (k'.processTable p).state = (k.processTable p).state := by
    rw [h.table]
    rfl
  unfold Kernel.sendSignal
  rw [hpermitted, hstate]
  by_cases hperm : k.Permitted p
  · rw [if_neg (by rw [show sigPermission k.current (k.processTable p) = true from hperm]; simp)]
    by_cases hreceives : k.Receives n p
    · have hset : n = sigkill ∨ n ≠ 0 ∧ (k.processTable p).state ≠ .stopped := hreceives
      rw [if_pos hset]
      refine ⟨⟨h.current, fun q => ?_⟩, iff_of_true rfl hperm⟩
      rw [modify_processTable, h.table]
      by_cases hq : q = p
      · subst hq
        by_cases hhit : hit q
        · simp [pendingAfter, hhit, BitVec.or_assoc]
        · simp [pendingAfter, hhit, hperm, hreceives]
      · rw [if_neg hq]
        exact pendingAfter_congr (by simp [hq])
    · have hunset : ¬ (n = sigkill ∨ n ≠ 0 ∧ (k.processTable p).state ≠ .stopped) := hreceives
      rw [if_neg hunset]
      refine ⟨h.congr fun q => ?_, iff_of_true rfl hperm⟩
      simp [hreceives]
  · have hrefused : sigPermission k.current (k.processTable p) = false :=
      Bool.eq_false_iff.mpr hperm
    rw [if_pos hrefused]
    refine ⟨h.congr fun q => ?_, iff_of_false Bool.false_ne_true hperm⟩
    simp [hperm]

/-! ## The loops -/

/-- Where the loop has been, those candidates have the signal which may be signalled, and they are
counted. -/
structure Killed (k : Kernel) (n : ℕ) (cand : Slot → Prop) (done : List Slot) (c : KillCount) :
    Prop where
  signalled : SignalSent k c.kernel n
    fun p => p ∈ done ∧ cand p ∧ k.Permitted p ∧ k.Receives n p
  eligible : c.eligible = 0 ↔ ∀ p ∈ done, ¬ cand p
  noperm : c.noperm ≤ c.eligible ∧
    (c.noperm = c.eligible ↔ ∀ p ∈ done, cand p → ¬ k.Permitted p)

theorem Killed.slot {candidate : Slot → Proc → Bool} {done : List Slot} {c : KillCount}
    (hcand : ∀ p x (s : BitVec 32), candidate p { x with sigpending := s } = candidate p x)
    (h : Killed k n (fun p => candidate p (k.processTable p) = true) done c) (p : Slot) :
    Killed k n (fun p => candidate p (k.processTable p) = true) (done ++ [p])
      (killSlot candidate n c p) := by
  have hsame : candidate p (c.kernel.processTable p) = candidate p (k.processTable p) := by
    rw [h.signalled.table]
    exact hcand p _ _
  unfold killSlot
  rw [hsame]
  obtain ⟨hle, heq⟩ := h.noperm
  by_cases hc : candidate p (k.processTable p) = true
  · rw [if_pos hc]
    dsimp only
    obtain ⟨hsent, hret⟩ := h.signalled.sendSignal p
    refine ⟨hsent.congr fun q => ?_, ?_, ?_⟩
    · constructor
      · rintro (⟨hq, hrest⟩ | ⟨rfl, hrest⟩)
        · exact ⟨List.mem_append_left _ hq, hrest⟩
        · exact ⟨by simp, hc, hrest⟩
      · rintro ⟨hq, hrest⟩
        rcases List.mem_append.mp hq with hq | hq
        · exact Or.inl ⟨hq, hrest⟩
        · exact Or.inr ⟨List.mem_singleton.mp hq, List.mem_singleton.mp hq ▸ hrest.2⟩
    · exact iff_of_false (Nat.succ_ne_zero _) fun hnone => hnone p (by simp) hc
    · by_cases hperm : k.Permitted p
      · rw [if_pos (hret.mpr hperm)]
        refine ⟨by dsimp only; omega, iff_of_false (by dsimp only; omega) fun hnone => ?_⟩
        exact hnone p (by simp) hc hperm
      · rw [if_neg fun htrue => hperm (hret.mp htrue)]
        refine ⟨by dsimp only; omega, ?_⟩
        rw [Nat.add_right_cancel_iff, heq]
        constructor
        · intro hnone q hq
          rcases List.mem_append.mp hq with hq | hq
          · exact hnone q hq
          · rw [List.mem_singleton.mp hq]
            exact fun _ => hperm
        · exact fun hnone q hq => hnone q (List.mem_append_left _ hq)
  · rw [if_neg hc]
    refine ⟨h.signalled.congr fun q => ?_, h.eligible.trans ?_, hle, heq.trans ?_⟩
    · constructor
      · exact fun hq => ⟨List.mem_append_left _ hq.1, hq.2⟩
      · rintro ⟨hq, hrest⟩
        rcases List.mem_append.mp hq with hq | hq
        · exact ⟨hq, hrest⟩
        · exact absurd (List.mem_singleton.mp hq ▸ hrest.1) hc
    · constructor
      · intro hnone q hq
        rcases List.mem_append.mp hq with hq | hq
        · exact hnone q hq
        · exact List.mem_singleton.mp hq ▸ hc
      · exact fun hnone q hq => hnone q (List.mem_append_left _ hq)
    · constructor
      · intro hnone q hq hcq
        rcases List.mem_append.mp hq with hq | hq
        · exact hnone q hq hcq
        · exact absurd (List.mem_singleton.mp hq ▸ hcq) hc
      · exact fun hnone q hq => hnone q (List.mem_append_left _ hq)

theorem Killed.slots {candidate : Slot → Proc → Bool} {done : List Slot} {c : KillCount}
    (hcand : ∀ p x (s : BitVec 32), candidate p { x with sigpending := s } = candidate p x)
    (h : Killed k n (fun p => candidate p (k.processTable p) = true) done c) (slots : List Slot) :
    Killed k n (fun p => candidate p (k.processTable p) = true) (done ++ slots)
      (slots.foldl (killSlot candidate n) c) := by
  induction slots generalizing done c with
  | nil => simpa using h
  | cons p slots ih =>
      have hrest := ih (h.slot hcand p)
      rwa [List.append_assoc] at hrest

theorem killAll_killed {candidate : Slot → Proc → Bool}
    (hcand : ∀ p x (s : BitVec 32), candidate p { x with sigpending := s } = candidate p x)
    (k : Kernel) (n : ℕ) :
    SignalSent k (k.killAll candidate n).1 n
        (fun p => candidate p (k.processTable p) = true ∧ k.Permitted p ∧ k.Receives n p) ∧
      ((k.killAll candidate n).2 = -esrch ↔ ∀ p, ¬ candidate p (k.processTable p) = true) ∧
      ((k.killAll candidate n).2 = -eperm ↔ (∃ p, candidate p (k.processTable p) = true) ∧
        ∀ p, candidate p (k.processTable p) = true → ¬ k.Permitted p) := by
  have hstart : Killed k n (fun p => candidate p (k.processTable p) = true) [] ⟨k, 0, 0⟩ := by
    refine ⟨(signalSent_refl k n).congr fun q => ?_, ?_, le_rfl, ?_⟩
    · simp
    · simp
    · simp
  have hend := hstart.slots hcand (List.finRange nrProc)
  rw [List.nil_append] at hend
  unfold killAll
  generalize (List.finRange nrProc).foldl (killSlot candidate n) ⟨k, 0, 0⟩ = c at hend ⊢
  have heligible : c.eligible = 0 ↔ ∀ p, ¬ candidate p (k.processTable p) = true := by
    rw [hend.eligible]
    exact ⟨fun h p => h p (List.mem_finRange p), fun h p _ => h p⟩
  have hnoperm : c.noperm = c.eligible ↔
      ∀ p, candidate p (k.processTable p) = true → ¬ k.Permitted p := by
    rw [hend.noperm.2]
    exact ⟨fun h p => h p (List.mem_finRange p), fun h p _ => h p⟩
  refine ⟨hend.signalled.congr fun p => ?_, ?_, ?_⟩
  · exact ⟨fun h => h.2, fun h => ⟨List.mem_finRange p, h⟩⟩
  · rw [← heligible]
    dsimp only
    by_cases hzero : c.eligible = 0
    · simp [hzero]
    · by_cases hall : c.noperm = c.eligible
      · simp [hall, esrch, eperm, hzero]
      · simp [hall, esrch, hzero]
  · rw [← hnoperm, ← not_forall_not, ← heligible]
    dsimp only
    by_cases hzero : c.eligible = 0
    · simp [hzero, esrch, eperm]
    · by_cases hall : c.noperm = c.eligible
      · simp [hall, hzero]
      · simp [hall, eperm, hzero]

/-! ## `kernel_kill` -/

theorem kernelKill_candidates (hsig : 1 ≤ sig) (hlt : sig < nsig) (hpid : pid < nrProc) :
    ∃ k' ret, k.kernelKill pid sig = .ok (k', ret) ∧
      SignalSent k k' sig.toNat
        (fun p => k.Candidate pid p ∧ k.Permitted p ∧ k.Receives sig.toNat p) ∧
      (ret = -esrch ↔ ∀ p, ¬ k.Candidate pid p) ∧
      (ret = -eperm ↔ (∃ p, k.Candidate pid p) ∧ ∀ p, k.Candidate pid p → ¬ k.Permitted p) := by
  have hloop : ∀ candidate : Slot → Proc → Bool,
      (∀ p x (s : BitVec 32), candidate p { x with sigpending := s } = candidate p x) →
      (∀ p, candidate p (k.processTable p) = true ↔ k.Candidate pid p) →
      ∃ k' ret, (.ok (k.killAll candidate sig.toNat) : Except Halt (Kernel × ℤ)) = .ok (k', ret) ∧
        SignalSent k k' sig.toNat
          (fun p => k.Candidate pid p ∧ k.Permitted p ∧ k.Receives sig.toNat p) ∧
        (ret = -esrch ↔ ∀ p, ¬ k.Candidate pid p) ∧
        (ret = -eperm ↔ (∃ p, k.Candidate pid p) ∧ ∀ p, k.Candidate pid p → ¬ k.Permitted p) := by
    intro candidate hcand heq
    have hkilled := killAll_killed hcand k sig.toNat
    simp only [heq] at hkilled
    exact ⟨(k.killAll candidate sig.toNat).1, (k.killAll candidate sig.toNat).2, rfl, hkilled⟩
  unfold kernelKill
  rw [if_neg (by omega)]
  by_cases hpos : 0 < pid
  · have hslot : pid.toNat < nrProc := by omega
    rw [if_pos hpos, dif_pos hslot]
    have hcandidate : ∀ p, k.Candidate pid p ↔ p = ⟨pid.toNat, hslot⟩ := by
      intro p
      unfold Candidate
      rw [if_pos hpos, Fin.ext_iff]
      dsimp only
      omega
    obtain ⟨hsent, hret⟩ := (signalSent_refl k sig.toNat).sendSignal ⟨pid.toNat, hslot⟩
    refine ⟨_, _, rfl, hsent.congr fun p => ?_, ?_, ?_⟩
    · rw [hcandidate]
      simp only [false_or]
      constructor
      · rintro ⟨rfl, hrest⟩
        exact ⟨rfl, hrest⟩
      · rintro ⟨rfl, hrest⟩
        exact ⟨rfl, hrest⟩
    · refine iff_of_false ?_ fun hnone => hnone _ ((hcandidate _).mpr rfl)
      split <;> decide
    · simp only [hcandidate, forall_eq, exists_eq, true_and, ← hret]
      split
      next htrue => simp [htrue, eperm]
      next hfalse => simp [hfalse]
  · rw [if_neg hpos]
    by_cases hzero : pid = 0
    · rw [if_pos hzero]
      refine hloop _ (fun _ _ _ => rfl) fun p => ?_
      rw [Candidate, if_neg hpos, if_pos hzero, decide_eq_true_eq]
    · rw [if_neg hzero]
      by_cases hone : pid = -1
      · rw [if_pos hone]
        refine hloop _ (fun _ _ _ => rfl) fun p => ?_
        rw [Candidate, if_neg hpos, if_neg hzero, if_pos hone, decide_eq_true_eq]
      · rw [if_neg hone]
        refine hloop _ (fun _ _ _ => rfl) fun p => ?_
        rw [Candidate, if_neg hpos, if_neg hzero, if_neg hone, decide_eq_true_eq]

/-- The bit is new where it was not pending before. -/
theorem SignalSent.newBit {hit : Slot → Prop} (h : SignalSent k k' n hit) (hn : n - 1 < 32)
    (p : Slot) (i : ℕ) :
    ((k'.processTable p).sigpending.getLsbD i = true ∧
        (k.processTable p).sigpending.getLsbD i = false) ↔
      hit p ∧ i = n - 1 ∧ (k.processTable p).sigpending.getLsbD (n - 1) = false := by
  rw [h.table]
  unfold pendingAfter
  by_cases hhit : hit p
  · simp only [hhit, if_true, true_and, BitVec.getLsbD_or, getLsbD_bit hn]
    by_cases hi : i = n - 1
    · subst hi
      simp
    · simp [hi]
  · simp only [hhit, if_false, false_and, iff_false, not_and, Bool.not_eq_false]
    exact id

/-- `kill` reaches its targets exactly where its candidates are as good as these. -/
theorem delivers_iff (hsig : 1 ≤ sig) (hlt : sig < nsig) :
    k.Delivers pid sig ↔ k.Suited pid sig := by
  have hn : sig.toNat - 1 < 32 := by
    have : (nsig : ℤ) = 32 := rfl
    omega
  by_cases hpid : pid < nrProc
  · obtain ⟨k', ret, hrun, hsent, hesrch, heperm⟩ := kernelKill_candidates (k := k) hsig hlt hpid
    constructor
    · rintro ⟨k₁, ret₁, hrun₁, honly, hesrch₁, heperm₁⟩
      obtain ⟨rfl, rfl⟩ := Prod.mk.inj (Except.ok.inj (hrun.symm.trans hrun₁))
      have hsome : (∃ p, k.Candidate pid p) ↔ ∃ p, k.Target pid p := by
        rw [← not_iff_not, not_exists, not_exists, ← hesrch, hesrch₁]
      refine ⟨hpid, hsome, ?_, ?_⟩
      · have hall := heperm.symm.trans heperm₁
        rw [hsome] at hall
        constructor
        · rintro ⟨p, hp, hperm⟩
          have htarget := hsome.mp ⟨p, hp⟩
          by_contra hnone
          exact (hall.mpr ⟨htarget, fun q hq hq' => hnone ⟨q, hq, hq'⟩⟩).2 p hp hperm
        · rintro ⟨p, hp, hperm⟩
          by_contra hnone
          exact (hall.mp ⟨⟨p, hp⟩, fun q hq hq' => hnone ⟨q, hq, hq'⟩⟩).2 p hp hperm
      · intro p hp hperm hreceives hclear
        obtain ⟨hset, hwas⟩ := (hsent.newBit hn p _).mpr ⟨⟨hp, hperm, hreceives⟩, rfl, hclear⟩
        exact (honly p _ hset hwas).2.1
    · intro hsuited
      refine ⟨k', ret, hrun, ?_, ?_, ?_⟩
      · intro p i hset hwas
        obtain ⟨⟨hp, hperm, hreceives⟩, rfl, hclear⟩ := (hsent.newBit hn p i).mp ⟨hset, hwas⟩
        exact ⟨rfl, hsuited.only p hp hperm hreceives hclear, hperm⟩
      · rw [hesrch, ← not_exists, ← not_exists, hsuited.some_iff]
      · rw [heperm, hsuited.some_iff]
        refine and_congr_right fun _ => ?_
        constructor
        · intro hnone p hp hperm
          obtain ⟨q, hq, hq'⟩ := hsuited.permitted_iff.mpr ⟨p, hp, hperm⟩
          exact hnone q hq hq'
        · intro hnone p hp hperm
          obtain ⟨q, hq, hq'⟩ := hsuited.permitted_iff.mp ⟨p, hp, hperm⟩
          exact hnone q hq hq'
  · refine iff_of_false ?_ fun hsuited => hpid hsuited.inTable
    rintro ⟨k', ret, hrun, -⟩
    unfold kernelKill at hrun
    have hnr : (nrProc : ℤ) = 64 := rfl
    rw [if_neg (by omega), if_pos (by omega), dif_neg (by omega)] at hrun
    cases hrun

/-! ## The condition -/

/-- For the group of the sender and for all processes, the candidates are the targets. -/
theorem suited_of_loop (h : pid = 0 ∨ pid = -1) : k.Suited pid sig := by
  have hsame : ∀ p, k.Candidate pid p ↔ k.Target pid p := by
    intro p
    unfold Candidate Target
    rcases h with rfl | rfl
    · simp
    · simp
  refine ⟨?_, ?_, ?_, fun p hp _ _ _ => (hsame p).mp hp⟩
  · have hnr : (nrProc : ℤ) = 64 := rfl
    omega
  · simp only [hsame]
  · simp only [hsame]

/-- Where each live process has its slot as its number, a positive number is that of a live
process. -/
theorem suited_iff_of_pos (hpid : 0 < pid)
    (hslots : ∀ p, (k.processTable p).state ≠ .exited → (k.processTable p).pid = (p.val : ℤ)) :
    k.Suited pid sig ↔ ∃ p, k.Target pid p := by
  have hcandidate : ∀ p, k.Candidate pid p ↔ (p.val : ℤ) = pid := fun p => by
    rw [Candidate, if_pos hpid]
  have htarget : ∀ p, k.Target pid p → k.Candidate pid p := by
    intro p hp
    rw [Target, if_pos hpid, hslots p hp.1] at hp
    exact (hcandidate p).mpr hp.2
  constructor
  · intro hsuited
    have hnr := hsuited.inTable
    exact hsuited.some_iff.mp ⟨⟨pid.toNat, by omega⟩, (hcandidate _).mpr (by dsimp only; omega)⟩
  · rintro ⟨p, hp⟩
    have hslot := (hcandidate p).mp (htarget p hp)
    have hsame : ∀ q, k.Candidate pid q ↔ k.Target pid q := by
      intro q
      refine ⟨fun hq => ?_, htarget q⟩
      obtain rfl : q = p := Fin.ext (by have := (hcandidate q).mp hq; omega)
      exact hp
    refine ⟨?_, ?_, ?_, fun q hq _ _ _ => (hsame q).mp hq⟩
    · have := p.isLt
      omega
    · simp only [hsame]
    · simp only [hsame]

/-! ## Two process groups -/

/-- A process in the group 1 and two in the group 2. -/
def twoGroups : Kernel where
  processTable p :=
    match p.val with
    | 1 => { Proc.zero with pid := 1, pgid := 1, state := .running }
    | 2 => { Proc.zero with pid := 2, pgid := 2, state := .sleepInterruptible }
    | 3 => { Proc.zero with pid := 3, pgid := 2, state := .sleepInterruptible }
    | _ => Proc.zero
  currentProcess := ⟨1, one_lt_nrProc⟩
  processQueues _ := none
  lastPid := 3
  timerTicks := 0

theorem delivers_iff_twoGroups : twoGroups.Delivers 2 15 ↔ twoGroups.Suited 2 15 :=
  delivers_iff (by decide) (by decide)

/-- The group 2 is not found, and behind the table there is no process. -/
theorem not_delivers_twoGroups : ¬ twoGroups.Delivers (-2) 15 ∧ ¬ twoGroups.Delivers 64 15 := by
  constructor
  · rintro ⟨k', ret, hrun, -, hesrch, -⟩
    have hret : (twoGroups.kernelKill (-2) 15).map Prod.snd = .ok (-esrch) := by decide +kernel
    rw [hrun] at hret
    refine hesrch.mp (Except.ok.inj hret) ⟨2, by decide⟩ ?_
    exact ⟨by decide, rfl⟩
  · rintro ⟨k', ret, hrun, -⟩
    have hnone : (twoGroups.kernelKill 64 15).isOk = false := by decide +kernel
    rw [hrun] at hnone
    cases hnone

end Kernel

end Yak.Process
