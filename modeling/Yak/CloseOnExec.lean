import Yak.DescriptorBounds

/-!
# The close-on-exec word

The flag of a descriptor is a bit of `close_on_exec`, beside the table.  A run of one process is
followed together with what each flag is meant to be since the descriptor was made.
-/

namespace Yak.Files

def OpenAt (d : Fds) (fd : ℤ) : Prop := ∃ i : Fin nrOpen, ((i : ℕ) : ℤ) = fd ∧ d.table i ≠ none

/-- `i` is the first null slot from `start` on. -/
def FirstFree (d : Fds) (start : ℕ) (i : Fin nrOpen) : Prop :=
  start ≤ i ∧ d.table i = none ∧ ∀ k : Fin nrOpen, start ≤ k → k < i → d.table k ≠ none

namespace Call

/-- The descriptor whose flag a call with result `r` settles, and how. -/
def marks (e : Env) (r : ℤ) : Call → Option (ℤ × Bool)
  | .kernelOpen .. => if 0 ≤ r ∧ e.fsOpen.1 ≠ none then some (r, false) else none
  | .kernelDup _ => if 0 ≤ r then some (r, false) else none
  | .kernelDup2 fd1 fd2 => if 0 ≤ r ∧ fd1 ≠ fd2 then some (r, false) else none
  | .kernelFcntl fd cmd arg =>
      if 0 ≤ r then
        if cmd = fDupfd then some (r, false)
        else if cmd = fDupfdCloexec then some (r, true)
        else if cmd = fSetfd then some (fd, BitVec.ofInt 32 arg &&& fdCloexec ≠ 0)
        else none
      else none
  | _ => none

theorem marks_kernelFcntl (e : Env) (r fd cmd arg : ℤ) :
    (Call.kernelFcntl fd cmd arg).marks e r =
      if 0 ≤ r then
        if cmd = fDupfd then some (r, false)
        else if cmd = fDupfdCloexec then some (r, true)
        else if cmd = fSetfd then some (fd, BitVec.ofInt 32 arg &&& fdCloexec ≠ 0)
        else none
      else none := rfl

theorem marks_kernelDup2_error {e : Env} {r fd1 fd2 : ℤ} (h : r < 0) :
    (Call.kernelDup2 fd1 fd2).marks e r = none := if_neg fun h' => not_le.mpr h h'.1

theorem marks_kernelFcntl_error {e : Env} {r fd cmd arg : ℤ} (h : r < 0) :
    (Call.kernelFcntl fd cmd arg).marks e r = none := if_neg (not_le.mpr h)

/-- The call makes descriptor `i`, unless it comes to a halt. -/
def Creates (e : Env) (d : Fds) : Call → Fin nrOpen → Prop
  | .kernelOpen path _ _, i =>
      e.Passes path ∧ e.mountTable ≠ none ∧ d.getFreeFile ≠ none ∧ e.fsOpen.1 ≠ none ∧
        FirstFree d 0 i
  | .kernelDup fd, i => OpenAt d fd ∧ FirstFree d 0 i
  | .kernelDup2 fd1 fd2, i => OpenAt d fd1 ∧ fd1 ≠ fd2 ∧ ((i : ℕ) : ℤ) = fd2
  | .kernelFcntl fd cmd arg, i =>
      (cmd = fDupfd ∨ cmd = fDupfdCloexec) ∧ OpenAt d fd ∧ FirstFree d (Fds.startIndex e arg) i
  | _, _ => False

def Cloexec : Call → Prop
  | .kernelFcntl _ cmd _ => cmd = fDupfdCloexec
  | _ => False

/-- A descriptor is made where the bit is clear, and not by `F_DUPFD_CLOEXEC`. -/
def KeepsFlags (e : Env) (d : Fds) (c : Call) : Prop :=
  ∀ i, c.Creates e d i → ¬c.Cloexec ∧ d.closeOnExec.getLsbD i = false

end Call

/-! ## Runs -/

/-- A process, and what the flags of its descriptors are meant to be. -/
structure Session where
  fds : Fds
  intended : Fin nrOpen → Bool

inductive Op where
  | call (e : Env) (c : Call)
  | kernelExecve (e : Env) (path argv envp : BitVec 32) (x : Image)

namespace Session

def mark (v : Fin nrOpen → Bool) : Option (ℤ × Bool) → Fin nrOpen → Bool
  | none => v
  | some (fd, b) => fun i => if ((i : ℕ) : ℤ) = fd then b else v i

def step (s : Session) : Op → Except Halt (ℤ × Session)
  | .call e c => do
      let (r, d) ← c.exec e s.fds
      .ok (r, ⟨d, mark s.intended (c.marks e r)⟩)
  | .kernelExecve e path argv envp x => do
      let (r, d) ← s.fds.kernelExecve e path argv envp x
      .ok (r, ⟨d, s.intended⟩)

theorem mark_some (v : Fin nrOpen → Bool) (i j : Fin nrOpen) (b : Bool) :
    mark v (some (((i : ℕ) : ℤ), b)) j = if (i : ℕ) = j then b else v j :=
  if_congr ⟨fun h => (Int.ofNat_inj.mp h).symm, fun h => congrArg Int.ofNat h.symm⟩ rfl rfl

/-- Every bit is as it is meant to be. -/
def Tracks (s : Session) : Prop := ∀ i : Fin nrOpen, s.fds.closeOnExec.getLsbD i = s.intended i

/-- A successful `execve` closes the descriptors whose bit is set, and no others. -/
def ExecCloses (s s' : Session) (r : ℤ) : Op → Prop
  | .call .. => True
  | .kernelExecve _ _ _ _ x => x.namei.1 ≠ none → 0 ≤ r →
      ∀ i, s'.fds.table i = if s.fds.closeOnExec.getLsbD i then none else s.fds.table i

/-- So it is all along the run, as far as it goes. -/
def TracksRun (s : Session) : List Op → Prop
  | [] => s.Tracks
  | op :: ops => s.Tracks ∧
      ∀ r s', s.step op = .ok (r, s') → s.ExecCloses s' r op ∧ s'.TracksRun ops

def SafeStep (s : Session) : Op → Prop
  | .call e c => c.KeepsFlags e s.fds
  | .kernelExecve .. => True

/-- Each step which comes back has met its condition. -/
def SafeRun (s : Session) : List Op → Prop
  | [] => True
  | op :: ops => ∀ r s', s.step op = .ok (r, s') → s.SafeStep op ∧ s'.SafeRun ops

end Session

/-! ## The bits -/

theorem getLsbD_setBit (w : BitVec 32) (i j : ℕ) :
    (w ||| 1#32 <<< i).getLsbD j = (w.getLsbD j || decide (i < 32) && decide (i = j)) := by
  rw [BitVec.getLsbD_or, ← BitVec.twoPow_eq, BitVec.getLsbD_twoPow]

theorem getLsbD_clearBit (w : BitVec 32) {i j : ℕ} (hj : j < 32) :
    (w &&& ~~~(1#32 <<< i)).getLsbD j = (w.getLsbD j && decide (i ≠ j)) := by
  rw [BitVec.getLsbD_and, BitVec.getLsbD_not, ← BitVec.twoPow_eq, BitVec.getLsbD_twoPow]
  by_cases hij : i = j
  · simp [hij, hj]
  · simp [hij, hj]

theorem flagged_eq (d : Fds) {i : ℕ} (hi : i < 32) : d.flagged i = d.closeOnExec.getLsbD i := by
  unfold Fds.flagged
  rw [← BitVec.twoPow_eq, BitVec.and_twoPow]
  cases d.closeOnExec.getLsbD i with
  | false => simp
  | true =>
      rw [if_pos rfl, decide_eq_true_iff]
      intro hzero
      have hbit := congrArg (fun w => w.getLsbD i) hzero
      simp [hi] at hbit

theorem Fin.lt_word (i : Fin nrOpen) : (i : ℕ) < 32 := i.isLt.trans (by decide)

/-! ## What the calls do to the word -/

theorem FirstFree.unique {d : Fds} {start : ℕ} {i j : Fin nrOpen} (hi : FirstFree d start i)
    (hj : FirstFree d start j) : i = j := by
  rcases lt_trichotomy i j with hlt | heq | hgt
  · exact (hj.2.2 i hi.1 hlt hi.2.1).elim
  · exact heq
  · exact (hi.2.2 j hj.1 hgt hj.2.1).elim

theorem Call.Creates.unique {e : Env} {d : Fds} {c : Call} {i j : Fin nrOpen}
    (hi : c.Creates e d i) (hj : c.Creates e d j) : i = j := by
  cases c with
  | kernelOpen path flags mode => exact hi.2.2.2.2.unique hj.2.2.2.2
  | kernelDup fd => exact hi.2.unique hj.2
  | kernelDup2 fd1 fd2 => exact Fin.ext (Int.ofNat_inj.mp (hi.2.2.trans hj.2.2.symm))
  | kernelFcntl fd cmd arg => exact hi.2.2.unique hj.2.2
  | _ => exact hi.elim

/-- What a call which comes back has done to the flags. -/
inductive FlagEffect (e : Env) (d : Fds) (c : Call) (r : ℤ) (d' : Fds) : Prop where
  | plain (hcreates : ∀ i, ¬c.Creates e d i) (hmarks : c.marks e r = none)
      (hword : d'.closeOnExec = d.closeOnExec)
  | created (i : Fin nrOpen) (hcreates : c.Creates e d i) (hcloexec : ¬c.Cloexec)
      (hmarks : c.marks e r = some (((i : ℕ) : ℤ), false)) (hword : d'.closeOnExec = d.closeOnExec)
  | cloexec (i : Fin nrOpen) (hcreates : c.Creates e d i) (hcloexec : c.Cloexec)
      (hmarks : c.marks e r = some (((i : ℕ) : ℤ), true))
      (hword : d'.closeOnExec = d.closeOnExec &&& ~~~(1#32 <<< (i : ℕ)))
  | set (i : Fin nrOpen) (b : Bool) (hcreates : ∀ i, ¬c.Creates e d i)
      (hmarks : c.marks e r = some (((i : ℕ) : ℤ), b))
      (hword : d'.closeOnExec = if b then d.closeOnExec ||| 1#32 <<< (i : ℕ)
        else d.closeOnExec &&& ~~~(1#32 <<< (i : ℕ)))

namespace FlagEffect

variable {e : Env} {s : Session} {c : Call} {r : ℤ} {d' : Fds}

/-- The flags stay as they are meant to be exactly if the call meets the condition. -/
theorem tracks_iff (h : FlagEffect e s.fds c r d') (htracks : s.Tracks) :
    Session.Tracks ⟨d', Session.mark s.intended (c.marks e r)⟩ ↔ c.KeepsFlags e s.fds := by
  cases h with
  | plain hcreates hmarks hword =>
      refine iff_of_true ?_ fun i hi => (hcreates i hi).elim
      intro j
      dsimp only
      rw [hmarks, hword]
      exact htracks j
  | created i hcreates hcloexec hmarks hword =>
      constructor
      · intro h j hj
        have hi := h i
        dsimp only at hi
        rw [hmarks, hword, Session.mark_some, if_pos rfl] at hi
        exact ⟨hcloexec, hj.unique hcreates ▸ hi⟩
      · intro hsafe j
        dsimp only
        rw [hmarks, hword, Session.mark_some]
        split
        next hij => exact hij ▸ (hsafe i hcreates).2
        next => exact htracks j
  | cloexec i hcreates hcloexec hmarks hword =>
      refine iff_of_false ?_ fun hsafe => (hsafe i hcreates).1 hcloexec
      intro h
      have hi := h i
      dsimp only at hi
      rw [hmarks, hword, Session.mark_some, if_pos rfl, getLsbD_clearBit _ (Fin.lt_word i)] at hi
      simp at hi
  | set i b hcreates hmarks hword =>
      refine iff_of_true ?_ fun j hj => (hcreates j hj).elim
      intro j
      dsimp only
      rw [hmarks, hword, Session.mark_some]
      cases b with
      | true =>
          rw [if_pos rfl, getLsbD_setBit, decide_eq_true (Fin.lt_word i), Bool.true_and]
          by_cases hij : (i : ℕ) = j
          · rw [if_pos hij, decide_eq_true hij, Bool.or_true]
          · rw [if_neg hij, decide_eq_false hij, Bool.or_false]
            exact htracks j
      | false =>
          rw [if_neg Bool.false_ne_true, getLsbD_clearBit _ (Fin.lt_word j)]
          by_cases hij : (i : ℕ) = j
          · rw [if_pos hij, decide_eq_false (not_not.mpr hij), Bool.and_false]
          · rw [if_neg hij, decide_eq_true hij, Bool.and_true]
            exact htracks j

end FlagEffect

section Calls

variable {e : Env} {d d' : Fds} {fd new r : ℤ} {i : Fin nrOpen}

/-- A call which only uses a descriptor may move the position of a file. -/
def OnlyUses (d : Fds) (x : Except Halt (ℤ × Fds)) : Prop :=
  ∀ r d', x = .ok (r, d') →
    d' = d ∨ ∃ fp pos, d' = d.modifyFile fp fun f => { f with fPos := pos }

theorem onlyUses_ok : OnlyUses d (.ok (r, d)) := by
  intro r' d' heq
  cases heq
  exact Or.inl rfl

theorem onlyUses_error (h : Halt) : OnlyUses d (.error h) := nofun

theorem onlyUses_slot {f : Option FilePtr → Except Halt (ℤ × Fds)} (h : ∀ v, OnlyUses d (f v)) :
    OnlyUses d (d.slot fd >>= f) := by
  cases d.slot fd with
  | error h => exact onlyUses_error h
  | ok v => exact h v

theorem onlyUses_driver (fp : FilePtr) : OnlyUses d (d.driver e fp) := by
  unfold Fds.driver
  split
  next => exact onlyUses_error _
  next =>
    intro r d' heq
    cases heq
    exact Or.inr ⟨fp, _, rfl⟩

theorem onlyUses_transfer {refused buf count : BitVec 32} :
    OnlyUses d (Fds.transfer refused e d fd buf count) := by
  unfold Fds.transfer
  split
  next => exact onlyUses_ok
  next =>
    split
    next => exact onlyUses_ok
    next =>
      apply onlyUses_slot
      intro v
      cases v with
      | none => exact onlyUses_ok
      | some fp =>
          dsimp only
          split
          next => exact onlyUses_ok
          next =>
            split
            next => exact onlyUses_ok
            next => exact onlyUses_driver fp

theorem onlyUses_kernelLseek : OnlyUses d (d.kernelLseek e fd) := by
  unfold Fds.kernelLseek
  split
  next => exact onlyUses_ok
  next =>
    apply onlyUses_slot
    intro v
    cases v with
    | none => exact onlyUses_ok
    | some fp => exact onlyUses_driver fp

theorem onlyUses_kernelFchmod : OnlyUses d (d.kernelFchmod e fd) := by
  unfold Fds.kernelFchmod
  apply onlyUses_slot
  intro v
  cases v with
  | none => exact onlyUses_ok
  | some fp =>
      dsimp only
      split
      next => exact onlyUses_error _
      next => split <;> exact onlyUses_ok

theorem onlyUses_kernelFstat {statp : BitVec 32} : OnlyUses d (d.kernelFstat e fd statp) := by
  unfold Fds.kernelFstat
  split
  next => exact onlyUses_ok
  next =>
    split
    next => exact onlyUses_ok
    next =>
      apply onlyUses_slot
      intro v
      cases v with
      | none => exact onlyUses_ok
      | some fp =>
          dsimp only
          split
          next => exact onlyUses_error _
          next => exact onlyUses_ok

theorem OnlyUses.word {x : Except Halt (ℤ × Fds)} (h : OnlyUses d x) (hx : x = .ok (r, d')) :
    d'.closeOnExec = d.closeOnExec := by
  rcases h r d' hx with rfl | ⟨fp, pos, rfl⟩
  · rfl
  · rfl

theorem kernelClose_ok (h : d.kernelClose fd = .ok (r, d')) :
    d'.closeOnExec = d.closeOnExec ∧
      ∀ i : Fin nrOpen, d'.table i = if ((i : ℕ) : ℤ) = fd then none else d.table i := by
  by_cases hin : InTable fd
  · obtain ⟨j, rfl⟩ := Fds.exists_fin hin
    rcases d.kernelClose_cases j with ⟨htable, heq⟩ | ⟨fp, htable, ⟨-, heq⟩ | ⟨_, -, heq⟩⟩
    · cases heq.symm.trans h
      refine ⟨rfl, fun i => ?_⟩
      split
      next hij => rw [Fin.ext (Int.ofNat_inj.mp hij), htable]
      next => rfl
    · cases heq.symm.trans h
      refine ⟨rfl, fun i => ?_⟩
      unfold Fds.dropped
      dsimp only
      rw [Function.update_apply]
      exact if_congr ⟨fun h => h ▸ rfl, fun h => Fin.ext (Int.ofNat_inj.mp h)⟩ rfl rfl
    · cases heq.symm.trans h
  · cases (Fds.kernelClose_outside hin).symm.trans h
    refine ⟨rfl, fun i => (if_neg ?_).symm⟩
    rintro rfl
    exact Fds.not_inTable_fin i hin

/-- What `_dup` comes back with: an error, or the first null slot from its start. -/
theorem dupWith_ok {cloexec : Bool} (h : d.dupWith e fd new cloexec = .ok (r, d')) :
    (r < 0 ∧ d' = d ∧ ∀ i, ¬(OpenAt d fd ∧ FirstFree d (Fds.startIndex e new) i)) ∨
      ∃ (i : Fin nrOpen) (fp : FilePtr), r = (i : ℕ) ∧ OpenAt d fd ∧
        FirstFree d (Fds.startIndex e new) i ∧
        d' = if cloexec then (d.shared i fp).clearBit i else d.shared i fp := by
  by_cases hin : InTable fd
  · obtain ⟨j, rfl⟩ := Fds.exists_fin hin
    cases htable : d.table j with
    | none =>
        cases (Fds.dupWith_none htable).symm.trans h
        refine Or.inl ⟨by decide, rfl, ?_⟩
        rintro i ⟨⟨k, hk, hopen⟩, -⟩
        obtain rfl : k = j := Fin.ext (Int.ofNat_inj.mp hk)
        exact hopen htable
    | some fp =>
        have hopen : OpenAt d (j : ℕ) := ⟨j, rfl, htable ▸ Option.some_ne_none fp⟩
        rw [Fds.dupWith_some htable] at h
        rcases lt_or_ge (Fds.startAddr e new) e.fileTable with hbelow | hstart
        · rw [Fds.scanFrom_below hbelow] at h
          cases h
        · obtain ⟨ret, hret, hle, hused, hfree⟩ := d.scanFrom_spec hstart
          rw [hret, ok_bind] at h
          split at h
          next hlt =>
            cases h
            exact Or.inr ⟨⟨ret, hlt⟩, fp, rfl, hopen, ⟨hle, hfree ⟨ret, hlt⟩ rfl, hused⟩, rfl⟩
          next hge =>
            cases h
            refine Or.inl ⟨by decide, rfl, ?_⟩
            rintro i ⟨-, hi⟩
            exact hused i hi.1 (by have := i.isLt; omega) hi.2.1
  · cases (Fds.dupWith_outside hin).symm.trans h
    refine Or.inl ⟨by decide, rfl, ?_⟩
    rintro i ⟨⟨k, rfl, -⟩, -⟩
    exact Fds.not_inTable_fin k hin

end Calls

section Effects

variable {e : Env} {d d' : Fds} {r : ℤ} {c : Call}

theorem dupWith_effect {fd new : ℤ} {cloexec : Bool}
    (h : d.dupWith e fd new cloexec = .ok (r, d'))
    (hcreates : ∀ i, c.Creates e d i ↔ OpenAt d fd ∧ FirstFree d (Fds.startIndex e new) i)
    (hcloexec : c.Cloexec ↔ cloexec = true)
    (hmarks : c.marks e r = if 0 ≤ r then some (r, cloexec) else none) :
    FlagEffect e d c r d' := by
  rcases dupWith_ok h with ⟨hr, rfl, hnone⟩ | ⟨i, fp, rfl, hopen, hfirst, rfl⟩
  · exact .plain (fun i hi => hnone i ((hcreates i).mp hi))
      (hmarks.trans (if_neg (not_le.mpr hr))) rfl
  · rw [if_pos (Int.natCast_nonneg _)] at hmarks
    have hi := (hcreates i).mpr ⟨hopen, hfirst⟩
    cases cloexec with
    | false => exact .created i hi (fun h => Bool.false_ne_true (hcloexec.mp h)) hmarks rfl
    | true => exact .cloexec i hi (hcloexec.mpr rfl) hmarks rfl

theorem kernelOpen_effect {path flags mode : BitVec 32}
    (h : d.kernelOpen e path flags mode = .ok (r, d')) :
    FlagEffect e d (.kernelOpen path flags mode) r d' := by
  unfold Fds.kernelOpen Fds.openStart at h
  have hfail : ∀ {r' : ℤ}, r' < 0 → (.kernelOpen path flags mode : Call).marks e r' = none :=
    fun hr => if_neg fun h => not_le.mpr hr h.1
  by_cases hpath : e.Passes path
  · rw [if_neg hpath] at h
    cases hmount : e.mountTable with
    | none =>
        rw [hmount] at h
        cases h
        exact .plain (fun i hi => hi.2.1 hmount) (hfail (by decide)) rfl
    | some fs =>
        rw [hmount] at h
        dsimp only at h
        rcases d.findFd_cases with ⟨fd, heq, hfree, hfirst⟩ | ⟨hused, heq⟩
        · rw [heq, ok_bind, if_neg (by omega)] at h
          cases hfile : d.getFreeFile with
          | none =>
              rw [hfile] at h
              cases h
              exact .plain (fun i hi => hi.2.2.1 hfile) (hfail (by decide)) rfl
          | some fp =>
              rw [hfile, ok_bind] at h
              unfold Fds.openEnd at h
              dsimp only at h
              cases hinode : e.fsOpen.1 with
              | none =>
                  rw [hinode] at h
                  cases h
                  exact .plain (fun i hi => hi.2.2.2.1 hinode) (if_neg fun h => h.2 hinode) rfl
              | some ip =>
                  rw [hinode] at h
                  dsimp only at h
                  rw [Fds.setSlot_fin, ok_bind] at h
                  cases h
                  have hsome : e.fsOpen.1 ≠ none := hinode ▸ Option.some_ne_none ip
                  refine .created fd ⟨hpath, hmount ▸ Option.some_ne_none fs,
                    hfile ▸ Option.some_ne_none fp, hsome, Nat.zero_le _, hfree,
                    fun k _ hk => hfirst k hk⟩ id ?_ rfl
                  exact if_pos ⟨Int.natCast_nonneg _, hsome⟩
        · rw [heq] at h
          cases h
  · rw [if_pos (not_not.mp hpath)] at h
    cases h
    exact .plain (fun i hi => hpath hi.1) (hfail (by decide)) rfl

theorem kernelDup2_effect {fd1 fd2 : ℤ} (h : d.kernelDup2 e fd1 fd2 = .ok (r, d')) :
    FlagEffect e d (.kernelDup2 fd1 fd2) r d' := by
  unfold Fds.kernelDup2 at h
  by_cases hin2 : InTable fd2
  · rw [if_neg (by unfold InTable at hin2; omega)] at h
    rcases d.slot_cases fd1 with ⟨i, rfl, hin1, hslot⟩ | ⟨-, hslot⟩
    · rw [hslot, ok_bind] at h
      cases htable : d.table i with
      | none =>
          rw [htable] at h
          cases h
          refine .plain ?_ (Call.marks_kernelDup2_error (by decide)) rfl
          rintro j ⟨⟨k, hk, hopen⟩, -⟩
          exact hopen ((Fin.ext (Int.ofNat_inj.mp hk) : k = i) ▸ htable)
      | some fp =>
          rw [htable] at h
          dsimp only at h
          split at h
          next heq =>
            cases h
            exact .plain (fun j hj => hj.2.1 heq) (if_neg fun h => h.2 heq) rfl
          next hne =>
            obtain ⟨⟨r', d₁⟩, hclose, hdup⟩ := bind_eq_ok.mp h
            obtain ⟨hword₁, htable₁⟩ := kernelClose_ok hclose
            obtain ⟨j, rfl⟩ := Fds.exists_fin hin2
            have hopen₁ : OpenAt d₁ (i : ℕ) := by
              refine ⟨i, rfl, ?_⟩
              rw [htable₁, if_neg hne, htable]
              exact Option.some_ne_none fp
            have hfirst : FirstFree d₁ (Fds.startIndex e (j : ℕ)) j := by
              rw [(Fds.startAddr_inside hin2).2]
              refine ⟨le_rfl, ?_, fun k hk hk' => by omega⟩
              rw [htable₁, if_pos rfl]
            rcases dupWith_ok hdup with ⟨-, -, hnone⟩ | ⟨l, fp', rfl, -, hl, rfl⟩
            · exact (hnone j ⟨hopen₁, hfirst⟩).elim
            · obtain rfl := hl.unique hfirst
              refine .created l ⟨⟨i, rfl, htable ▸ Option.some_ne_none fp⟩, hne, rfl⟩ id ?_
                hword₁
              exact if_pos ⟨Int.natCast_nonneg _, hne⟩
    · rw [hslot] at h
      cases h
  · rw [if_pos (by unfold InTable at hin2; omega)] at h
    cases h
    refine .plain ?_ (Call.marks_kernelDup2_error (by decide)) rfl
    rintro j ⟨-, -, rfl⟩
    exact Fds.not_inTable_fin j hin2

theorem kernelFcntl_effect {fd cmd arg : ℤ} (h : d.kernelFcntl e fd cmd arg = .ok (r, d')) :
    FlagEffect e d (.kernelFcntl fd cmd arg) r d' := by
  have hclosed : (∀ i : Fin nrOpen, ((i : ℕ) : ℤ) = fd → d.table i = none) →
      ∀ i, ¬(Call.kernelFcntl fd cmd arg).Creates e d i := by
    rintro hnone i ⟨-, ⟨k, hk, hopen⟩, -⟩
    exact hopen (hnone k hk)
  by_cases hin : InTable fd
  · obtain ⟨i, rfl⟩ := Fds.exists_fin hin
    cases htable : d.table i with
    | none =>
        cases (Fds.kernelFcntl_none htable).symm.trans h
        refine .plain (hclosed fun k hk => ?_) (Call.marks_kernelFcntl_error (by decide)) rfl
        rwa [(Fin.ext (Int.ofNat_inj.mp hk) : k = i)]
    | some fp =>
        unfold Fds.kernelFcntl at h
        rw [if_neg (by have := i.isLt; omega), Fds.slot_fin, htable, ok_bind] at h
        dsimp only at h
        by_cases hdup : cmd = fDupfd
        · rw [if_pos hdup] at h
          refine dupWith_effect h (fun j => and_iff_right (Or.inl hdup)) ?_ ?_
          · subst hdup
            exact iff_of_false (show ¬fDupfd = fDupfdCloexec by decide) Bool.false_ne_true
          · rw [Call.marks_kernelFcntl, if_pos hdup]
        · rw [if_neg hdup] at h
          by_cases hcloexec : cmd = fDupfdCloexec
          · rw [if_pos hcloexec] at h
            refine dupWith_effect h (fun j => and_iff_right (Or.inr hcloexec))
              (iff_of_true hcloexec rfl) ?_
            rw [Call.marks_kernelFcntl, if_neg hdup, if_pos hcloexec]
          · rw [if_neg hcloexec] at h
            have hnone : ∀ j, ¬(Call.kernelFcntl (i : ℕ) cmd arg).Creates e d j :=
              fun j hj => hj.1.elim hdup hcloexec
            by_cases hset : cmd = fSetfd
            · rw [if_neg (by rw [hset]; decide), if_pos hset] at h
              have hmarks : ∀ b, (BitVec.ofInt 32 arg &&& fdCloexec ≠ 0 ↔ b = true) →
                  (Call.kernelFcntl (i : ℕ) cmd arg).marks e 0 = some (((i : ℕ) : ℤ), b) := by
                intro b hb
                rw [Call.marks_kernelFcntl, if_pos le_rfl, if_neg hdup, if_neg hcloexec, if_pos hset]
                congr 2
                exact Bool.eq_iff_iff.mpr (decide_eq_true_iff.trans hb)
              split at h
              next hb =>
                cases h
                exact .set i true hnone (hmarks true (iff_of_true hb rfl)) rfl
              next hb =>
                cases h
                exact .set i false hnone (hmarks false (iff_of_false hb Bool.false_ne_true)) rfl
            · have hmarks : (Call.kernelFcntl (i : ℕ) cmd arg).marks e r = none := by
                rw [Call.marks_kernelFcntl, if_neg hdup, if_neg hcloexec, if_neg hset, ite_self]
              refine .plain hnone hmarks ?_
              rw [if_neg hset] at h
              split_ifs at h <;> cases h <;> rfl
  · cases (Fds.kernelFcntl_outside hin).symm.trans h
    refine .plain (hclosed ?_) (Call.marks_kernelFcntl_error (by decide)) rfl
    rintro k rfl
    exact (Fds.not_inTable_fin k hin).elim

theorem exec_effect (h : c.exec e d = .ok (r, d')) : FlagEffect e d c r d' := by
  cases c with
  | kernelOpen path flags mode => exact kernelOpen_effect h
  | kernelRead fd buf count => exact .plain (fun _ => id) rfl (onlyUses_transfer.word h)
  | kernelWrite fd buf count => exact .plain (fun _ => id) rfl (onlyUses_transfer.word h)
  | kernelLseek fd => exact .plain (fun _ => id) rfl (onlyUses_kernelLseek.word h)
  | kernelClose fd => exact .plain (fun _ => id) rfl (kernelClose_ok h).1
  | kernelFchmod fd => exact .plain (fun _ => id) rfl (onlyUses_kernelFchmod.word h)
  | kernelFstat fd statp => exact .plain (fun _ => id) rfl (onlyUses_kernelFstat.word h)
  | kernelDup fd =>
      refine dupWith_effect h (fun i => ?_) (iff_of_false id Bool.false_ne_true) rfl
      rw [(Fds.startAddr_inside ⟨le_rfl, by decide⟩).2]
      rfl
  | kernelDup2 fd1 fd2 => exact kernelDup2_effect h
  | kernelFcntl fd cmd arg => exact kernelFcntl_effect h

end Effects

/-! ## The loop of `kernel_execve` -/

theorem closeFlagged_ok {d d' : Fds} {n i : ℕ} (hi : i + n ≤ nrOpen)
    (h : d.closeFlagged n i = .ok d') :
    d'.closeOnExec = d.closeOnExec ∧ ∀ k : Fin nrOpen, d'.table k =
      if i ≤ k ∧ (k : ℕ) < i + n ∧ d.closeOnExec.getLsbD k = true then none else d.table k := by
  induction n generalizing d i with
  | zero =>
      cases h
      exact ⟨rfl, fun k => (if_neg fun hk => by omega).symm⟩
  | succ n ih =>
      have hword : i < 32 := by unfold nrOpen at hi; omega
      unfold Fds.closeFlagged at h
      split at h
      next hflag =>
        obtain ⟨⟨r, d₁⟩, hclose, hrest⟩ := bind_eq_ok.mp h
        obtain ⟨hword₁, htable₁⟩ := kernelClose_ok hclose
        obtain ⟨hword', htable'⟩ := ih (by omega) hrest
        rw [flagged_eq d hword] at hflag
        refine ⟨hword'.trans hword₁, fun k => ?_⟩
        rw [htable', htable₁, hword₁]
        by_cases hk : (k : ℕ) = i
        · rw [if_pos (c := ((k : ℕ) : ℤ) = (i : ℕ)) (by omega), ite_self,
            if_pos ⟨hk.ge, by omega, hk ▸ hflag⟩]
        · rw [if_neg (c := ((k : ℕ) : ℤ) = (i : ℕ)) (by omega)]
          exact if_congr ⟨fun h => ⟨by omega, by omega, h.2.2⟩,
            fun h => ⟨by omega, by omega, h.2.2⟩⟩ rfl rfl
      next hflag =>
        obtain ⟨hword', htable'⟩ := ih (by omega) h
        rw [flagged_eq d hword] at hflag
        refine ⟨hword', fun k => ?_⟩
        rw [htable']
        refine if_congr ⟨fun h => ⟨by omega, by omega, h.2.2⟩, fun h => ⟨?_, by omega, h.2.2⟩⟩ rfl rfl
        by_contra hlt
        have hk : (k : ℕ) = i := by omega
        exact hflag (hk ▸ h.2.2)

/-- `kernel_execve` comes back before it has closed anything, or after the loop. -/
theorem kernelExecve_cases {e : Env} {d d' : Fds} {path argv envp : BitVec 32} {x : Image} {r : ℤ}
    (h : d.kernelExecve e path argv envp x = .ok (r, d')) :
    (d' = d ∧ (x.namei.1 ≠ none → r < 0)) ∨ d.closeFlagged nrOpen 0 = .ok d' := by
  have hfail : ∀ {r' : ℤ}, r' < 0 → (.ok (r', d) : Except Halt (ℤ × Fds)) = .ok (r, d') →
      (d' = d ∧ (x.namei.1 ≠ none → r < 0)) ∨ d.closeFlagged nrOpen 0 = .ok d' := by
    intro r' hneg heq
    cases heq
    exact Or.inl ⟨rfl, fun _ => hneg⟩
  unfold Fds.kernelExecve at h
  split at h
  next => exact hfail (by decide) h
  next =>
    split at h
    next => exact hfail (by decide) h
    next =>
      split at h
      next => exact hfail (by decide) h
      next =>
        split at h
        next => exact hfail (by decide) h
        next hnamei =>
          cases h
          exact Or.inl ⟨rfl, fun hsome => (hsome hnamei).elim⟩
        next =>
          split at h
          next => exact hfail (by decide) h
          next =>
            split at h
            next => exact hfail (by decide) h
            next =>
              obtain ⟨d₁, hclose, heq⟩ := bind_eq_ok.mp h
              cases heq
              exact Or.inr hclose

theorem kernelExecve_ok {e : Env} {d d' : Fds} {path argv envp : BitVec 32} {x : Image} {r : ℤ}
    (h : d.kernelExecve e path argv envp x = .ok (r, d')) :
    d'.closeOnExec = d.closeOnExec ∧ (x.namei.1 ≠ none → 0 ≤ r →
      ∀ i, d'.table i = if d.closeOnExec.getLsbD i then none else d.table i) := by
  rcases kernelExecve_cases h with ⟨rfl, hneg⟩ | hclose
  · exact ⟨rfl, fun hsome hr => (not_le.mpr (hneg hsome) hr).elim⟩
  · obtain ⟨hword, htable⟩ := closeFlagged_ok le_rfl hclose
    refine ⟨hword, fun _ _ i => (htable i).trans (if_congr ?_ rfl rfl)⟩
    exact ⟨fun h => h.2.2, fun h => ⟨Nat.zero_le _, by have := i.isLt; omega, h⟩⟩

/-! ## Runs -/

namespace Session

variable {s s' : Session} {op : Op} {ops : List Op} {r : ℤ}

theorem step_tracks_iff (htracks : s.Tracks) (hstep : s.step op = .ok (r, s')) :
    s'.Tracks ↔ s.SafeStep op := by
  cases op with
  | call e c =>
      obtain ⟨⟨r', d'⟩, hexec, heq⟩ := bind_eq_ok.mp hstep
      cases heq
      exact (exec_effect hexec).tracks_iff htracks
  | kernelExecve e path argv envp x =>
      obtain ⟨⟨r', d'⟩, hexec, heq⟩ := bind_eq_ok.mp hstep
      cases heq
      refine iff_of_true ?_ trivial
      intro i
      exact (congrArg (fun w => w.getLsbD i) (kernelExecve_ok hexec).1).trans (htracks i)

theorem step_execCloses (hstep : s.step op = .ok (r, s')) : s.ExecCloses s' r op := by
  cases op with
  | call e c => trivial
  | kernelExecve e path argv envp x =>
      obtain ⟨⟨r', d'⟩, hexec, heq⟩ := bind_eq_ok.mp hstep
      cases heq
      exact (kernelExecve_ok hexec).2

theorem TracksRun.tracks (h : s.TracksRun ops) : s.Tracks := by
  cases ops with
  | nil => exact h
  | cons op ops => exact h.1

/-- Along a run every flag is what it is meant to be, and `execve` closes what is flagged,
exactly if every descriptor is made where the bit is clear and none by `F_DUPFD_CLOEXEC`. -/
theorem tracksRun_iff (s : Session) (ops : List Op) (htracks : s.Tracks) :
    s.TracksRun ops ↔ s.SafeRun ops := by
  induction ops generalizing s with
  | nil => exact iff_of_true htracks trivial
  | cons op ops ih =>
      constructor
      · rintro ⟨-, hrun⟩ r s' hstep
        have hnext := (hrun r s' hstep).2
        exact ⟨(step_tracks_iff htracks hstep).mp hnext.tracks, (ih s' hnext.tracks).mp hnext⟩
      · intro hsafe
        refine ⟨htracks, fun r s' hstep => ⟨step_execCloses hstep, ?_⟩⟩
        obtain ⟨hsafe₁, hrest⟩ := hsafe r s' hstep
        have htracks' := (step_tracks_iff htracks hstep).mpr hsafe₁
        exact (ih s' htracks').mpr hrest

/-- A process which has opened nothing. -/
def boot : Session := ⟨.boot, fun _ => false⟩

theorem boot_tracks : boot.Tracks := fun _ => BitVec.getLsbD_zero

/-- An open, a flag set by `F_SETFD`, and a close meet the condition. -/
theorem tracksRun_iff_boot :
    boot.TracksRun [.call .plain (.kernelOpen 0x8000000 0 0), .call .plain (.kernelFcntl 0 fSetfd 1),
      .call .plain (.kernelClose 0)] := by
  refine (tracksRun_iff boot _ boot_tracks).mpr ?_
  intro r₁ s₁ _
  refine ⟨fun i _ => ⟨id, BitVec.getLsbD_zero⟩, ?_⟩
  intro r₂ s₂ _
  refine ⟨fun i hi => ?_, fun r₃ s₃ _ => ⟨fun i hi => hi.elim, trivial⟩⟩
  rcases hi.1 with hcmd | hcmd
  · exact absurd hcmd (by decide)
  · exact absurd hcmd (by decide)

/-- `F_DUPFD_CLOEXEC` makes descriptor 1 of descriptor 0, with the bit clear. -/
theorem not_tracksRun_dupfdCloexec :
    ¬∀ (s : Session) (ops : List Op), s.Tracks → s.TracksRun ops := by
  intro h
  have hrun := h boot [.call .plain (.kernelOpen 0x8000000 0 0),
    .call .plain (.kernelFcntl 0 fDupfdCloexec 0)] boot_tracks
  have hlast := ((hrun.2 _ _ rfl).2.2 _ _ rfl).2 ⟨1, by decide⟩
  revert hlast
  decide

end Session

end Yak.Files
