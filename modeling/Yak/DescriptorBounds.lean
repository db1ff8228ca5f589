import Yak.Files

/-!
# Bounds of the descriptor table

Each call checks descriptors by itself.  Exactly when a call stays inside `file_table` of the
process, and refuses what lies outside, is a condition on its arguments.
-/

namespace Yak.Files

def InTable (fd : ℤ) : Prop := 0 ≤ fd ∧ fd < nrOpen

namespace Env

/-- The check of a pointer argument. -/
def Passes (e : Env) (p : BitVec 32) : Prop := ¬(p = 0 ∨ e.checkUserPtr p = false)

end Env

namespace Fds

/-- No slot from `new` on can be given out. -/
def NoneFrom (d : Fds) (new : ℤ) : Prop :=
  new < 0 ∨ ∀ k : Fin nrOpen, new ≤ (k : ℕ) → d.table k ≠ none

/-- The address at which `_dup` starts is not below the table, and where it has wrapped around
into the table there is no null slot behind it. -/
def StartOk (e : Env) (d : Fds) (new : ℤ) : Prop :=
  e.fileTable ≤ startAddr e new ∧
    (InTable new ∨ ∀ k : Fin nrOpen, startIndex e new ≤ k → d.table k ≠ none)

end Fds

namespace Call

/-- The call names a descriptor outside the table, or asks for one where there is none. -/
def Invalid (d : Fds) : Call → Prop
  | .kernelOpen .. => d.NoneFrom 0
  | .kernelRead fd .. => ¬InTable fd
  | .kernelWrite fd .. => ¬InTable fd
  | .kernelLseek fd => ¬InTable fd
  | .kernelClose fd => ¬InTable fd
  | .kernelFchmod fd => ¬InTable fd
  | .kernelFstat fd _ => ¬InTable fd
  | .kernelDup fd => ¬InTable fd ∨ d.NoneFrom 0
  | .kernelDup2 fd1 fd2 => ¬InTable fd1 ∨ ¬InTable fd2
  | .kernelFcntl fd cmd arg =>
      ¬InTable fd ∨ (cmd = fDupfd ∨ cmd = fDupfdCloexec) ∧ d.NoneFrom arg

/-- What such a call has to return: from `kernel_open` it is some error. -/
def Refusal : Call → ℤ → Prop
  | .kernelOpen .., r => r < 0
  | _, r => r = -ebadf ∨ r = -emfile ∨ r = -enfile

/-- The call does not leave the table, and refuses what lies outside. -/
def Meets (e : Env) (d : Fds) (c : Call) : Prop :=
  c.exec e d ≠ .error .outOfBounds ∧
    (c.Invalid d → ∃ r d', c.exec e d = .ok (r, d') ∧ c.Refusal r)

/-- The exact condition on the arguments. -/
def Safe (e : Env) (d : Fds) : Call → Prop
  | .kernelOpen path _ _ => e.Passes path → e.mountTable ≠ none → ∃ fd, d.table fd = none
  | .kernelRead fd buf _ => fd < nrOpen ∧ (e.Passes buf ∨ 0 ≤ fd)
  | .kernelWrite fd buf _ => fd < nrOpen ∧ (e.Passes buf ∨ 0 ≤ fd)
  | .kernelLseek fd => fd < nrOpen
  | .kernelClose _ => True
  | .kernelFchmod fd => InTable fd
  | .kernelFstat fd statp => e.Passes statp ∨ InTable fd
  | .kernelDup _ => True
  | .kernelDup2 fd1 fd2 => InTable fd2 → InTable fd1
  | .kernelFcntl fd cmd arg =>
      (cmd = fDupfd ∨ cmd = fDupfdCloexec) →
        (∃ i : Fin nrOpen, ((i : ℕ) : ℤ) = fd ∧ d.table i ≠ none) → d.StartOk e arg

end Call

/-! ## Results -/

/-- `Call.Meets` for a result by itself. -/
def Checked (invalid : Prop) (refusal : ℤ → Prop) (x : Except Halt (ℤ × Fds)) : Prop :=
  x ≠ .error .outOfBounds ∧ (invalid → ∃ r d', x = .ok (r, d') ∧ refusal r)

section Checked

variable {invalid : Prop} {refusal : ℤ → Prop} {x : Except Halt (ℤ × Fds)} {r : ℤ} {d : Fds}

theorem not_checked_outOfBounds : ¬Checked invalid refusal (.error .outOfBounds) :=
  fun h => h.1 rfl

theorem checked_ok : Checked invalid refusal (.ok (r, d)) ↔ (invalid → refusal r) := by
  refine ⟨?_, fun h => ⟨nofun, fun hinv => ⟨r, d, rfl, h hinv⟩⟩⟩
  rintro ⟨-, h⟩ hinv
  obtain ⟨r', d', heq, hr⟩ := h hinv
  cases heq
  exact hr

theorem Checked.of_valid (hvalid : ¬invalid) (h : x ≠ .error .outOfBounds) :
    Checked invalid refusal x :=
  ⟨h, fun hinv => (hvalid hinv).elim⟩

end Checked

namespace Fds

variable {e : Env} {d d' : Fds} {fd new : ℤ} {fp : FilePtr}

/-- A slot in the table is read; one outside is not. -/
theorem slot_cases (d : Fds) (fd : ℤ) :
    (∃ i : Fin nrOpen, ((i : ℕ) : ℤ) = fd ∧ InTable fd ∧ d.slot fd = .ok (d.table i)) ∨
      ¬InTable fd ∧ d.slot fd = .error .outOfBounds := by
  by_cases h : InTable fd
  · obtain ⟨i, hi⟩ := exists_fin h
    exact Or.inl ⟨i, hi, h, hi ▸ slot_fin d i⟩
  · exact Or.inr ⟨h, slot_outside h⟩

theorem driver_ne : d.driver e fp ≠ .error .outOfBounds := by
  unfold driver
  split <;> nofun

/-- After a checked slot, what follows decides. -/
theorem slot_bind_ne {α : Type} {f : Option FilePtr → Except Halt α} (h : InTable fd)
    (hf : ∀ v, f v ≠ .error .outOfBounds) : d.slot fd >>= f ≠ .error .outOfBounds := by
  rcases d.slot_cases fd with ⟨i, -, -, hslot⟩ | ⟨hout, -⟩
  · rw [hslot, ok_bind]
    exact hf _
  · exact (hout h).elim

/-! ## The calls which only use a descriptor -/

theorem transfer_ne {refused buf count : BitVec 32} (h : InTable fd) :
    transfer refused e d fd buf count ≠ .error .outOfBounds := by
  unfold transfer
  split
  next => nofun
  next =>
    rw [if_neg (not_lt.mpr h.1)]
    apply slot_bind_ne h
    intro v
    cases v with
    | none => nofun
    | some fp =>
        dsimp only
        split
        next => nofun
        next =>
          split
          next => nofun
          next => exact driver_ne

theorem transfer_checked_iff {refused buf count : BitVec 32} :
    Checked (¬InTable fd) (fun r => r = -ebadf ∨ r = -emfile ∨ r = -enfile)
        (transfer refused e d fd buf count) ↔ fd < nrOpen ∧ (e.Passes buf ∨ 0 ≤ fd) := by
  by_cases hin : InTable fd
  · exact iff_of_true (.of_valid (not_not.mpr hin) (transfer_ne hin)) ⟨hin.2, Or.inr hin.1⟩
  · unfold transfer
    by_cases hbuf : e.Passes buf
    · rw [if_neg hbuf]
      rcases lt_or_ge fd 0 with hneg | hge
      · rw [if_pos hneg]
        exact iff_of_true (checked_ok.mpr fun _ => Or.inl rfl)
          ⟨hneg.trans (by decide), Or.inl hbuf⟩
      · rw [if_neg (not_lt.mpr hge), slot_outside hin]
        refine iff_of_false not_checked_outOfBounds ?_
        exact fun h => hin ⟨hge, h.1⟩
    · rw [if_pos (not_not.mp hbuf)]
      refine iff_of_false ?_ ?_
      · intro h
        have hr := checked_ok.mp h hin
        revert hr
        decide
      · exact fun h => hin ⟨h.2.resolve_left hbuf, h.1⟩

theorem kernelLseek_checked_iff :
    Checked (¬InTable fd) (fun r => r = -ebadf ∨ r = -emfile ∨ r = -enfile)
      (d.kernelLseek e fd) ↔ fd < nrOpen := by
  unfold kernelLseek
  rcases lt_or_ge fd 0 with hneg | hge
  · rw [if_pos hneg]
    exact iff_of_true (checked_ok.mpr fun _ => Or.inl rfl) (hneg.trans (by decide))
  · rw [if_neg (not_lt.mpr hge)]
    by_cases hin : InTable fd
    · refine iff_of_true (.of_valid (not_not.mpr hin) (slot_bind_ne hin ?_)) hin.2
      intro v
      cases v with
      | none => nofun
      | some fp => exact driver_ne
    · rw [slot_outside hin]
      exact iff_of_false not_checked_outOfBounds fun h => hin ⟨hge, h⟩

theorem kernelFchmod_checked_iff :
    Checked (¬InTable fd) (fun r => r = -ebadf ∨ r = -emfile ∨ r = -enfile)
      (d.kernelFchmod e fd) ↔ InTable fd := by
  unfold kernelFchmod
  by_cases hin : InTable fd
  · refine iff_of_true (.of_valid (not_not.mpr hin) (slot_bind_ne hin ?_)) hin
    intro v
    cases v with
    | none => nofun
    | some fp =>
        dsimp only
        split
        next => nofun
        next => split <;> nofun
  · rw [slot_outside hin]
    exact iff_of_false not_checked_outOfBounds hin

theorem kernelFstat_checked_iff {statp : BitVec 32} :
    Checked (¬InTable fd) (fun r => r = -ebadf ∨ r = -emfile ∨ r = -enfile)
      (d.kernelFstat e fd statp) ↔ e.Passes statp ∨ InTable fd := by
  unfold kernelFstat
  by_cases hstat : e.Passes statp
  · rw [if_neg hstat]
    refine iff_of_true ?_ (Or.inl hstat)
    by_cases hin : InTable fd
    · rw [if_neg (by unfold InTable at hin; omega)]
      refine .of_valid (not_not.mpr hin) (slot_bind_ne hin ?_)
      intro v
      cases v with
      | none => nofun
      | some fp =>
          dsimp only
          split <;> nofun
    · rw [if_pos (by unfold InTable at hin; omega)]
      exact checked_ok.mpr fun _ => Or.inl rfl
  · rw [if_pos (not_not.mp hstat)]
    by_cases hin : InTable fd
    · exact iff_of_true (.of_valid (not_not.mpr hin) nofun) (Or.inr hin)
    · refine iff_of_false ?_ ?_
      · intro h
        have hr := checked_ok.mp h hin
        revert hr
        decide
      · exact fun h => h.elim hstat hin

theorem kernelClose_ne (d : Fds) (fd : ℤ) : d.kernelClose fd ≠ .error .outOfBounds := by
  by_cases hin : InTable fd
  · obtain ⟨i, rfl⟩ := exists_fin hin
    rcases d.kernelClose_cases i with ⟨-, heq⟩ | ⟨fp, -, ⟨-, heq⟩ | ⟨h, hne, heq⟩⟩
    · rw [heq]
      nofun
    · rw [heq]
      nofun
    · rw [heq]
      exact fun herr => hne (Except.error.inj herr)
  · rw [kernelClose_outside hin]
    nofun

theorem kernelClose_checked :
    Checked (¬InTable fd) (fun r => r = -ebadf ∨ r = -emfile ∨ r = -enfile)
      (d.kernelClose fd) := by
  refine ⟨d.kernelClose_ne fd, ?_⟩
  intro hout
  exact ⟨-ebadf, d, kernelClose_outside hout, Or.inl rfl⟩

/-! ## The calls which look for a descriptor -/

theorem noneFrom_iff_startIndex (h : InTable new) :
    d.NoneFrom new ↔ ∀ k : Fin nrOpen, startIndex e new ≤ k → d.table k ≠ none := by
  rw [(startAddr_inside h).2]
  unfold NoneFrom
  have hge := h.1
  constructor
  · intro hnone k hk
    exact hnone.resolve_left (not_lt.mpr hge) k (by omega)
  · intro hnone
    exact Or.inr fun k hk => hnone k (by omega)

theorem dupWith_ne {cloexec : Bool} (h : e.fileTable ≤ startAddr e new) :
    d.dupWith e fd new cloexec ≠ .error .outOfBounds := by
  by_cases hin : InTable fd
  · obtain ⟨i, rfl⟩ := exists_fin hin
    cases htable : d.table i with
    | none =>
        rw [dupWith_none htable]
        nofun
    | some fp =>
        obtain ⟨j, hj, -⟩ := d.scanFrom_spec h
        rw [dupWith_some htable, hj, ok_bind]
        split <;> nofun
  · rw [dupWith_outside hin]
    nofun

/-- A refusal of `_dup`: the descriptor is not open, or no slot is free behind the start. -/
theorem dupWith_refuses {cloexec : Bool} (h : e.fileTable ≤ startAddr e new)
    (hrefuse : ¬InTable fd ∨ ∀ k : Fin nrOpen, startIndex e new ≤ k → d.table k ≠ none) :
    ∃ r d', d.dupWith e fd new cloexec = .ok (r, d') ∧ (r = -ebadf ∨ r = -emfile ∨ r = -enfile) := by
  by_cases hin : InTable fd
  · have hused := hrefuse.resolve_left (not_not.mpr hin)
    obtain ⟨i, rfl⟩ := exists_fin hin
    cases htable : d.table i with
    | none => exact ⟨_, d, dupWith_none htable, Or.inl rfl⟩
    | some fp =>
        obtain ⟨j, hj, hle, -, hfree⟩ := d.scanFrom_spec h
        refine ⟨-emfile, d, ?_, Or.inr (Or.inl rfl)⟩
        rw [dupWith_some htable, hj, ok_bind, dif_neg]
        intro hlt
        exact hused ⟨j, hlt⟩ hle (hfree ⟨j, hlt⟩ rfl)
  · exact ⟨_, d, dupWith_outside hin, Or.inl rfl⟩

theorem kernelDup_checked :
    Checked (¬InTable fd ∨ d.NoneFrom 0) (fun r => r = -ebadf ∨ r = -emfile ∨ r = -enfile)
      (d.kernelDup e fd) := by
  have hzero : InTable 0 := ⟨le_rfl, by decide⟩
  have hstart := (startAddr_inside (e := e) hzero).1
  refine ⟨dupWith_ne hstart, ?_⟩
  rw [noneFrom_iff_startIndex (e := e) hzero]
  exact dupWith_refuses hstart

theorem kernelDup2_checked_iff {fd1 fd2 : ℤ} :
    Checked (¬InTable fd1 ∨ ¬InTable fd2) (fun r => r = -ebadf ∨ r = -emfile ∨ r = -enfile)
      (d.kernelDup2 e fd1 fd2) ↔ (InTable fd2 → InTable fd1) := by
  unfold kernelDup2
  by_cases hin2 : InTable fd2
  · rw [if_neg (by unfold InTable at hin2; omega)]
    by_cases hin1 : InTable fd1
    · refine iff_of_true (.of_valid ?_ (slot_bind_ne hin1 ?_)) fun _ => hin1
      · exact fun h => h.elim (fun h => h hin1) fun h => h hin2
      · intro v
        cases v with
        | none => nofun
        | some fp =>
            dsimp only
            split
            next => nofun
            next =>
              cases hclose : d.kernelClose fd2 with
              | error h => exact fun herr => d.kernelClose_ne fd2 (hclose.trans herr)
              | ok r => exact dupWith_ne (startAddr_inside hin2).1
    · rw [slot_outside hin1]
      exact iff_of_false not_checked_outOfBounds fun h => hin1 (h hin2)
  · rw [if_pos (by unfold InTable at hin2; omega)]
    exact iff_of_true (checked_ok.mpr fun _ => Or.inl rfl) fun h => (hin2 h).elim

/-- `_dup` for an open descriptor and a start given by the user. -/
theorem dupWith_checked_iff {i : Fin nrOpen} {cloexec : Bool} (htable : d.table i = some fp) :
    Checked (¬InTable (i : ℕ) ∨ d.NoneFrom new) (fun r => r = -ebadf ∨ r = -emfile ∨ r = -enfile)
      (d.dupWith e (i : ℕ) new cloexec) ↔ d.StartOk e new := by
  have hi : InTable (i : ℕ) := ⟨Int.natCast_nonneg _, Int.ofNat_lt.mpr i.isLt⟩
  rcases lt_or_ge (startAddr e new) e.fileTable with hbelow | hstart
  · rw [dupWith_some htable, scanFrom_below hbelow]
    exact iff_of_false not_checked_outOfBounds fun h => not_lt.mpr h.1 hbelow
  · constructor
    · rintro ⟨-, hrefuse⟩
      refine ⟨hstart, ?_⟩
      by_contra hnot
      rw [not_or] at hnot
      have hnone : d.NoneFrom new := by
        unfold InTable at hnot
        by_cases hneg : new < 0
        · exact Or.inl hneg
        · exact Or.inr fun k hk => by have := k.isLt; omega
      obtain ⟨r, d', heq, hr⟩ := hrefuse (Or.inr hnone)
      obtain ⟨j, hj, hle, hused, -⟩ := d.scanFrom_spec hstart
      rw [dupWith_some htable, hj, ok_bind] at heq
      split at heq
      next hlt =>
        have hjr : (j : ℤ) = r := congrArg Prod.fst (Except.ok.inj heq)
        unfold ebadf emfile enfile at hr
        omega
      next hge =>
        exact hnot.2 fun k hk => hused k hk (by have := k.isLt; omega)
    · rintro ⟨-, hok⟩
      refine ⟨dupWith_ne hstart, ?_⟩
      intro hinv
      apply dupWith_refuses hstart
      rcases hok with hin | hused
      · exact hinv.imp_right (noneFrom_iff_startIndex hin).mp
      · exact Or.inr hused

theorem not_inTable_fin (i : Fin nrOpen) : ¬¬InTable (i : ℕ) :=
  not_not.mpr ⟨Int.natCast_nonneg _, Int.ofNat_lt.mpr i.isLt⟩

/-- Without a search for a descriptor nothing goes wrong. -/
theorem kernelFcntl_ne {cmd arg : ℤ} (hcmd : ¬(cmd = fDupfd ∨ cmd = fDupfdCloexec)) :
    d.kernelFcntl e fd cmd arg ≠ .error .outOfBounds := by
  rw [not_or] at hcmd
  unfold kernelFcntl
  split
  next => nofun
  next hin =>
    apply slot_bind_ne (by unfold InTable; omega)
    intro v
    cases v with
    | none => nofun
    | some fp =>
        dsimp only
        rw [if_neg hcmd.1, if_neg hcmd.2]
        split_ifs <;> nofun

theorem kernelFcntl_outside {cmd arg : ℤ} (h : ¬InTable fd) :
    d.kernelFcntl e fd cmd arg = .ok (-ebadf, d) :=
  if_pos (by unfold InTable at h; omega)

theorem kernelFcntl_none {i : Fin nrOpen} {cmd arg : ℤ} (h : d.table i = none) :
    d.kernelFcntl e (i : ℕ) cmd arg = .ok (-ebadf, d) := by
  unfold kernelFcntl
  rw [if_neg (by have := i.isLt; omega), slot_fin, h]
  rfl

theorem kernelFcntl_dupfd {i : Fin nrOpen} {cmd : ℤ} (arg : ℤ) (h : d.table i = some fp)
    (hcmd : cmd = fDupfd ∨ cmd = fDupfdCloexec) :
    ∃ cloexec, d.kernelFcntl e (i : ℕ) cmd arg = d.dupWith e (i : ℕ) arg cloexec := by
  unfold kernelFcntl
  rw [if_neg (by have := i.isLt; omega), slot_fin, h, ok_bind]
  dsimp only
  rcases hcmd with rfl | rfl
  · exact ⟨false, if_pos rfl⟩
  · exact ⟨true, (if_neg (by decide)).trans (if_pos rfl)⟩

theorem kernelFcntl_checked_iff {cmd arg : ℤ} :
    Checked (¬InTable fd ∨ (cmd = fDupfd ∨ cmd = fDupfdCloexec) ∧ d.NoneFrom arg)
        (fun r => r = -ebadf ∨ r = -emfile ∨ r = -enfile) (d.kernelFcntl e fd cmd arg) ↔
      ((cmd = fDupfd ∨ cmd = fDupfdCloexec) →
        (∃ i : Fin nrOpen, ((i : ℕ) : ℤ) = fd ∧ d.table i ≠ none) → d.StartOk e arg) := by
  by_cases hin : InTable fd
  · obtain ⟨i, rfl⟩ := exists_fin hin
    cases htable : d.table i with
    | none =>
        rw [kernelFcntl_none htable]
        refine iff_of_true (checked_ok.mpr fun _ => Or.inl rfl) ?_
        rintro - ⟨j, hj, hopen⟩
        obtain rfl : j = i := Fin.ext (Int.ofNat_inj.mp hj)
        exact (hopen htable).elim
    | some fp =>
        by_cases hcmd : cmd = fDupfd ∨ cmd = fDupfdCloexec
        · obtain ⟨cloexec, heq⟩ := kernelFcntl_dupfd (e := e) arg htable hcmd
          rw [heq, and_iff_right hcmd, dupWith_checked_iff htable]
          refine ⟨fun h _ _ => h, fun h => h hcmd ⟨i, rfl, ?_⟩⟩
          rw [htable]
          exact Option.some_ne_none fp
        · refine iff_of_true (.of_valid ?_ (kernelFcntl_ne hcmd)) fun h => (hcmd h).elim
          exact fun h => h.elim (not_inTable_fin i) fun h => hcmd h.1
  · rw [kernelFcntl_outside hin]
    refine iff_of_true (checked_ok.mpr fun _ => Or.inl rfl) ?_
    rintro - ⟨i, rfl, -⟩
    exact (not_inTable_fin i hin).elim

theorem openEnd_ne {i : Fin nrOpen} {flags mode : BitVec 32} :
    d.openEnd e (i : ℕ) fp flags mode ≠ .error .outOfBounds := by
  unfold openEnd
  dsimp only
  split
  next => nofun
  next =>
    rw [setSlot_fin]
    nofun

theorem kernelOpen_checked_iff {path flags mode : BitVec 32} :
    Checked (d.NoneFrom 0) (fun r => r < 0) (d.kernelOpen e path flags mode) ↔
      (e.Passes path → e.mountTable ≠ none → ∃ fd, d.table fd = none) := by
  unfold kernelOpen openStart
  by_cases hpath : e.Passes path
  · rw [if_neg hpath]
    cases hmount : e.mountTable with
    | none =>
        exact iff_of_true (checked_ok.mpr fun _ => by decide) fun _ h => (h rfl).elim
    | some fs =>
        dsimp only
        rcases d.findFd_cases with ⟨fd, heq, hfree, -⟩ | ⟨hused, heq⟩
        · refine iff_of_true (.of_valid ?_ ?_) fun _ _ => ⟨fd, hfree⟩
          · intro h
            exact (h.resolve_left (lt_irrefl 0)) fd (Int.natCast_nonneg _) hfree
          · rw [heq, ok_bind, if_neg (by omega)]
            cases d.getFreeFile with
            | none => nofun
            | some fp => exact openEnd_ne
        · rw [heq]
          refine iff_of_false not_checked_outOfBounds fun h => ?_
          obtain ⟨fd, hfree⟩ := h hpath (Option.some_ne_none fs)
          exact hused fd hfree
  · rw [if_pos (not_not.mp hpath)]
    exact iff_of_true (checked_ok.mpr fun _ => by decide) fun h => (hpath h).elim

end Fds

namespace Call

/-- A call stays in the descriptor table and refuses what is outside exactly when its arguments
are as `Call.Safe` says. -/
theorem meets_iff_safe (e : Env) (d : Fds) (c : Call) : c.Meets e d ↔ c.Safe e d := by
  cases c with
  | kernelOpen path flags mode => exact Fds.kernelOpen_checked_iff
  | kernelRead fd buf count => exact Fds.transfer_checked_iff
  | kernelWrite fd buf count => exact Fds.transfer_checked_iff
  | kernelLseek fd => exact Fds.kernelLseek_checked_iff
  | kernelClose fd => exact iff_of_true Fds.kernelClose_checked trivial
  | kernelFchmod fd => exact Fds.kernelFchmod_checked_iff
  | kernelFstat fd statp => exact Fds.kernelFstat_checked_iff
  | kernelDup fd => exact iff_of_true Fds.kernelDup_checked trivial
  | kernelDup2 fd1 fd2 => exact Fds.kernelDup2_checked_iff
  | kernelFcntl fd cmd arg => exact Fds.kernelFcntl_checked_iff

end Call

/-- A process which has opened nothing. -/
def Fds.boot : Fds where
  files _ := ⟨none, none, 0, 0, 0, 0⟩
  table _ := none
  closeOnExec := 0

/-- Every user address is good, and the driver answers 0. -/
def Env.plain : Env where
  checkUserPtr _ := true
  mountTable := some 0
  readOnly _ := false
  fsOpen := (some 0, 0)
  answer := 0
  fPos := 0
  fileTable := 0x100000
  fits := by decide

/-- A `read` from descriptor 20 reads the word behind the table. -/
theorem Call.not_meets_read_nrOpen :
    ¬∀ (e : Env) (d : Fds) (c : Call), c.Meets e d := by
  intro h
  have hmeets := h .plain .boot (.kernelRead 20 0x8000000 1)
  exact hmeets.1 rfl

end Yak.Files
