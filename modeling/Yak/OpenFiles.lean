import Yak.CloseOnExec
import Yak.References
import Yak.Process

/-!
# Reference counts of open files

All processes with their descriptor tables, over the one table of open files.  A process is
switched away from only where it sleeps: in `fs_open`, which `kernel_open` calls before it
counts the entry, and in `fs_close`, which `kernel_close` calls before it clears the slot.
-/

namespace Yak.Files

open References
open Process (Slot)

namespace Fds

/-- The loop at the start of `kernel_exit`, from descriptor `i`. -/
def closeAll (d : Fds) : ℕ → ℕ → Except Halt Fds
  | 0, _ => .ok d
  | n + 1, i => do
      match ← d.slot i with
      | none => d.closeAll n (i + 1)
      | some _ =>
          let (_, d) ← d.kernelClose i
          d.closeAll n (i + 1)

/-- The loop of `kernel_fork` over the descriptors. -/
def countAgain (d : Fds) : List (Fin nrOpen) → Fds
  | [] => d
  | i :: is =>
      match d.table i with
      | none => d.countAgain is
      | some fp => (d.modifyFile fp fun f => { f with fCount := f.fCount + 1 }).countAgain is

/-- Descriptor `fd` is the last reference, so that `fs_close` calls `iput`, which may sleep. -/
def LastReference (d : Fds) (fd : ℤ) : Bool :=
  match d.slot fd with
  | .ok (some fp) => (d.files fp).fCount = 1
  | _ => false

end Fds

/-- A slot of the process table: exited, ended but not waited for, or in use. -/
inductive Life where
  | exited
  | zombie
  | running
  deriving DecidableEq

/-- The sleep in which a process is inside a call. -/
inductive Pending where
  | nothing
  | opening (fd : ℤ) (fp : FilePtr)
  | closing (fd : ℤ)
  deriving DecidableEq

structure System where
  files : FilePtr → File
  tables : Slot → Fin nrOpen → Option FilePtr
  closeOnExec : Slot → BitVec 32
  life : Slot → Life
  pending : Slot → Pending

inductive Event where
  /-- `kernel_open` up to `fs_open`. -/
  | openStart (p : Slot) (e : Env) (path : BitVec 32)
  | openEnd (p : Slot) (e : Env) (flags mode : BitVec 32)
  /-- A call which does not sleep in between. -/
  | call (p : Slot) (e : Env) (c : Call)
  /-- `kernel_close` goes to sleep in `fs_close`. -/
  | closeStart (p : Slot) (fd : ℤ)
  | closeEnd (p : Slot)
  /-- `kernel_fork` into slot `q`; `copied` if `arch_fork` succeeds. -/
  | fork (p q : Slot) (copied : Bool)
  | execve (p : Slot) (e : Env) (path argv envp : BitVec 32) (x : Image)
  /-- `kernel_exit`.  One which sleeps on its way is some closes and then this. -/
  | exit (p : Slot) (orphan : Bool)
  /-- `kernel_waitpid` by the parent of `q`. -/
  | reap (q : Slot)

namespace System

/-- Process 0 runs and has opened nothing. -/
def boot : System where
  files _ := ⟨none, none, 0, 0, 0, 0⟩
  tables _ _ := none
  closeOnExec _ := 0
  life p := if p = ⟨0, Process.zero_lt_nrProc⟩ then .running else .exited
  pending _ := .nothing

def fds (s : System) (p : Slot) : Fds := ⟨s.files, s.tables p, s.closeOnExec p⟩

def put (s : System) (p : Slot) (d : Fds) : System :=
  { s with
    files := d.files
    tables := Function.update s.tables p d.table
    closeOnExec := Function.update s.closeOnExec p d.closeOnExec }

def sleepIn (s : System) (p : Slot) (x : Pending) : System :=
  { s with pending := Function.update s.pending p x }

def setLife (s : System) (p : Slot) (x : Life) : System :=
  { s with life := Function.update s.life p x }

/-- Process `p` is about to make a call. -/
def Ready (s : System) (p : Slot) : Prop := s.life p = .running ∧ s.pending p = .nothing

instance (s : System) (p : Slot) : Decidable (s.Ready p) :=
  inferInstanceAs (Decidable (_ ∧ _))

/-- The result of a call, where it comes back. -/
def after (s : System) (p : Slot) : Except Halt (ℤ × Fds) → Option System
  | .ok (_, d) => some (s.put p d)
  | .error _ => none

/-- One step, if the process can take it.  There is none after a halt. -/
def step (s : System) : Event → Option System
  | .openStart p e path =>
      if s.Ready p then
        match (s.fds p).openStart e path with
        | .ok (.inl _) => some s
        | .ok (.inr ((fd, fp), d)) => some ((s.put p d).sleepIn p (.opening fd fp))
        | .error _ => none
      else none
  | .openEnd p e flags mode =>
      match s.pending p with
      | .opening fd fp => (s.sleepIn p .nothing).after p ((s.fds p).openEnd e fd fp flags mode)
      | _ => none
  | .call p e c =>
      if s.Ready p then
        match c with
        | .kernelOpen .. => none
        | c => s.after p (c.exec e (s.fds p))
      else none
  | .closeStart p fd =>
      if s.Ready p ∧ (s.fds p).LastReference fd then
        match (s.fds p).closeStart fd with
        | .ok (.inr d) => some ((s.put p d).sleepIn p (.closing fd))
        | _ => none
      else none
  | .closeEnd p =>
      match s.pending p with
      | .closing fd => (s.sleepIn p .nothing).after p ((s.fds p).closeEnd fd)
      | _ => none
  | .fork p q copied =>
      if s.Ready p ∧ s.life q = .exited then
        let s' := s.put q (s.fds p)
        if copied then
          some ((s'.setLife q .running).put p ((s'.fds p).countAgain (List.finRange nrOpen)))
        else some s'
      else none
  | .execve p e path argv envp x =>
      if s.Ready p then s.after p ((s.fds p).kernelExecve e path argv envp x) else none
  | .exit p orphan =>
      if s.Ready p then
        match (s.fds p).closeAll nrOpen 0 with
        | .ok d => some ((s.put p d).setLife p (if orphan then .exited else .zombie))
        | .error _ => none
      else none
  | .reap q => if s.life q = .zombie then some (s.setLife q .exited) else none

/-! ## Counts -/

/-- The descriptors of `p`, if it has not exited. -/
def owned (s : System) (p : Slot) : Fin nrOpen → Option FilePtr :=
  if s.life p = .exited then fun _ => none else s.tables p

/-- Every count is the number of slots of processes which have not exited. -/
def Counted (s : System) : Prop := ∀ fp, (s.files fp).fCount = total s.owned fp

/-- An open which succeeds yields an entry which nobody has open. -/
def YieldsFresh (s : System) : Event → Prop
  | .openEnd p e _ _ => ∀ fd fp, s.pending p = .opening fd fp → e.fsOpen.1 ≠ none →
      ∀ q i, s.life q ≠ .exited → s.tables q i ≠ some fp
  | _ => True

/-- So it is all along the run, as far as it goes. -/
def CountedRun (s : System) : List Event → Prop
  | [] => s.Counted
  | ev :: evs => s.Counted ∧
      ∀ s', s.step ev = some s' → s.YieldsFresh ev ∧ s'.CountedRun evs

/-- The entry of an open which succeeds is still free, and no close sleeps on its last
reference. -/
def SafeStep (s : System) : Event → Prop
  | .openEnd p e _ _ => ∀ fd fp, s.pending p = .opening fd fp → e.fsOpen.1 ≠ none →
      (s.files fp).fCount = 0
  | .closeStart _ _ => False
  | _ => True

/-- Each step which is taken has met its condition. -/
def SafeRun (s : System) : List Event → Prop
  | [] => True
  | ev :: evs => ∀ s', s.step ev = some s' → s.SafeStep ev ∧ s'.SafeRun evs

end System

/-! ## One process -/

namespace Fds

variable {d d' d'' : Fds} {fd r : ℤ} {i : Fin nrOpen} {fp : FilePtr} {e : Env}

def counts (d : Fds) (fp : FilePtr) : ℕ := (d.files fp).fCount

/-- The counts change by what the table does. -/
def Balanced (d d' : Fds) : Prop := Conserves d.counts d'.counts d.table d'.table

theorem Balanced.refl (d : Fds) : d.Balanced d := Conserves.refl

theorem Balanced.trans (h : d.Balanced d') (h' : d'.Balanced d'') : d.Balanced d'' :=
  Conserves.trans h h'

theorem Balanced.of_eq (hcounts : d'.counts = d.counts) (htable : d'.table = d.table) :
    d.Balanced d' := by
  unfold Balanced
  rw [hcounts, htable]
  exact Conserves.refl

theorem counts_modifyFile (d : Fds) (fp : FilePtr) (f : File → File) :
    (d.modifyFile fp f).counts = Function.update d.counts fp (f (d.files fp)).fCount := by
  funext fp'
  unfold counts modifyFile
  dsimp only
  by_cases hfp : fp' = fp
  · rw [hfp, Function.update_self, Function.update_self]
  · rw [Function.update_of_ne hfp, Function.update_of_ne hfp]

theorem table_modifyFile (d : Fds) (fp : FilePtr) (f : File → File) :
    (d.modifyFile fp f).table = d.table := rfl

theorem counts_shared (d : Fds) (i : Fin nrOpen) (fp : FilePtr) :
    (d.shared i fp).counts = Function.update d.counts fp (d.counts fp + 1) :=
  counts_modifyFile d fp fun f => { f with fCount := f.fCount + 1 }

theorem table_shared (d : Fds) (i : Fin nrOpen) (fp : FilePtr) :
    (d.shared i fp).table = Function.update d.table i (some fp) := rfl

theorem counts_dropped (d : Fds) (i : Fin nrOpen) (fp : FilePtr) :
    (d.dropped i fp).counts = Function.update d.counts fp (d.counts fp - 1) :=
  counts_modifyFile d fp fun f => { f with fCount := f.fCount - 1 }

theorem table_dropped (d : Fds) (i : Fin nrOpen) (fp : FilePtr) :
    (d.dropped i fp).table = Function.update d.table i none := rfl

theorem Balanced.modifyFile {f : File → File} (h : (f (d.files fp)).fCount = (d.files fp).fCount) :
    d.Balanced (d.modifyFile fp f) := by
  refine .of_eq ?_ (table_modifyFile d fp f)
  rw [counts_modifyFile, h]
  exact Function.update_eq_self fp d.counts

theorem Balanced.clearBit (h : d.Balanced d') (j : ℕ) : d.Balanced (d'.clearBit j) := h

theorem balanced_shared (hfree : d.table i = none) : d.Balanced (d.shared i fp) := by
  unfold Balanced
  rw [counts_shared, table_shared]
  intro fp'
  have hslots := slots_update d.table i (some fp) fp'
  rw [hfree, if_neg (c := none = some fp') nofun, Nat.add_zero] at hslots
  rw [hslots]
  by_cases hfp : fp' = fp
  · rw [hfp, Function.update_self, if_pos rfl]
    omega
  · rw [Function.update_of_ne hfp, if_neg fun h => hfp (Option.some.inj h).symm]
    omega

theorem balanced_dropped (htable : d.table i = some fp) (hcount : (d.files fp).fCount ≠ 0) :
    d.Balanced (d.dropped i fp) := by
  unfold Balanced
  rw [counts_dropped, table_dropped]
  intro fp'
  have hslots := slots_update d.table i none fp'
  rw [htable, if_neg (c := none = some fp') nofun, Nat.add_zero] at hslots
  rw [← hslots]
  by_cases hfp : fp' = fp
  · have hpos : d.counts fp ≠ 0 := hcount
    rw [hfp, Function.update_self, if_pos rfl]
    omega
  · rw [Function.update_of_ne hfp, if_neg fun h => hfp (Option.some.inj h).symm]
    omega

theorem kernelClose_balanced (h : d.kernelClose fd = .ok (r, d')) : d.Balanced d' := by
  by_cases hin : InTable fd
  · obtain ⟨i, rfl⟩ := exists_fin hin
    rcases d.kernelClose_cases i with ⟨-, heq⟩ | ⟨fp, htable, ⟨hcount, heq⟩ | ⟨_, -, heq⟩⟩
    · cases heq.symm.trans h
      exact .refl d
    · cases heq.symm.trans h
      exact balanced_dropped htable hcount
    · cases heq.symm.trans h
  · cases (kernelClose_outside hin).symm.trans h
    exact .refl d

theorem dupWith_balanced {new : ℤ} {cloexec : Bool} (h : d.dupWith e fd new cloexec = .ok (r, d')) :
    d.Balanced d' := by
  rcases dupWith_ok h with ⟨-, rfl, -⟩ | ⟨i, fp, -, -, hfirst, rfl⟩
  · exact .refl d'
  · cases cloexec with
    | false => exact balanced_shared hfirst.2.1
    | true => exact (balanced_shared hfirst.2.1).clearBit i

theorem kernelDup2_balanced {fd1 fd2 : ℤ} (h : d.kernelDup2 e fd1 fd2 = .ok (r, d')) :
    d.Balanced d' := by
  unfold kernelDup2 at h
  split at h
  next =>
    cases h
    exact .refl d
  next =>
    obtain ⟨v, -, h⟩ := bind_eq_ok.mp h
    split at h
    next =>
      cases h
      exact .refl d
    next =>
      split at h
      next =>
        cases h
        exact .refl d
      next =>
        obtain ⟨⟨r₁, d₁⟩, hclose, hdup⟩ := bind_eq_ok.mp h
        exact (kernelClose_balanced hclose).trans (dupWith_balanced hdup)

theorem kernelFcntl_balanced {cmd arg : ℤ} (h : d.kernelFcntl e fd cmd arg = .ok (r, d')) :
    d.Balanced d' := by
  unfold kernelFcntl at h
  split at h
  next =>
    cases h
    exact .refl d
  next =>
    obtain ⟨v, -, h⟩ := bind_eq_ok.mp h
    split at h
    next =>
      cases h
      exact .refl d
    next fp =>
      split_ifs at h
      · exact dupWith_balanced h
      · exact dupWith_balanced h
      · cases h
        exact .refl d
      · cases h
        exact .of_eq rfl rfl
      · cases h
        exact .of_eq rfl rfl
      · cases h
        exact .refl d
      · cases h
        exact .modifyFile rfl
      · cases h
        exact .refl d
      · cases h
        exact .refl d

theorem onlyUses_balanced {x : Except Halt (ℤ × Fds)} (h : OnlyUses d x) (hx : x = .ok (r, d')) :
    d.Balanced d' := by
  rcases h r d' hx with rfl | ⟨fp, pos, rfl⟩
  · exact .refl d'
  · exact .modifyFile rfl

/-- Every call but `kernel_open` moves the counts with the table. -/
theorem exec_balanced {c : Call} (hc : ∀ path flags mode, c ≠ .kernelOpen path flags mode)
    (h : c.exec e d = .ok (r, d')) : d.Balanced d' := by
  cases c with
  | kernelOpen path flags mode => exact (hc path flags mode rfl).elim
  | kernelRead fd buf count => exact onlyUses_balanced onlyUses_transfer h
  | kernelWrite fd buf count => exact onlyUses_balanced onlyUses_transfer h
  | kernelLseek fd => exact onlyUses_balanced onlyUses_kernelLseek h
  | kernelClose fd => exact kernelClose_balanced h
  | kernelFchmod fd => exact onlyUses_balanced onlyUses_kernelFchmod h
  | kernelFstat fd statp => exact onlyUses_balanced onlyUses_kernelFstat h
  | kernelDup fd => exact dupWith_balanced h
  | kernelDup2 fd1 fd2 => exact kernelDup2_balanced h
  | kernelFcntl fd cmd arg => exact kernelFcntl_balanced h

theorem closeFlagged_balanced {n j : ℕ} (h : d.closeFlagged n j = .ok d') : d.Balanced d' := by
  induction n generalizing d j with
  | zero =>
      cases h
      exact .refl _
  | succ n ih =>
      unfold closeFlagged at h
      split at h
      next =>
        obtain ⟨⟨r₁, d₁⟩, hclose, hrest⟩ := bind_eq_ok.mp h
        exact (kernelClose_balanced hclose).trans (ih hrest)
      next => exact ih h

theorem kernelExecve_balanced {path argv envp : BitVec 32} {x : Image}
    (h : d.kernelExecve e path argv envp x = .ok (r, d')) : d.Balanced d' := by
  rcases kernelExecve_cases h with ⟨rfl, -⟩ | hclose
  · exact .refl d'
  · exact closeFlagged_balanced hclose

theorem closeAll_ok {n j : ℕ} (hj : j + n ≤ nrOpen) (h : d.closeAll n j = .ok d') :
    d.Balanced d' ∧
      ∀ k : Fin nrOpen, d'.table k = if j ≤ k ∧ (k : ℕ) < j + n then none else d.table k := by
  induction n generalizing d j with
  | zero =>
      cases h
      exact ⟨.refl _, fun k => (if_neg fun hk => by omega).symm⟩
  | succ n ih =>
      have hlt : j < nrOpen := by omega
      unfold closeAll at h
      rw [slot_fin d ⟨j, hlt⟩, ok_bind] at h
      split at h
      next hnone =>
        obtain ⟨hbal, htable⟩ := ih (by omega) h
        refine ⟨hbal, fun k => ?_⟩
        rw [htable]
        by_cases hk : (k : ℕ) = j
        · rw [show k = ⟨j, hlt⟩ from Fin.ext hk, hnone, ite_self, ite_self]
        · exact if_congr ⟨fun h => ⟨by omega, by omega⟩, fun h => ⟨by omega, by omega⟩⟩ rfl rfl
      next fp hsome =>
        obtain ⟨⟨r₁, d₁⟩, hclose, hrest⟩ := bind_eq_ok.mp h
        obtain ⟨hbal, htable⟩ := ih (by omega) hrest
        refine ⟨(kernelClose_balanced hclose).trans hbal, fun k => ?_⟩
        rw [htable, (kernelClose_ok hclose).2]
        by_cases hk : (k : ℕ) = j
        · rw [if_pos (c := ((k : ℕ) : ℤ) = (j : ℕ)) (by omega), ite_self,
            if_pos ⟨hk.ge, by omega⟩]
        · rw [if_neg (c := ((k : ℕ) : ℤ) = (j : ℕ)) (by omega)]
          exact if_congr ⟨fun h => ⟨by omega, by omega⟩, fun h => ⟨by omega, by omega⟩⟩ rfl rfl

theorem countAgain_spec (d : Fds) (is : List (Fin nrOpen)) :
    (d.countAgain is).table = d.table ∧ (d.countAgain is).closeOnExec = d.closeOnExec ∧
      ∀ fp, (d.countAgain is).counts fp =
        d.counts fp + (is.map fun i => if d.table i = some fp then 1 else 0).sum := by
  induction is generalizing d with
  | nil => exact ⟨rfl, rfl, fun fp => rfl⟩
  | cons i is ih =>
      unfold countAgain
      cases hi : d.table i with
      | none =>
          obtain ⟨htable, hword, hcounts⟩ := ih d
          refine ⟨htable, hword, fun fp => ?_⟩
          rw [hcounts, List.map_cons, List.sum_cons, hi, if_neg nofun, Nat.zero_add]
      | some fp₀ =>
          obtain ⟨htable, hword, hcounts⟩ :=
            ih (d.modifyFile fp₀ fun f => { f with fCount := f.fCount + 1 })
          refine ⟨htable, hword, fun fp => ?_⟩
          dsimp only
          rw [hcounts, counts_modifyFile, List.map_cons, List.sum_cons, hi]
          change _ + (is.map fun i => if d.table i = some fp then 1 else 0).sum = _
          by_cases hfp : fp = fp₀
          · subst hfp
            rw [Function.update_self, if_pos rfl]
            unfold counts
            dsimp only
            omega
          · rw [Function.update_of_ne hfp, if_neg fun h => hfp (Option.some.inj h).symm]
            omega

theorem countAgain_all (d : Fds) (fp : FilePtr) :
    (d.countAgain (List.finRange nrOpen)).counts fp = d.counts fp + slots d.table fp := by
  rw [(d.countAgain_spec _).2.2]
  unfold slots
  rw [Fin.sum_univ_def]

end Fds

/-! ## All processes -/

namespace System

variable {s s' : System} {p q : Slot} {d : Fds} {ev : Event} {evs : List Event}

/-- What holds in every state reached while no close sleeps. -/
structure Inv (s : System) : Prop where
  counted : s.Counted
  opening : ∀ p fd fp, s.pending p = .opening fd fp →
    s.life p = .running ∧ ∃ i : Fin nrOpen, ((i : ℕ) : ℤ) = fd ∧ s.tables p i = none
  closing : ∀ p fd, s.pending p ≠ .closing fd
  zombie : ∀ p, s.life p = .zombie → ∀ i, s.tables p i = none

theorem inv_boot : boot.Inv where
  counted := by
    intro fp
    refine (total_eq_zero_iff.mpr ?_).symm
    intro p i
    unfold owned
    split <;> nofun
  opening p fd fp h := by cases h
  closing p fd h := by cases h
  zombie p _ i := rfl

theorem owned_of_live (h : s.life p ≠ .exited) : s.owned p = s.tables p := if_neg h

theorem owned_of_exited (h : s.life p = .exited) : s.owned p = fun _ => none := if_pos h

theorem owned_congr (hlife : s'.life p = s.life p) (htable : s'.tables p = s.tables p) :
    s'.owned p = s.owned p := by
  unfold owned
  simp only [hlife, htable]

theorem setLife_self (s : System) (p : Slot) (x : Life) : (s.setLife p x).life p = x := by
  unfold setLife
  dsimp only
  rw [Function.update_self]

theorem setLife_of_ne {x : Life} (h : q ≠ p) : (s.setLife p x).life q = s.life q := by
  unfold setLife
  dsimp only
  rw [Function.update_of_ne h]

theorem put_self (s : System) (p : Slot) (d : Fds) : (s.put p d).tables p = d.table := by
  unfold put
  dsimp only
  rw [Function.update_self]

theorem put_of_ne (h : q ≠ p) : (s.put p d).tables q = s.tables q := by
  unfold put
  dsimp only
  rw [Function.update_of_ne h]

theorem owned_put (h : s.life p ≠ .exited) :
    (s.put p d).owned = Function.update s.owned p d.table := by
  funext q
  by_cases hq : q = p
  · subst hq
    have hlive : (s.put q d).life q ≠ .exited := h
    rw [Function.update_self, owned_of_live hlive]
    exact put_self s q d
  · rw [Function.update_of_ne hq]
    exact owned_congr rfl (put_of_ne hq)

theorem Counted.put (h : s.Counted) (hlive : s.life p ≠ .exited) (hd : (s.fds p).Balanced d) :
    (s.put p d).Counted := by
  unfold Counted
  rw [owned_put hlive]
  refine Conserves.total ?_ h
  rw [owned_of_live hlive]
  exact hd

theorem Inv.put (h : s.Inv) (hready : s.Ready p) (hd : (s.fds p).Balanced d) :
    (s.put p d).Inv where
  counted := h.counted.put (by rw [hready.1]; nofun) hd
  opening q fd fp hq := by
    obtain ⟨hlife, i, hi, hfree⟩ := h.opening q fd fp hq
    refine ⟨hlife, i, hi, ?_⟩
    have hne : q ≠ p := by
      rintro rfl
      cases hready.2.symm.trans hq
    exact (congrFun (put_of_ne hne) i).trans hfree
  closing := h.closing
  zombie q hq i := by
    have hne : q ≠ p := by
      rintro rfl
      cases hready.1.symm.trans hq
    exact (congrFun (put_of_ne hne) i).trans (h.zombie q hq i)

theorem Inv.after (h : s.Inv) (hready : s.Ready p) {x : Except Halt (ℤ × Fds)}
    (hx : ∀ r d, x = .ok (r, d) → (s.fds p).Balanced d) (hstep : s.after p x = some s') :
    s'.Inv := by
  unfold System.after at hstep
  split at hstep
  next r d =>
    rw [← Option.some.inj hstep]
    exact h.put hready (hx r d rfl)
  next => cases hstep

/-! ### Opening -/

theorem openStart_ok {d d' : Fds} {e : Env} {path : BitVec 32} {fd : ℤ} {fp : FilePtr}
    (h : d.openStart e path = .ok (.inr ((fd, fp), d'))) :
    (∃ i : Fin nrOpen, ((i : ℕ) : ℤ) = fd ∧ d.table i = none) ∧ d'.table = d.table ∧
      d.Balanced d' := by
  unfold Fds.openStart at h
  split at h
  next => cases h
  next =>
    split at h
    next => cases h
    next fs =>
      rcases d.findFd_cases with ⟨i, heq, hfree, -⟩ | ⟨-, heq⟩
      · rw [heq, ok_bind, if_neg (by omega)] at h
        split at h
        next => cases h
        next =>
          cases h
          exact ⟨⟨i, rfl, hfree⟩, rfl, .modifyFile rfl⟩
      · rw [heq] at h
        cases h

theorem openEnd_ok {d d' : Fds} {e : Env} {i : Fin nrOpen} {fp : FilePtr} {flags mode : BitVec 32}
    {r : ℤ} (h : d.openEnd e (i : ℕ) fp flags mode = .ok (r, d')) :
    (e.fsOpen.1 = none ∧ d.Balanced d') ∨
      e.fsOpen.1 ≠ none ∧ d'.table = Function.update d.table i (some fp) ∧
        d'.counts = Function.update d.counts fp 1 := by
  unfold Fds.openEnd at h
  dsimp only at h
  split at h
  next hnone =>
    cases h
    exact Or.inl ⟨hnone, .modifyFile rfl⟩
  next ip hsome =>
    rw [Fds.setSlot_fin, ok_bind] at h
    cases h
    refine Or.inr ⟨hsome ▸ Option.some_ne_none ip, rfl, ?_⟩
    unfold Fds.counts Fds.modifyFile
    dsimp only
    funext fp'
    by_cases hfp : fp' = fp
    · rw [hfp, Function.update_self, Function.update_self]
      exact (Function.update_self fp 1 d.counts).symm
    · rw [Function.update_of_ne hfp, Function.update_of_ne hfp]
      exact (Function.update_of_ne hfp 1 d.counts).symm

theorem Inv.startOpening (h : s.Inv) {fd : ℤ} {fp : FilePtr} (hlife : s.life p = .running)
    (hfree : ∃ i : Fin nrOpen, ((i : ℕ) : ℤ) = fd ∧ s.tables p i = none) :
    (s.sleepIn p (.opening fd fp)).Inv where
  counted := h.counted
  opening q fd' fp' hq := by
    unfold sleepIn at hq
    dsimp only at hq
    by_cases hqp : q = p
    · subst hqp
      rw [Function.update_self] at hq
      cases hq
      exact ⟨hlife, hfree⟩
    · rw [Function.update_of_ne hqp] at hq
      exact h.opening q fd' fp' hq
  closing q fd' hq := by
    unfold sleepIn at hq
    dsimp only at hq
    by_cases hqp : q = p
    · rw [hqp, Function.update_self] at hq
      cases hq
    · rw [Function.update_of_ne hqp] at hq
      exact h.closing q fd' hq
  zombie := h.zombie

theorem Inv.wake (h : s.Inv) (p : Slot) : (s.sleepIn p .nothing).Inv where
  counted := h.counted
  opening q fd fp hq := by
    unfold sleepIn at hq
    dsimp only at hq
    by_cases hqp : q = p
    · rw [hqp, Function.update_self] at hq
      cases hq
    · rw [Function.update_of_ne hqp] at hq
      exact h.opening q fd fp hq
  closing q fd hq := by
    unfold sleepIn at hq
    dsimp only at hq
    by_cases hqp : q = p
    · rw [hqp, Function.update_self] at hq
      cases hq
    · rw [Function.update_of_ne hqp] at hq
      exact h.closing q fd hq
  zombie := h.zombie

theorem ready_wake (hlife : s.life p = .running) : (s.sleepIn p .nothing).Ready p := by
  refine ⟨hlife, ?_⟩
  unfold sleepIn
  dsimp only
  rw [Function.update_self]

/-- The new slot of an entry whose count was zero. -/
theorem balanced_opened {d d' : Fds} {i : Fin nrOpen} {fp : FilePtr} (hfree : d.table i = none)
    (hcount : d.counts fp = 0) (htable : d'.table = Function.update d.table i (some fp))
    (hcounts : d'.counts = Function.update d.counts fp 1) : d.Balanced d' := by
  have hshared : d.Balanced (d.shared i fp) := Fds.balanced_shared hfree
  unfold Fds.Balanced at hshared ⊢
  rwa [Fds.counts_shared, Fds.table_shared, hcount, Nat.zero_add, ← htable, ← hcounts] at hshared

/-- A second open of an entry sets its count back to one. -/
theorem not_counted_opened {i : Fin nrOpen} {fp : FilePtr} (h : s.Counted)
    (hlive : s.life p ≠ .exited) (hfree : s.tables p i = none) (hcount : (s.files fp).fCount ≠ 0)
    (htable : d.table = Function.update (s.tables p) i (some fp))
    (hcounts : d.counts = Function.update (s.fds p).counts fp 1) : ¬(s.put p d).Counted := by
  intro hafter
  have hnew := hafter fp
  have hone : ((s.put p d).files fp).fCount = 1 :=
    (congrFun hcounts fp).trans (Function.update_self fp 1 _)
  have htotal := total_update s.owned p d.table fp
  have hslots := slots_update (s.tables p) i (some fp) fp
  rw [hfree, if_neg (c := none = some fp) nofun, Nat.add_zero, if_pos rfl, ← htable] at hslots
  rw [owned_of_live hlive, hslots] at htotal
  rw [owned_put hlive] at hnew
  have hold := h fp
  omega

/-- A close which sleeps has taken the count down, with the slot still there. -/
theorem not_counted_closing {fp : FilePtr} (h : s.Counted) (hlive : s.life p ≠ .exited)
    (hcount : (s.files fp).fCount ≠ 0) (htable : d.table = s.tables p)
    (hcounts : d.counts = Function.update (s.fds p).counts fp ((s.files fp).fCount - 1)) :
    ¬(s.put p d).Counted := by
  intro hafter
  have hnew := hafter fp
  have hone : ((s.put p d).files fp).fCount = (s.files fp).fCount - 1 :=
    (congrFun hcounts fp).trans (Function.update_self fp _ _)
  have htotal := total_update s.owned p d.table fp
  rw [owned_of_live hlive, htable] at htotal
  rw [owned_put hlive, htable] at hnew
  have hold := h fp
  omega

/-! ### Processes -/

/-- A process without descriptors ends, or is waited for. -/
theorem Inv.setLife {x : Life} (h : s.Inv) (htable : ∀ i, s.tables p i = none)
    (hpending : ∀ fd fp, s.pending p ≠ .opening fd fp) :
    (s.setLife p x).Inv where
  counted := by
    have howned : (s.setLife p x).owned = s.owned := by
      funext q
      by_cases hq : q = p
      · subst hq
        have hnone : s.tables q = fun _ => none := funext htable
        unfold owned
        rw [show (s.setLife q x).tables q = s.tables q from rfl, hnone]
        split <;> split <;> rfl
      · exact owned_congr (setLife_of_ne hq) rfl
    unfold Counted
    rw [howned]
    exact h.counted
  opening q fd fp hq := by
    have hne : q ≠ p := by
      rintro rfl
      exact hpending fd fp hq
    obtain ⟨hlife, hfree⟩ := h.opening q fd fp hq
    exact ⟨(setLife_of_ne hne).trans hlife, hfree⟩
  closing := h.closing
  zombie q hq := by
    by_cases hqp : q = p
    · subst hqp
      exact htable
    · exact h.zombie q ((setLife_of_ne hqp).symm.trans hq)

/-- The table of an exited slot counts for nothing. -/
theorem owned_put_exited (h : s.life q = .exited) : (s.put q d).owned = s.owned := by
  funext r
  by_cases hr : r = q
  · subst hr
    have hexited : (s.put r d).life r = .exited := h
    rw [owned_of_exited hexited, owned_of_exited h]
  · exact owned_congr rfl (put_of_ne hr)

/-- A fork which does not get its page tables leaves a stale table in an exited slot. -/
theorem Inv.forkFailed (h : s.Inv) (hlife : s.life q = .exited) (hfiles : d.files = s.files) :
    (s.put q d).Inv where
  counted := by
    unfold Counted
    rw [owned_put_exited hlife]
    intro fp
    exact (congrArg (fun files => (files fp).fCount) hfiles).trans (h.counted fp)
  opening r fd fp hr := by
    obtain ⟨hrun, i, hi, hfree⟩ := h.opening r fd fp hr
    refine ⟨hrun, i, hi, ?_⟩
    have hne : r ≠ q := by
      rintro rfl
      cases hlife.symm.trans hrun
    exact (congrFun (put_of_ne hne) i).trans hfree
  closing := h.closing
  zombie r hr i := by
    have hne : r ≠ q := by
      rintro rfl
      cases hlife.symm.trans hr
    exact (congrFun (put_of_ne hne) i).trans (h.zombie r hr i)

/-- A child gets a copy of the table, and every slot of it is counted. -/
theorem Inv.forked (h : s.Inv) (hready : s.Ready p) (hlife : s.life q = .exited)
    (htable : d.table = s.tables p)
    (hcounts : ∀ fp, d.counts fp = (s.files fp).fCount + slots (s.tables p) fp) :
    (((s.put q (s.fds p)).setLife q .running).put p d).Inv := by
  have hne : p ≠ q := by
    rintro rfl
    cases hlife.symm.trans hready.1
  have hlive : ((s.put q (s.fds p)).setLife q .running).life p ≠ .exited := by
    rw [setLife_of_ne hne]
    exact fun hexited => nomatch hready.1.symm.trans hexited
  have howned : ((s.put q (s.fds p)).setLife q .running).owned =
      Function.update s.owned q (s.tables p) := by
    funext r
    by_cases hr : r = q
    · subst hr
      rw [Function.update_self, owned_of_live (by rw [setLife_self]; nofun)]
      exact put_self s r (s.fds p)
    · rw [Function.update_of_ne hr]
      exact owned_congr (setLife_of_ne hr) (put_of_ne hr)
  have htables : ∀ r i, r ≠ q →
      (((s.put q (s.fds p)).setLife q .running).put p d).tables r i = s.tables r i := by
    intro r i hr
    by_cases hrp : r = p
    · subst hrp
      rw [put_self, htable]
    · rw [put_of_ne hrp]
      exact congrFun (put_of_ne hr) i
  have hlives : ∀ r, r ≠ q →
      (((s.put q (s.fds p)).setLife q .running).put p d).life r = s.life r :=
    fun r hr => setLife_of_ne hr
  constructor
  · intro fp
    have hold := total_update s.owned q (s.tables p) fp
    rw [owned_of_exited hlife, slots_eq_zero_iff.mpr fun _ => (Option.some_ne_none fp).symm] at hold
    have hself : Function.update s.owned q (s.tables p) p = d.table := by
      rw [Function.update_of_ne hne, htable, owned_of_live (by rw [hready.1]; nofun)]
    rw [owned_put hlive, howned, ← hself, Function.update_eq_self]
    have hcount := hcounts fp
    have hbefore := h.counted fp
    change d.counts fp = _
    omega
  · intro r fd fp hr
    obtain ⟨hrun, i, hi, hfree⟩ := h.opening r fd fp hr
    have hrq : r ≠ q := by
      rintro rfl
      cases hlife.symm.trans hrun
    exact ⟨(hlives r hrq).trans hrun, i, hi, (htables r i hrq).trans hfree⟩
  · exact h.closing
  · intro r hr i
    by_cases hrq : r = q
    · subst hrq
      cases (setLife_self (s.put r (s.fds p)) r .running).symm.trans hr
    · exact (htables r i hrq).trans (h.zombie r ((hlives r hrq).symm.trans hr) i)

/-! ### Steps -/

theorem Inv.openStart {e : Env} {path : BitVec 32} {fd : ℤ} {fp : FilePtr} (h : s.Inv)
    (hready : s.Ready p) (heq : (s.fds p).openStart e path = .ok (.inr ((fd, fp), d))) :
    ((s.put p d).sleepIn p (.opening fd fp)).Inv := by
  obtain ⟨⟨i, hi, hfree⟩, htable, hbal⟩ := openStart_ok heq
  refine (h.put hready hbal).startOpening hready.1 ⟨i, hi, ?_⟩
  rw [put_self, htable]
  exact hfree

theorem fds_sleepIn (s : System) (p q : Slot) (x : Pending) : (s.sleepIn p x).fds q = s.fds q := rfl

theorem Inv.openEnd {e : Env} {flags mode : BitVec 32} {i : Fin nrOpen} {fp : FilePtr} (h : s.Inv)
    (hlife : s.life p = .running) (hfree : s.tables p i = none)
    (hsafe : e.fsOpen.1 ≠ none → (s.files fp).fCount = 0)
    (hstep : (s.sleepIn p .nothing).after p ((s.fds p).openEnd e (i : ℕ) fp flags mode) = some s') :
    s'.Inv := by
  refine (h.wake p).after (ready_wake hlife) ?_ hstep
  intro r d heq
  rw [fds_sleepIn]
  rcases openEnd_ok heq with ⟨-, hbal⟩ | ⟨hsome, htable, hcounts⟩
  · exact hbal
  · exact balanced_opened (d := s.fds p) hfree (hsafe hsome) htable hcounts

theorem Counted.unreferenced {fp : FilePtr} {i : Fin nrOpen} (h : s.Counted)
    (hcount : (s.files fp).fCount = 0) (hlive : s.life q ≠ .exited) : s.tables q i ≠ some fp := by
  rw [h fp] at hcount
  have hnone := total_eq_zero_iff.mp hcount q i
  rwa [owned_of_live hlive] at hnone

theorem Inv.fork (h : s.Inv) (hready : s.Ready p) (hlife : s.life q = .exited) :
    (((s.put q (s.fds p)).setLife q .running).put p
      (((s.put q (s.fds p)).fds p).countAgain (List.finRange nrOpen))).Inv := by
  have hne : p ≠ q := by
    rintro rfl
    cases hlife.symm.trans hready.1
  have htable : ((s.put q (s.fds p)).fds p).table = s.tables p := put_of_ne hne
  refine h.forked hready hlife ?_ ?_
  · exact (Fds.countAgain_spec _ _).1.trans htable
  · intro fp
    rw [Fds.countAgain_all, htable]
    rfl

theorem Inv.exit {x : Life} (h : s.Inv) (hready : s.Ready p)
    (hd : (s.fds p).closeAll nrOpen 0 = .ok d) : ((s.put p d).setLife p x).Inv := by
  obtain ⟨hbal, htable⟩ := Fds.closeAll_ok le_rfl hd
  refine (h.put hready hbal).setLife ?_ ?_
  · intro i
    rw [put_self, htable, if_pos ⟨Nat.zero_le _, by have := i.isLt; omega⟩]
  · intro fd fp hpending
    cases hready.2.symm.trans hpending

theorem Inv.reap (h : s.Inv) (hzombie : s.life q = .zombie) : (s.setLife q .exited).Inv := by
  refine h.setLife (h.zombie q hzombie) ?_
  intro fd fp hpending
  cases hzombie.symm.trans (h.opening q fd fp hpending).1

theorem Inv.step (h : s.Inv) (hsafe : s.SafeStep ev) (hstep : s.step ev = some s') : s'.Inv := by
  unfold System.step at hstep
  cases ev with
  | openStart p e path =>
      dsimp only at hstep
      split at hstep
      next hready =>
        split at hstep
        next => exact Option.some.inj hstep ▸ h
        next heq => exact Option.some.inj hstep ▸ h.openStart hready heq
        next => cases hstep
      next => cases hstep
  | openEnd p e flags mode =>
      dsimp only at hstep
      split at hstep
      next fd fp hpending =>
        obtain ⟨hlife, i, rfl, hfree⟩ := h.opening p fd fp hpending
        exact h.openEnd hlife hfree (hsafe _ fp hpending) hstep
      next => cases hstep
  | call p e c =>
      dsimp only at hstep
      split at hstep
      next hready =>
        split at hstep
        next => cases hstep
        next hopen => exact h.after hready (fun r d => Fds.exec_balanced hopen) hstep
      next => cases hstep
  | closeStart p fd => exact hsafe.elim
  | closeEnd p =>
      dsimp only at hstep
      split at hstep
      next fd hpending => exact (h.closing p fd hpending).elim
      next => cases hstep
  | fork p q copied =>
      dsimp only at hstep
      split at hstep
      next hen =>
        split at hstep
        next => exact Option.some.inj hstep ▸ h.fork hen.1 hen.2
        next => exact Option.some.inj hstep ▸ h.forkFailed hen.2 rfl
      next => cases hstep
  | execve p e path argv envp x =>
      dsimp only at hstep
      split at hstep
      next hready => exact h.after hready (fun r d => Fds.kernelExecve_balanced) hstep
      next => cases hstep
  | exit p orphan =>
      dsimp only at hstep
      split at hstep
      next hready =>
        split at hstep
        next heq => exact Option.some.inj hstep ▸ h.exit hready heq
        next => cases hstep
      next => cases hstep
  | reap q =>
      dsimp only at hstep
      split at hstep
      next hzombie => exact Option.some.inj hstep ▸ h.reap hzombie
      next => cases hstep

theorem Inv.yieldsFresh (h : s.Inv) (hsafe : s.SafeStep ev) : s.YieldsFresh ev := by
  cases ev with
  | openEnd p e flags mode =>
      intro fd fp hpending hsome q i hlive
      exact h.counted.unreferenced (hsafe fd fp hpending hsome) hlive
  | _ => trivial

/-- An open on an entry in use, and a close which sleeps, each lose a count. -/
theorem Inv.not_counted_openEnd {e : Env} {flags mode : BitVec 32} {i : Fin nrOpen} {fp : FilePtr}
    (h : s.Inv) (hlife : s.life p = .running) (hfree : s.tables p i = none)
    (hsome : e.fsOpen.1 ≠ none) (hcount : (s.files fp).fCount ≠ 0)
    (hstep : (s.sleepIn p .nothing).after p ((s.fds p).openEnd e (i : ℕ) fp flags mode) = some s') :
    ¬s'.Counted := by
  unfold System.after at hstep
  split at hstep
  next r d heq =>
    rw [← Option.some.inj hstep]
    have hlive : (s.sleepIn p .nothing).life p ≠ .exited := by
      rw [(ready_wake hlife).1]
      nofun
    rcases openEnd_ok heq with ⟨hnone, -⟩ | ⟨-, htable, hcounts⟩
    · exact (hsome hnone).elim
    · exact not_counted_opened (h.wake p).counted hlive hfree hcount htable hcounts
  next => cases hstep

theorem Inv.not_counted_closeStart {fd : ℤ} (h : s.Inv) (hlife : s.life p = .running)
    (heq : (s.fds p).closeStart fd = .ok (.inr d)) : ¬(s.put p d).Counted := by
  have hlive : s.life p ≠ .exited := by
    rw [hlife]
    nofun
  by_cases hin : InTable fd
  · obtain ⟨i, rfl⟩ := Fds.exists_fin hin
    rcases (s.fds p).closeStart_cases i with ⟨-, hc⟩ | ⟨fp, -, ⟨hcount, hc⟩ | ⟨_, -, hc⟩⟩
    · cases hc.symm.trans heq
    · rw [← Sum.inr.inj (Except.ok.inj (hc.symm.trans heq))]
      refine not_counted_closing h.counted hlive hcount (Fds.table_modifyFile _ fp _) ?_
      rw [Fds.counts_modifyFile]
      rfl
    · cases hc.symm.trans heq
  · unfold Fds.closeStart at heq
    rw [if_pos (by unfold InTable at hin; omega)] at heq
    cases heq

/-- A step which does not meet its condition loses a count. -/
theorem Inv.safeStep_of_counted (h : s.Inv) (hstep : s.step ev = some s') (hafter : s'.Counted) :
    s.SafeStep ev := by
  unfold System.step at hstep
  cases ev with
  | openEnd p e flags mode =>
      intro fd fp hpending hsome
      by_contra hcount
      obtain ⟨hlife, i, rfl, hfree⟩ := h.opening p fd fp hpending
      dsimp only at hstep
      rw [hpending] at hstep
      exact h.not_counted_openEnd hlife hfree hsome hcount hstep hafter
  | closeStart p fd =>
      dsimp only at hstep
      split at hstep
      next hen =>
        split at hstep
        next d heq =>
          rw [← Option.some.inj hstep] at hafter
          exact h.not_counted_closeStart hen.1.1 heq hafter
        next => cases hstep
      next => cases hstep
  | _ => trivial

theorem CountedRun.counted (h : s.CountedRun evs) : s.Counted := by
  cases evs with
  | nil => exact h
  | cons ev evs => exact h.1

theorem Inv.countedRun_iff_safeRun (h : s.Inv) : s.CountedRun evs ↔ s.SafeRun evs := by
  induction evs generalizing s with
  | nil => exact iff_of_true h.counted trivial
  | cons ev evs ih =>
      constructor
      · rintro ⟨-, hrun⟩ s' hstep
        have hrest := (hrun s' hstep).2
        have hsafe := h.safeStep_of_counted hstep hrest.counted
        exact ⟨hsafe, (ih (h.step hsafe hstep)).mp hrest⟩
      · intro hsafe
        refine ⟨h.counted, fun s' hstep => ?_⟩
        obtain ⟨hsafe₁, hrest⟩ := hsafe s' hstep
        exact ⟨h.yieldsFresh hsafe₁, (ih (h.step hsafe₁ hstep)).mpr hrest⟩

/-- Along a run every count is right and every open yields an entry of its own, exactly if no
open succeeds on an entry which has come into use while it slept, and no close sleeps. -/
theorem countedRun_iff (evs : List Event) : boot.CountedRun evs ↔ boot.SafeRun evs :=
  inv_boot.countedRun_iff_safeRun

/-- Process 0 and its child are both in `fs_open` when the first of the two comes back. -/
theorem not_countedRun_two_opens : ¬∀ evs, boot.CountedRun evs := by
  intro h
  have hrun := h [.fork ⟨0, by decide⟩ ⟨1, by decide⟩ true, .openStart ⟨0, by decide⟩ .plain 0x8000000,
    .openStart ⟨1, by decide⟩ .plain 0x8000000, .openEnd ⟨0, by decide⟩ .plain 0 0,
    .openEnd ⟨1, by decide⟩ .plain 0 0]
  obtain ⟨-, hrun⟩ := hrun.2 _ rfl
  obtain ⟨-, hrun⟩ := hrun.2 _ rfl
  obtain ⟨-, hrun⟩ := hrun.2 _ rfl
  obtain ⟨-, hrun⟩ := hrun.2 _ rfl
  obtain ⟨hfresh, -⟩ := hrun.2 _ rfl
  exact hfresh 0 ⟨0, by decide⟩ rfl nofun ⟨0, by decide⟩ ⟨0, by decide⟩ nofun rfl

end System

end Yak.Files
