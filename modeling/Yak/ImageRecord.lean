import Yak.Reproduction
import Yak.Teardown

/-!
# The image which a process remembers

`elf32_load_elf` fills an image of its caller, and `arch_exec_elf` does not keep it.  So the image
of each process stays the one which `processes_init` has made for the first process, whatever
programs are run.
-/

namespace Yak.Exec

open Paging (Allocator Machine)
open Paging.Machine (Filtered)
open Process (Slot)
open Files (Env Fds)

/-! ## Processes and their programs -/

/-- A process, as far as `execve` goes.  The kernel does not have `program`: it is the image that
the last successful call has loaded. -/
structure Task where
  nextCr3 : BitVec 32
  eip : BitVec 32
  esp : BitVec 32
  image : ExecImage
  fds : Fds
  program : Option ExecImage

structure Tasks where
  machine : Machine
  task : Slot → Option Task

/-- The arguments of `kernel_execve`, with the file and the strings they stand for. -/
structure ExecCall where
  env : Env
  path : BitVec 32
  argv : BitVec 32
  envp : BitVec 32
  file : ExecFile
  strings : Strings

def Task.caller (q : Task) (m : Machine) (cr3 : BitVec 32) : Caller :=
  ⟨m, cr3, q.nextCr3, q.eip, q.esp, q.image, q.fds⟩

def Caller.call (s : Caller) (k : Kernel) (call : ExecCall) : Except Stop (ℤ × Caller) :=
  s.kernelExecve k call.env call.path call.argv call.envp call.file call.strings

/-- The image of the program that a call with this result has loaded. -/
def loaded (x : ExecFile) (ret : ℤ) : Option ExecImage :=
  if ret = 0 ∧ x.namei.1.isSome then x.ehdr.map fun hdr => (segments x hdr).image else none

/-- The process after the call. -/
def Task.returned (q : Task) (c : Caller) (x : ExecFile) (ret : ℤ) : Task where
  nextCr3 := c.nextCr3
  eip := c.eip
  esp := c.esp
  image := c.image
  fds := c.fds
  program := (loaded x ret).or q.program

inductive Event where
  | execve (p : Slot) (call : ExecCall)
  | fork (p child : Slot)
  | fault (p : Slot) (error addr : BitVec 32)
  | exit (p : Slot)
  /-- anything that leaves the images alone -/
  | other

/-- What a process does next.  Where a call of `execve` ends with `kernel_exit(SIGSEGV)`, the memory
may be any. -/
inductive Step (k : Kernel) : Tasks → Event → Tasks → Prop where
  | execve {s : Tasks} {p : Slot} {call : ExecCall} {cr3 : BitVec 32} {q : Task} {ret : ℤ}
      {c : Caller} (hcr3 : s.machine.cr3 p = some cr3) (hq : s.task p = some q)
      (hrun : (q.caller s.machine cr3).call k call = .ok (ret, c)) :
      Step k s (.execve p call)
        ⟨c.machine, Function.update s.task p (some (q.returned c call.file ret))⟩
  | killed {s : Tasks} {p : Slot} {call : ExecCall} {cr3 : BitVec 32} {q : Task} (m : Machine)
      (hcr3 : s.machine.cr3 p = some cr3) (hq : s.task p = some q)
      (hrun : (q.caller s.machine cr3).call k call = .error .terminated) :
      Step k s (.execve p call) ⟨m, Function.update s.task p none⟩
  | fork {s : Tasks} {p child : Slot} {cr3 : BitVec 32} {q : Task} {m : Machine}
      (hcr3 : s.machine.cr3 p = some cr3) (hq : s.task p = some q) (hfree : s.task child = none)
      (hrun : s.machine.archFork p child cr3 k.alloc = .ok (some m)) :
      Step k s (.fork p child) ⟨m, Function.update s.task child (some q)⟩
  | resolved {s : Tasks} {p : Slot} {error addr cr3 : BitVec 32} {q : Task}
      (hcr3 : s.machine.cr3 p = some cr3) (hq : s.task p = some q)
      (hrun : (s.machine.handlePageFault q.image.toExecImage cr3 error addr k.alloc).ending =
        .returned) :
      Step k s (.fault p error addr)
        ⟨(s.machine.handlePageFault q.image.toExecImage cr3 error addr k.alloc).machine, s.task⟩
  | faulted {s : Tasks} {p : Slot} {error addr cr3 : BitVec 32} {q : Task} {m : Machine}
      (hcr3 : s.machine.cr3 p = some cr3) (hq : s.task p = some q)
      (hrun : (s.machine.handlePageFault q.image.toExecImage cr3 error addr k.alloc).ending =
        .terminated)
      (hfree : freeAddressSpace pageFrameFree q.image cr3
        (s.machine.handlePageFault q.image.toExecImage cr3 error addr k.alloc).machine = .ok m) :
      Step k s (.fault p error addr) ⟨m.left p, Function.update s.task p none⟩
  | exit {s : Tasks} {p : Slot} {cr3 : BitVec 32} {q : Task} {m : Machine}
      (hcr3 : s.machine.cr3 p = some cr3) (hq : s.task p = some q)
      (hfree : freeAddressSpace pageFrameFree q.image cr3 s.machine = .ok m) :
      Step k s (.exit p) ⟨m.left p, Function.update s.task p none⟩
  | other {s t : Tasks}
      (himage : ∀ p, (t.task p).map (fun q => (q.image, q.program)) =
        (s.task p).map fun q => (q.image, q.program)) :
      Step k s .other t

/-- The steps of a run, with the states after them. -/
def IsRun (k : Kernel) : Tasks → List (Event × Tasks) → Prop
  | _, [] => True
  | s, (e, t) :: rest => Step k s e t ∧ IsRun k t rest

theorem Step.one {k : Kernel} {s t : Tasks} {e : Event} (h : Step k s e t) : IsRun k s [(e, t)] :=
  ⟨h, trivial⟩

/-- The image of each process that has run a program is that of the program, so the page fault
handler refuses the writes to it, and its segments are freed in the end. -/
def Remembers (s : Tasks) : Prop :=
  ∀ p q g, s.task p = some q → q.program = some g → q.image = g ∧
    (∀ error addr, Filtered q.image.toExecImage error addr ↔
      Filtered g.toExecImage error addr) ∧
    ∀ cr3 m, freeAddressSpace pageFrameFree q.image cr3 m = freeAddressSpace pageFrameFree g cr3 m

def AlwaysRemembers (s : Tasks) (steps : List (Event × Tasks)) : Prop :=
  Remembers s ∧ ∀ step ∈ steps, Remembers step.2

/-- If the call succeeds, it has loaded a program with this image. -/
def LoadsOnly (boot : ExecImage) (k : Kernel) (s : Tasks) : Event → Prop
  | .execve p call => ∀ cr3 q c g, s.machine.cr3 p = some cr3 → s.task p = some q →
      (q.caller s.machine cr3).call k call = .ok (0, c) → loaded call.file 0 = some g → g = boot
  | _ => True

def RunLoadsOnly (boot : ExecImage) (k : Kernel) : Tasks → List (Event × Tasks) → Prop
  | _, [] => True
  | s, (e, t) :: rest => LoadsOnly boot k s e ∧ RunLoadsOnly boot k t rest

/-- The processes have the image which `processes_init` has made, and have run no program. -/
def Boot (boot : ExecImage) (s : Tasks) : Prop :=
  ∀ p q, s.task p = some q → q.image = boot ∧ q.program = none

/-! ## The images do not change -/

variable {k : Kernel} {x : ExecFile} {strings : Strings} {hdr : ElfEhdr} {ret : ℤ}
  {c c' : Caller} {call : ExecCall} {boot : ExecImage} {s t : Tasks} {e : Event} {p : Slot}

namespace Caller

theorem execImage_image (h : c.execImage k x strings hdr = .ok (ret, c')) :
    c'.image = c.image := by
  unfold execImage at h
  obtain ⟨⟨m, nextCr3⟩, -, h⟩ := bind_eq_ok.mp h
  obtain ⟨m₁, -, h⟩ := bind_eq_ok.mp h
  obtain ⟨m₂, -, h⟩ := bind_eq_ok.mp h
  obtain ⟨m₃, -, h⟩ := bind_eq_ok.mp h
  obtain ⟨m₄, -, h⟩ := bind_eq_ok.mp h
  obtain ⟨-, rfl⟩ := Prod.mk.inj (Except.ok.inj h)
  rfl

theorem call_image (h : c.call k call = .ok (ret, c')) : c'.image = c.image := by
  rcases kernelExecve_cases h with ⟨rfl, -⟩ | ⟨-, c₁, fds, harch, -, rfl⟩
  · rfl
  · rcases archExecElf_cases harch with ⟨rfl, -⟩ | ⟨hdr, -, hexec⟩
    · rfl
    · have himage : c₁.image = c.image := execImage_image hexec
      exact himage

end Caller

/-- All processes have this image. -/
def AllHave (boot : ExecImage) (s : Tasks) : Prop := ∀ p q, s.task p = some q → q.image = boot

/-- No process has run a program with another image. -/
def OnlyRan (boot : ExecImage) (s : Tasks) : Prop :=
  ∀ p q g, s.task p = some q → q.program = some g → g = boot

theorem Boot.allHave (h : Boot boot s) : AllHave boot s := fun p q hq => (h p q hq).1

theorem Boot.onlyRan (h : Boot boot s) : OnlyRan boot s := by
  intro p q g hq hg
  rw [(h p q hq).2] at hg
  cases hg

theorem task_of_update {r : Slot} {q : Task} {new : Option Task} {task : Slot → Option Task}
    (h : Function.update task p new r = some q) : new = some q ∨ task r = some q := by
  by_cases hr : r = p
  · subst hr
    rw [Function.update_self] at h
    exact Or.inl h
  · rw [Function.update_of_ne hr] at h
    exact Or.inr h

/-- What holds of the images and programs of all processes does so after a step, if it does for a
call of `execve` which returns. -/
theorem Step.forall_task {P : ExecImage → Option ExecImage → Prop} (hstep : Step k s e t)
    (h : ∀ p q, s.task p = some q → P q.image q.program)
    (hcall : ∀ p call cr3 q ret c, e = .execve p call → s.machine.cr3 p = some cr3 →
      s.task p = some q → (q.caller s.machine cr3).call k call = .ok (ret, c) →
      P c.image ((loaded call.file ret).or q.program)) :
    ∀ p q, t.task p = some q → P q.image q.program := by
  intro r q' hq'
  cases hstep with
  | execve hcr3 hq hrun =>
      rcases task_of_update hq' with hnew | hold
      · obtain rfl := Option.some.inj hnew
        exact hcall _ _ _ _ _ _ rfl hcr3 hq hrun
      · exact h r q' hold
  | killed =>
      rcases task_of_update hq' with hnew | hold
      · cases hnew
      · exact h r q' hold
  | fork hcr3 hq =>
      rcases task_of_update hq' with hnew | hold
      · obtain rfl := Option.some.inj hnew
        exact h _ _ hq
      · exact h r q' hold
  | resolved => exact h r q' hq'
  | faulted =>
      rcases task_of_update hq' with hnew | hold
      · cases hnew
      · exact h r q' hold
  | exit =>
      rcases task_of_update hq' with hnew | hold
      · cases hnew
      · exact h r q' hold
  | other himage =>
      have hsame := himage r
      rw [hq', Option.map_some] at hsame
      obtain ⟨q, hq, heq⟩ := Option.map_eq_some_iff.mp hsame.symm
      obtain ⟨himage, hprogram⟩ := Prod.mk.inj heq
      rw [← himage, ← hprogram]
      exact h r q hq

theorem AllHave.step (h : AllHave boot s) (hstep : Step k s e t) : AllHave boot t :=
  hstep.forall_task (P := fun image _ => image = boot) h
    fun p _ _ q _ _ _ _ hq hrun => (Caller.call_image hrun).trans (h p q hq)

theorem OnlyRan.step (h : OnlyRan boot s) (hstep : Step k s e t) (hloads : LoadsOnly boot k s e) :
    OnlyRan boot t := by
  have hall := hstep.forall_task (P := fun _ program => ∀ g, program = some g → g = boot)
    (fun p q hq g => h p q g hq) fun p call cr3 q ret c he hcr3 hq hrun g hg => ?_
  · exact fun p q g hq => hall p q hq g
  · subst he
    rcases Option.or_eq_some_iff.mp hg with hnew | ⟨-, hold⟩
    · have hzero : ret = 0 := by
        unfold loaded at hnew
        split at hnew
        next hh => exact hh.1
        next => cases hnew
      subst hzero
      exact hloads cr3 q c g hcr3 hq hrun hnew
    · exact h p q g hq hold

theorem OnlyRan.remembers (h : OnlyRan boot s) (hall : AllHave boot s) : Remembers s := by
  intro p q g hq hg
  obtain rfl := h p q g hq hg
  obtain rfl := hall p q hq
  exact ⟨rfl, fun _ _ => Iff.rfl, fun _ _ => rfl⟩

theorem Remembers.onlyRan (h : Remembers s) (hall : AllHave boot s) : OnlyRan boot s := by
  intro p q g hq hg
  rw [← (h p q g hq hg).1]
  exact hall p q hq

/-- After a step which has loaded another program, a process has run one. -/
theorem OnlyRan.loadsOnly (h : OnlyRan boot t) (hstep : Step k s e t) : LoadsOnly boot k s e := by
  cases hstep with
  | @execve p call cr3 q ret c hcr3 hq hrun =>
      intro cr3' q' c' g hcr3' hq' hrun' hg
      obtain rfl := Option.some.inj (hcr3.symm.trans hcr3')
      obtain rfl := Option.some.inj (hq.symm.trans hq')
      obtain ⟨rfl, rfl⟩ := Prod.mk.inj (Except.ok.inj (hrun.symm.trans hrun'))
      refine h p _ g (Function.update_self ..) ?_
      change (loaded call.file 0).or q.program = some g
      rw [hg, Option.some_or]
  | @killed p call cr3 q _ hcr3 hq hrun =>
      intro cr3' q' c' g hcr3' hq' hrun' _
      obtain rfl := Option.some.inj (hcr3.symm.trans hcr3')
      obtain rfl := Option.some.inj (hq.symm.trans hq')
      cases hrun.symm.trans hrun'
  | fork => trivial
  | resolved => trivial
  | faulted => trivial
  | exit => trivial
  | other => trivial

theorem AllHave.always_iff {steps : List (Event × Tasks)} (hall : AllHave boot s)
    (hran : OnlyRan boot s) (hrun : IsRun k s steps) :
    AlwaysRemembers s steps ↔ RunLoadsOnly boot k s steps := by
  induction steps generalizing s with
  | nil => exact ⟨fun _ => trivial, fun _ => ⟨hran.remembers hall, fun _ h => by cases h⟩⟩
  | cons step rest ih =>
      obtain ⟨e, t⟩ := step
      obtain ⟨hstep, hrest⟩ := hrun
      have hall' := hall.step hstep
      constructor
      · rintro ⟨-, hremember⟩
        have ht := hremember (e, t) (List.mem_cons_self ..)
        have hran' := ht.onlyRan hall'
        exact ⟨hran'.loadsOnly hstep, (ih hall' hran' hrest).mp
          ⟨ht, fun step hmem => hremember step (List.mem_cons_of_mem _ hmem)⟩⟩
      · rintro ⟨hloads, hmore⟩
        obtain ⟨ht, hremember⟩ := (ih hall' (hran.step hstep hloads) hrest).mpr hmore
        refine ⟨hran.remembers hall, fun step hmem => ?_⟩
        rcases List.mem_cons.mp hmem with rfl | hmem
        · exact ht
        · exact hremember step hmem

/-- In a run from the boot, the processes remember their programs in all states exactly if each
call of `execve` which succeeds loads a program with the image of the first process. -/
theorem alwaysRemembers_iff {steps : List (Event × Tasks)} (hboot : Boot boot s)
    (hrun : IsRun k s steps) : AlwaysRemembers s steps ↔ RunLoadsOnly boot k s steps :=
  hboot.allHave.always_iff hboot.onlyRan hrun

/-! ## The first process -/

def firstSlot : Slot := ⟨0, Process.zero_lt_nrProc⟩

def firstTask : Task :=
  ⟨firstCaller.nextCr3, firstCaller.eip, firstCaller.esp, firstCaller.image, firstCaller.fds, none⟩

def firstTasks : Tasks := ⟨fullMachine, fun p => if p = firstSlot then some firstTask else none⟩

/-- A call of `execve` for this file. -/
def callOf (path : BitVec 32) : ExecCall :=
  ⟨Caller.env, path, 8#32, 12#32, dataFile 2#32, oneString⟩

theorem boot_firstTasks : Boot firstCaller.image firstTasks := by
  intro p q hq
  obtain ⟨-, hq⟩ := Option.ite_none_right_eq_some.mp hq
  obtain rfl := Option.some.inj hq
  exact ⟨rfl, rfl⟩

theorem firstTasks_task : firstTasks.task firstSlot = some firstTask := by
  simp only [firstTasks, if_true]

theorem call_null : (firstTask.caller fullMachine 0x1000#32).call fullKernel (callOf 0#32) =
    .ok (-Files.efault, firstCaller) := rfl

theorem exists_call : ∃ c, (firstTask.caller fullMachine 0x1000#32).call fullKernel
    (callOf 4#32) = .ok (0, c) := by
  obtain ⟨c, hrun⟩ := exists_exec_dataFile 2#32 (by decide) (by decide)
  have hfds : c.fds = firstCaller.fds :=
    (Caller.execImage_ok (Caller.archExecElf_zero hrun rfl)).2.2
  have hclose : (c.fds.closeFlagged Files.nrOpen 0).mapError Stop.halted =
      .ok firstCaller.fds := by
    rw [hfds]
    rfl
  refine ⟨{ c with fds := firstCaller.fds }, ?_⟩
  exact bind_eq_ok.mpr ⟨_, hrun, bind_eq_ok.mpr ⟨_, hclose, rfl⟩⟩

/-- A call which fails leaves nothing to remember. -/
theorem alwaysRemembers_null : ∃ t, Step fullKernel firstTasks (.execve firstSlot (callOf 0#32)) t ∧
    AlwaysRemembers firstTasks [(.execve firstSlot (callOf 0#32), t)] := by
  have hstep := Step.execve (p := firstSlot) (s := firstTasks) rfl firstTasks_task call_null
  refine ⟨_, hstep, (alwaysRemembers_iff boot_firstTasks hstep.one).mpr ⟨?_, trivial⟩⟩
  intro cr3 q c g hcr3 hq hrun
  obtain rfl := Option.some.inj hcr3
  obtain rfl := Option.some.inj (firstTasks_task.symm.trans hq)
  have hret := (Prod.mk.inj (Except.ok.inj (call_null.symm.trans hrun))).1
  exact absurd hret (by decide)

/-- After the first call which succeeds, the process has the image of the code in the kernel. -/
theorem not_alwaysRemembers : ¬ ∀ (boot : ExecImage) (k : Kernel) (s : Tasks)
    (steps : List (Event × Tasks)), Boot boot s → IsRun k s steps → AlwaysRemembers s steps := by
  intro hall
  obtain ⟨c, hrun⟩ := exists_call
  have hstep := Step.execve (p := firstSlot) (s := firstTasks) rfl firstTasks_task hrun
  have hremember := (hall _ _ _ _ boot_firstTasks hstep.one).2 _ (List.mem_cons_self ..)
  have hprogram : (firstTask.returned c (callOf 4#32).file 0).program =
      some (segments (dataFile 2#32) dataEhdr).image := rfl
  obtain ⟨himage, -⟩ := hremember firstSlot _ _
    (Function.update_self firstSlot _ firstTasks.task) hprogram
  have hkept : c.image = firstCaller.image := Caller.call_image hrun
  have htext : (segments (dataFile 2#32) dataEhdr).image.textVaddr = 0#32 := by
    rw [segments_dataFile (by decide)]
  have hsame : c.image.textVaddr = (segments (dataFile 2#32) dataEhdr).image.textVaddr :=
    congrArg (fun image => image.textVaddr) himage
  rw [hkept, htext] at hsame
  exact absurd hsame (by decide)

end Yak.Exec
