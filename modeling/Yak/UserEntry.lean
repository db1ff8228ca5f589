import Yak.SyscallEntry

/-!
# The way into the kernel and back

A transcription of the system call handler of `arch/i386/interrupts.S` with the macros which it
shares with the interrupts, and of `restart`.  The registers of the user go into a frame on the
kernel stack, in front of what the processor has pushed, and come back from there.

`cpu_state_save` of `cpu_state.c` copies the frame to the state of the process.
-/

namespace Yak.Syscall

open Machine32

def kernelDsSelector : Word := 16#32
def userDsSelector : Word := 0x23#32

/-! ## The macros -/

def pushSegs : List Instr := [.pushSeg .ds, .pushSeg .es, .pushSeg .fs, .pushSeg .gs]

def popSegs : List Instr := [.popSeg .gs, .popSeg .fs, .popSeg .es, .popSeg .ds]

/-- `save_regs` -/
def saveRegs : List Instr := pushSegs ++ pushRegs [.eax, .ebx, .ecx, .edx, .esi, .edi, .ebp]

/-- `restore_kernel_seg` -/
def restoreKernelSeg : List Instr :=
  [.push (.reg .eax),
   .mov (.imm kernelDsSelector) (.reg .eax),
   .movSeg .eax .ds,
   .movSeg .eax .es,
   .movSeg .eax .fs,
   .movSeg .eax .gs,
   .pop (.reg .eax)]

/-- `save_state` -/
def saveState (cpuStateSave : Word) : List Instr :=
  [.push (.reg .esp),
   .call (.imm cpuStateSave),
   .add (.imm 4#32) (.reg .esp)]

/-- The end of `restore_regs`, and the return to the user. -/
def leaveKernel : List Instr := popSegs ++ [.add (.imm 4#32) (.reg .esp), .iret]

def restart : List Instr :=
  popRegs [.ebp, .edi, .esi, .edx, .ecx, .ebx, .eax] ++ leaveKernel

/-! ## The handler -/

/-- The addresses which the linker knows. -/
structure Symbols where
  syscallNr : Word
  currentCpuState : Word
  currentProcess : Word
  cpuStateSave : Word
  handleSyscall : Word
  signalHandler : Word

/-- The number of the call is kept in a static word. -/
def keepNumber (y : Symbols) : List Instr :=
  [.push (.reg .eax),
   .mov (.reg .eax) (.mem y.syscallNr),
   .pop (.reg .eax),
   .push (.imm 0#32)]

/-- `IRET_FRAME_OFF` is 76. -/
def dispatch (y : Symbols) : List Instr :=
  [.mov (.mem y.currentCpuState) (.reg .eax),
   .mov (.reg .esp) (.at .eax 76#32),
   .push (.mem y.syscallNr),
   .push (.mem y.currentCpuState),
   .call (.imm y.handleSyscall),
   .add (.imm 8#32) (.reg .esp)]

/-- Signals are looked for on the way to user space only.  `IRET_FRAME_CS` is 52. -/
def findHandler (y : Symbols) : List Instr :=
  [.mov (.at .esp 52#32) (.reg .ebx),
   .push (.reg .eax),
   .test (.imm 3#32) (.reg .ebx),
   .jcc .z 1,
   .sub (.imm 4#32) (.reg .esp),
   .push (.reg .esp),
   .push (.mem y.currentProcess),
   .call (.imm y.signalHandler),
   .mov (.at .esp 4#32) (.reg .ecx),
   .add (.imm 12#32) (.reg .esp),
   .test (.reg .eax) (.reg .eax),
   .jcc .z 1]

/-- The handler is put into the frame: `IRET_FRAME_EIP` is 48, `IRET_FRAME_ESP` is 60 and
`SIG_RESTORER` is 212. -/
def enterHandler (y : Symbols) : List Instr :=
  [.xchg .eax (.at .esp 48#32),
   .sub (.imm 8#32) (.at .esp 60#32),
   .mov (.at .esp 60#32) (.reg .edx),
   .mov (.mem y.currentProcess) (.reg .ebx),
   .mov (.at .ebx 212#32) (.reg .eax),
   .mov (.reg .eax) (.at .edx 0#32),
   .mov (.reg .ecx) (.at .edx 4#32),
   .mov (.reg .edx) (.at .esp 60#32)]

/-- The saved `%eax` is skipped: the result of the call takes its place. -/
def leaveSyscall : List Instr :=
  [.label 1, .pop (.reg .eax)] ++ (popRegs [.ebp, .edi, .esi, .edx, .ecx, .ebx] ++
    (.add (.imm 4#32) (.reg .esp) :: leaveKernel))

/-- `syscall` -/
def syscall (y : Symbols) : List Instr :=
  keepNumber y ++ (saveRegs ++ (restoreKernelSeg ++ (saveState y.cpuStateSave ++ (dispatch y ++
    (findHandler y ++ (enterHandler y ++ leaveSyscall))))))

/-! ## The frame -/

/-- What the frame keeps of the interrupted program. -/
structure Trap where
  regs : Reg → Word
  segs : Seg → BitVec 16
  error : Word
  eip : Word
  cs : Word
  eflags : Word
  esp : Word
  ss : Word

/-- What the processor pushes on the way from user space. -/
def Trap.pushed (f : Trap) : List Word := [f.eip, f.cs, f.eflags, f.esp, f.ss]

/-- `struct i386_cpu_state` up to `ss` -/
def Trap.words (f : Trap) : List Word :=
  [f.regs .ebp, f.regs .edi, f.regs .esi, f.regs .edx, f.regs .ecx, f.regs .ebx, f.regs .eax] ++
    ([f.segs .gs, f.segs .fs, f.segs .es, f.segs .ds].map (BitVec.setWidth 32) ++
      f.error :: f.pushed)

/-- The program goes on in user space. -/
structure Returned (f : Trap) (s' : State) : Prop where
  regs : ∀ r, r ≠ .esp → s'.regs r = f.regs r
  segs : s'.segs = f.segs
  esp : s'.esp = f.esp
  flags : s'.flags = Flags.ofWord f.eflags

variable {proc : Procs} {s s' : State} {f : Trap} {ws : List Word} {y : Symbols}

variable (proc) in
/-- The state from which `iret` leaves. -/
theorem exec_leaveKernel
    (h : Stack s ([f.segs .gs, f.segs .fs, f.segs .es, f.segs .ds].map (BitVec.setWidth 32) ++
      f.error :: f.pushed)) (huser : f.cs &&& 3#32 ≠ 0#32) :
    ∃ s', exec proc leaveKernel none s = .stop (.iret f.eip f.cs (some f.ss)) s' ∧
      (∀ r, r ≠ .esp → s'.regs r = s.regs r) ∧ s'.segs = f.segs ∧ s'.esp = f.esp ∧
      s'.flags = Flags.ofWord f.eflags ∧ s'.mem = s.mem := by
  simp only [Trap.pushed, Stack, State.esp, List.map_cons, List.map_nil, List.cons_append,
    List.nil_append, words_cons, words_nil, BitVec.add_assoc, BitVec.reduceAdd, and_true] at h
  have hsegs : ∀ segs : Seg → BitVec 16, Function.update (Function.update (Function.update
      (Function.update segs .gs (f.segs .gs)) .fs (f.segs .fs)) .es (f.segs .es)) .ds
      (f.segs .ds) = f.segs := by
    intro segs
    funext r
    cases r <;> simp
  refine ⟨⟨Function.update s.regs .esp f.esp, f.segs, Flags.ofWord f.eflags, s.mem⟩, ?_, ?_, rfl,
    by simp [State.esp], rfl, rfl⟩
  · simp only [leaveKernel, popSegs, List.cons_append, List.nil_append, exec, step, State.read,
      State.write, State.drop, State.set, State.setSeg, State.top, State.esp,
      Function.update_apply, if_true, if_false, BitVec.add_assoc, BitVec.reduceAdd, h, huser,
      Function.update_idem]
    have hnarrow : ∀ v : BitVec 16, (v.setWidth 32).setWidth 16 = v := by
      intro v
      simp
    simp only [hnarrow, hsegs]
  · intro r hr
    simp [hr]

variable (proc) in
/-- `restart` gives the processor back to the program whose frame is on the stack. -/
theorem exec_restart (h : Stack s f.words) (huser : f.cs &&& 3#32 ≠ 0#32) :
    ∃ s', exec proc restart none s = .stop (.iret f.eip f.cs (some f.ss)) s' ∧ Returned f s' := by
  obtain ⟨s₁, hrun₁, hpopped, hstack₁⟩ := exec_popRegs proc
    [.ebp, .edi, .esi, .edx, .ecx, .ebx, .eax]
    ([.ebp, .edi, .esi, .edx, .ecx, .ebx, .eax].map f.regs) (by decide) (by decide) rfl h
  obtain ⟨s', hrun, hregs, hsegs, hesp, hflags, _⟩ := exec_leaveKernel proc hstack₁ huser
  refine ⟨s', ?_, ?_, hsegs, hesp, hflags⟩
  · rw [restart, exec_append_of_fell hrun₁, hrun]
  · intro r hr
    rw [hregs r hr]
    apply List.map_inj_left.mp hpopped.regs r
    cases r <;> simp at hr ⊢

variable (proc) in
/-- The registers come back but for `%eax`, which is on top of the frame. -/
theorem exec_leaveSyscall {eax : Word} {target : Option ℕ}
    (htarget : target = none ∨ target = some 1) (h : Stack s (eax :: f.words))
    (huser : f.cs &&& 3#32 ≠ 0#32) :
    ∃ s', exec proc leaveSyscall target s = .stop (.iret f.eip f.cs (some f.ss)) s' ∧
      Returned { f with regs := Function.update f.regs .eax eax } s' := by
  obtain ⟨s₁, hs₁⟩ : ∃ s₁, s₁ = (s.drop 4#32).set .eax eax := ⟨_, rfl⟩
  have hpop : exec proc [.label 1, .pop (.reg .eax)] target s = .fell none s₁ := by
    rw [hs₁, ← h.top]
    rcases htarget with rfl | rfl
    · rfl
    · rfl
  have hstack₁ : Stack s₁ f.words := by
    have hdrop : Stack (s.drop 4#32) f.words := h.drop
    simpa [Stack, hs₁] using hdrop
  obtain ⟨s₂, hrun₂, hpopped, hstack₂⟩ := exec_popRegs proc
    [.ebp, .edi, .esi, .edx, .ecx, .ebx]
    ([.ebp, .edi, .esi, .edx, .ecx, .ebx].map f.regs) (by decide) (by decide) rfl hstack₁
  obtain ⟨s₃, hs₃⟩ : ∃ s₃, s₃ = { s₂.drop 4#32 with flags := s₂.flags.ofAdd s₂.esp 4#32 } :=
    ⟨_, rfl⟩
  have hskip : exec proc (.add (.imm 4#32) (.reg .esp) :: leaveKernel) none s₂ =
      exec proc leaveKernel none s₃ := by
    rw [hs₃]
    rfl
  have hstack₃ : Stack s₃ ([f.segs .gs, f.segs .fs, f.segs .es, f.segs .ds].map
      (BitVec.setWidth 32) ++ f.error :: f.pushed) := by
    have hdrop : Stack (s₂.drop 4#32) _ := hstack₂.drop
    rw [hs₃]
    exact hdrop
  obtain ⟨s', hrun, hregs, hsegs, hesp, hflags, _⟩ := exec_leaveKernel proc hstack₃ huser
  refine ⟨s', ?_, ?_, hsegs, hesp, hflags⟩
  · rw [leaveSyscall, exec_append_of_fell hpop, exec_append_of_fell hrun₂, hskip, hrun]
  · intro r hr
    have hsame : s₃.regs r = s₂.regs r := by
      rw [hs₃]
      simp [State.drop, hr]
    rw [hregs r hr, hsame]
    by_cases heax : r = .eax
    · subst heax
      rw [hpopped.others .eax (by decide) (by decide), hs₁]
      simp
    · simp only [Function.update_of_ne heax]
      apply List.map_inj_left.mp hpopped.regs r
      cases r <;> simp at hr heax ⊢

/-! ## What the handler relies on -/

/-- `cpu_state_save`, where `cur` is `current_cpu_state`.  The first copy goes up to `ss`, so it
takes `esp` along. -/
def cpuStateSave (m : Memory) (cur new : Word) : Memory :=
  let m := memmove m cur new 64
  if load m (new + 64#32) = userDsSelector then
    let m := store m (cur + 64#32) (load m (new + 64#32))
    store m (cur + 60#32) (load m (new + 60#32))
  else m

/-- The kernel stack which the handler uses, with what the processor has pushed. -/
def room (s : State) : Set Word := block (s.esp - 104#32) 124

/-- The static words, the state of the process and the table are apart from the stack and from
each other. -/
structure Placed (s : State) (y : Symbols) (cur syscallTable nr : Word) : Prop where
  number : Disjoint (room s) (block y.syscallNr 4)
  pointer : Disjoint (room s) (block y.currentCpuState 4)
  state : Disjoint (room s) (block cur 88)
  entry : Disjoint (room s) (block (entryOf syscallTable nr) 8)
  numberPointer : Disjoint (block y.syscallNr 4) (block y.currentCpuState 4)
  numberState : Disjoint (block y.syscallNr 4) (block cur 88)
  pointerState : Disjoint (block y.currentCpuState 4) (block cur 88)
  numberEntry : Disjoint (block y.syscallNr 4) (block (entryOf syscallTable nr) 8)
  stateEntry : Disjoint (block cur 88) (block (entryOf syscallTable nr) 8)

/-- The C functions with `handle_syscall` among them. -/
def linked (proc : Procs) (y : Symbols) (syscallTable ret : Word) : Procs :=
  link proc y.handleSyscall ret (handleSyscall syscallTable)

/-- What the C functions do, called with the stack pointers which they get here.  The frame is at
`s.esp - 48`, and they keep the stack of their callers; `cpu_state_save` keeps the static words
too. -/
structure Procedures (proc : Procs) (s : State) (y : Symbols) (cur syscallTable nr : Word) :
    Prop where
  save : ∀ t, t.esp = s.esp - 52#32 → Cdecl t (proc y.cpuStateSave t)
    (block (s.esp - 48#32) 68 ∪ block y.syscallNr 4 ∪ block y.currentCpuState 4 ∪
      block (entryOf syscallTable nr) 8)
  saveMem : ∀ t, t.esp = s.esp - 52#32 → ∀ x ∈ block cur 88,
    (proc y.cpuStateSave t).mem x = cpuStateSave t.mem cur (load t.mem t.esp) x
  signal : ∀ t, t.esp = s.esp - 64#32 →
    Cdecl t (proc y.signalHandler t) (block (s.esp - 52#32) 72)

/-! ## Its parts -/

theorem room_subset {k n : ℕ} (hk : k ≤ 104) (hn : n ≤ k + 20) :
    block (s.esp - BitVec.ofNat 32 k) n ⊆ room s := by
  have hsplit : s.esp - BitVec.ofNat 32 k = s.esp - 104#32 + BitVec.ofNat 32 (104 - k) := by
    bv_omega
  rw [room, hsplit]
  apply block_subset
  rw [BitVec.toNat_ofNat]
  omega

/-- What holds from the frame on. -/
structure InKernel (s t : State) (y : Symbols) (f : Trap) : Prop where
  esp : t.esp = s.esp - 48#32
  frame : Stack t f.words
  number : load t.mem y.syscallNr = f.regs .eax
  segs : t.segs = fun _ => 16#16

/-- The memory once the number is in its static word. -/
def numbered (s : State) (y : Symbols) : State :=
  { s with mem := store (store s.mem (s.esp - 4#32) (s.regs .eax)) y.syscallNr (s.regs .eax) }

theorem numbered_mem : (numbered s y).mem =
    store (store s.mem (s.esp - 4#32) (s.regs .eax)) y.syscallNr (s.regs .eax) := rfl

theorem exec_keepNumber (hnumber : Disjoint (room s) (block y.syscallNr 4)) :
    exec proc (keepNumber y) none s = .fell none ((numbered s y).push 0#32) := by
  have hkept : load (store (store s.mem (s.regs .esp - 4#32) (s.regs .eax)) y.syscallNr
      (s.regs .eax)) (s.regs .esp - 4#32) = s.regs .eax := by
    have hlow : block (s.regs .esp - 4#32) 4 ⊆ room s := room_subset (k := 4) (by decide) (by decide)
    rw [load_store_of_disjoint (hnumber.mono_left hlow), load_store]
  have hback : s.regs .esp - 4#32 + 4#32 = s.regs .esp := by bv_omega
  simp only [keepNumber, exec, step, State.read, State.write, State.push, State.store, State.set,
    State.top, State.drop, State.esp, Function.update_apply, reduceCtorEq, if_true, if_false,
    hkept, hback, numbered]
  congr 2
  funext r
  cases r <;> simp

theorem exec_pushSegs : exec proc pushSegs none s =
    .fell none (s.pushes ([s.segs .ds, s.segs .es, s.segs .fs, s.segs .gs].map
      (BitVec.setWidth 32))) := rfl

theorem exec_saveRegs : exec proc saveRegs none s =
    .fell none (s.pushes ([s.segs .ds, s.segs .es, s.segs .fs, s.segs .gs].map
      (BitVec.setWidth 32) ++ [.eax, .ebx, .ecx, .edx, .esi, .edi, .ebp].map s.regs)) := by
  rw [saveRegs, exec_append_of_fell exec_pushSegs, exec_pushRegs (by decide)]
  simp [State.pushes]

theorem exec_restoreKernelSeg : exec proc restoreKernelSeg none s =
    .fell none { s with
      mem := store s.mem (s.esp - 4#32) (s.regs .eax)
      segs := fun _ => 16#16 } := by
  have hback : s.regs .esp - 4#32 + 4#32 = s.regs .esp := by bv_omega
  simp only [restoreKernelSeg, exec, step, State.read, State.write, State.push, State.store,
    State.set, State.setSeg, State.top, State.drop, State.esp, Function.update_apply, reduceCtorEq,
    if_true, if_false, load_store, hback]
  congr 2
  · funext r
    cases r <;> simp
  · funext r
    cases r <;> simp [kernelDsSelector]

/-- The way in, in front of `save_state`. -/
def wayIn (y : Symbols) : List Instr := keepNumber y ++ (saveRegs ++ restoreKernelSeg)

/-- The frame is what the processor has pushed with the registers in front of it. -/
structure Entry (s : State) (f : Trap) : Prop where
  stack : Stack s f.pushed
  regs : f.regs = s.regs
  segs : f.segs = s.segs
  error : f.error = 0#32

variable (proc) in
theorem exec_wayIn (h : Entry s f) (hnumber : Disjoint (room s) (block y.syscallNr 4)) :
    ∃ t, exec proc (wayIn y) none s = .fell none t ∧ InKernel s t y f ∧
      ∀ x, x ∉ room s → x ∉ block y.syscallNr 4 → t.mem x = s.mem x := by
  obtain ⟨s₁, hs₁⟩ : ∃ s₁, s₁ = (numbered s y).push 0#32 := ⟨_, rfl⟩
  have hesp₀ : (numbered s y).esp = s.esp := rfl
  obtain ⟨vs, hvs⟩ : ∃ vs, vs = [s.segs .ds, s.segs .es, s.segs .fs, s.segs .gs].map
      (BitVec.setWidth 32) ++ [.eax, .ebx, .ecx, .edx, .esi, .edi, .ebp].map s.regs := ⟨_, rfl⟩
  have hlen : vs.length = 11 := by simp [hvs]
  have hesp₁ : s₁.esp = s.esp - 4#32 := by
    rw [hs₁, State.push_esp, hesp₀]
  have hesp₂ : (s₁.pushes vs).esp = s.esp - 48#32 := by
    rw [State.pushes_esp, hlen, hesp₁]
    bv_omega
  have hfour : block (s.esp - 4#32) 4 ⊆ room s := room_subset (k := 4) (by decide) (by decide)
  -- the words of the processor are still there
  have hpushed : Stack s₁ (0#32 :: f.pushed) := by
    have hlow : Disjoint (block s.esp (4 * f.pushed.length)) (block (s.esp - 4#32) 4) := by
      have hdis := block_disjoint (a := s.esp - 4#32) (c := 0#32) (d := 4#32) (k := 4) (n := 20)
        (by decide) (by decide)
      have hback : s.esp - 4#32 + 4#32 = s.esp := by bv_omega
      rw [hback, BitVec.add_zero] at hdis
      exact hdis.symm
    have hstatic : Disjoint (block s.esp (4 * f.pushed.length)) (block y.syscallNr 4) := by
      apply hnumber.mono_left
      have hself : s.esp = s.esp - 104#32 + 104#32 := by bv_omega
      rw [room]
      nth_rewrite 1 [hself]
      exact block_subset (by simp [Trap.pushed])
    have hstack : Stack (numbered s y) f.pushed := by
      have hfirst := Words.store (v := s.regs .eax) h.stack hlow
      exact hfirst.store hstatic
    rw [hs₁]
    exact hstack.push (by simp [Trap.pushed])
  have hframe : Stack (s₁.pushes vs) f.words := by
    have hpushes := hpushed.pushes vs (by simp [hlen, Trap.pushed])
    have hwords : vs.reverse ++ 0#32 :: f.pushed = f.words := by
      simp [hvs, Trap.words, h.regs, h.segs, h.error]
    rw [← hwords]
    exact hpushes
  have hmem₁ : ∀ x, x ∉ block (s.esp - 4#32) 4 → x ∉ block y.syscallNr 4 →
      s₁.mem x = s.mem x := by
    intro x hstack hstatic
    rw [hs₁, State.push_mem, hesp₀, store_of_notMem hstack, numbered_mem, store_of_notMem hstatic,
      store_of_notMem hstack]
  have hmem₂ : ∀ x, x ∉ room s → (s₁.pushes vs).mem x = s₁.mem x := by
    intro x hx
    apply State.pushes_mem
    rw [hlen, hesp₁]
    have hlow : s.esp - 4#32 - BitVec.ofNat 32 (4 * 11) = s.esp - BitVec.ofNat 32 48 := by bv_omega
    rw [hlow]
    exact fun hmem => hx (room_subset (by decide) (by decide) hmem)
  have hsaved : exec proc saveRegs none s₁ = .fell none (s₁.pushes vs) := by
    have hregs : [.eax, .ebx, .ecx, .edx, .esi, .edi, .ebp].map s₁.regs =
        [.eax, .ebx, .ecx, .edx, .esi, .edi, .ebp].map s.regs := by
      simp [hs₁, numbered]
    have hsegs : s₁.segs = s.segs := by rw [hs₁]; rfl
    rw [exec_saveRegs, hregs, hsegs, hvs]
  -- `restore_kernel_seg` uses one more word of the stack
  have hlast : block ((s₁.pushes vs).esp - 4#32) 4 ⊆ room s := by
    have hlow : (s₁.pushes vs).esp - 4#32 = s.esp - BitVec.ofNat 32 52 := by
      rw [hesp₂]
      bv_omega
    rw [hlow]
    exact room_subset (by decide) (by decide)
  refine ⟨{ s₁.pushes vs with
    mem := store (s₁.pushes vs).mem ((s₁.pushes vs).esp - 4#32) ((s₁.pushes vs).regs .eax)
    segs := fun _ => 16#16 }, ?_, ⟨hesp₂, ?_, ?_, rfl⟩, ?_⟩
  · rw [wayIn, exec_append_of_fell (exec_keepNumber hnumber), ← hs₁, exec_append_of_fell hsaved,
      exec_restoreKernelSeg]
  · have hdis : Disjoint (block (s₁.pushes vs).esp (4 * f.words.length))
        (block ((s₁.pushes vs).esp - 4#32) 4) := by
      have hblocks := block_disjoint (a := (s₁.pushes vs).esp - 4#32) (c := 0#32) (d := 4#32)
        (k := 4) (n := 68) (by decide) (by decide)
      have hback : (s₁.pushes vs).esp - 4#32 + 4#32 = (s₁.pushes vs).esp := by bv_omega
      rw [hback, BitVec.add_zero] at hblocks
      exact hblocks.symm
    exact Words.store hframe hdis
  · have hread : load s₁.mem y.syscallNr = s.regs .eax := by
      rw [hs₁, State.push_mem, hesp₀, load_store_of_disjoint (hnumber.mono_left hfour).symm,
        numbered_mem, load_store]
    rw [load_store_of_disjoint (hnumber.mono_left hlast).symm]
    have hsame : load (s₁.pushes vs).mem y.syscallNr = load s₁.mem y.syscallNr :=
      load_congr fun x hx => hmem₂ x fun hroom => Set.disjoint_left.mp hnumber hroom hx
    rw [hsame, hread, h.regs]
  · intro x hroom hstatic
    have hstore : store (s₁.pushes vs).mem ((s₁.pushes vs).esp - 4#32)
        ((s₁.pushes vs).regs .eax) x = (s₁.pushes vs).mem x :=
      store_of_notMem fun hmem => hroom (hlast hmem)
    exact hstore.trans ((hmem₂ x hroom).trans (hmem₁ x (fun hmem => hroom (hfour hmem)) hstatic))

/-! ## The state of the process -/

/-- In front of `esp` the state is that of the frame. -/
theorem cpuStateSave_words {m : Memory} (cur : Word) {new : Word} (h : Words m new f.words) :
    Words (cpuStateSave m cur new) cur (f.words.take 15) := by
  have hcopied : Words (memmove m cur new 64) cur (f.words.take 15) := by
    have hfront : Words m (new + 0#32) (f.words.take 15) := by
      rw [BitVec.add_zero]
      exact (words_append.mp ((List.take_append_drop 15 f.words).symm ▸ h)).1
    have hmoved := words_memmove cur (n := 64) hfront (by decide)
      (by simp [Trap.words, Trap.pushed])
    rwa [BitVec.add_zero] at hmoved
  have hapart : ∀ {c : Word}, c = 60#32 ∨ c = 64#32 →
      Disjoint (block cur (4 * (f.words.take 15).length)) (block (cur + c) 4) := by
    intro c hc
    have hlen : 4 * (f.words.take 15).length = 60 := by simp [Trap.words, Trap.pushed]
    have hdis := block_disjoint (a := cur) (c := 0#32) (d := c) (k := 60) (n := 4)
    rw [BitVec.add_zero] at hdis
    rw [hlen]
    rcases hc with rfl | rfl
    · exact hdis (by decide) (by decide)
    · exact hdis (by decide) (by decide)
  unfold cpuStateSave
  dsimp only
  split
  · exact (hcopied.store (hapart (Or.inr rfl))).store (hapart (Or.inl rfl))
  · exact hcopied

/-! ## The call -/

/-- The state in front of the dispatch. -/
structure Recorded (s t : State) (y : Symbols) (f : Trap) (cur syscallTable nr : Word) : Prop
    extends InKernel s t y f where
  pointer : load t.mem y.currentCpuState = cur
  state : Words t.mem cur (f.words.take 15)
  entry : load t.mem (entryOf syscallTable nr) = load s.mem (entryOf syscallTable nr)
  entryArgs : load t.mem (entryOf syscallTable nr + 4#32) =
    load s.mem (entryOf syscallTable nr + 4#32)

variable {cur syscallTable nr : Word} {t : State}

theorem exec_saveState (hplaced : Placed s y cur syscallTable nr)
    (hprocs : Procedures proc s y cur syscallTable nr) (h : InKernel s t y f)
    (hcur : load s.mem y.currentCpuState = cur)
    (hmem : ∀ x, x ∉ room s → x ∉ block y.syscallNr 4 → t.mem x = s.mem x) :
    ∃ t', exec proc (saveState y.cpuStateSave) none t = .fell none t' ∧
      Recorded s t' y f cur syscallTable nr := by
  obtain ⟨t₁, ht₁⟩ : ∃ t₁, t₁ = t.push t.esp := ⟨_, rfl⟩
  obtain ⟨t₂, ht₂⟩ : ∃ t₂, t₂ = proc y.cpuStateSave t₁ := ⟨_, rfl⟩
  have hesp₁ : t₁.esp = s.esp - 52#32 := by
    rw [ht₁, State.push_esp, h.esp]
    bv_omega
  have hcdecl : Cdecl t₁ t₂ _ := ht₂ ▸ hprocs.save t₁ hesp₁
  have hrun : exec proc (saveState y.cpuStateSave) none t = .fell none
      { t₂.set .esp (t₂.esp + 4#32) with flags := t₂.flags.ofAdd t₂.esp 4#32 } := by
    simp only [saveState, exec, step, State.read, State.write, ht₂, ht₁]
    rfl
  have hstack₁ : Stack t₁ (t.esp :: f.words) := by
    rw [ht₁]
    exact h.frame.push (by simp [Trap.words, Trap.pushed])
  have hesp₂ : t₂.esp + 4#32 = s.esp - 48#32 := by
    rw [hcdecl.esp, hesp₁]
    bv_omega
  have hlow : block (t.esp - 4#32) 4 ⊆ room s := by
    have hsplit : t.esp - 4#32 = s.esp - BitVec.ofNat 32 52 := by
      rw [h.esp]
      bv_omega
    rw [hsplit]
    exact room_subset (by decide) (by decide)
  have hmem₁ : ∀ x, x ∉ room s → t₁.mem x = t.mem x := by
    intro x hx
    rw [ht₁, State.push_mem, store_of_notMem fun hmem => hx (hlow hmem)]
  have hstatic : ∀ {a : Word} {n : ℕ}, Disjoint (room s) (block a n) → ∀ x ∈ block a n,
      t₁.mem x = t.mem x :=
    fun hdis x hx => hmem₁ x fun hroom => Set.disjoint_left.mp hdis hroom hx
  have hkept : ∀ {a : Word} {n : ℕ}, block a n ⊆ block (s.esp - 48#32) 68 ∪ block y.syscallNr 4 ∪
      block y.currentCpuState 4 ∪ block (entryOf syscallTable nr) 8 →
      ∀ x ∈ block a n, t₂.mem x = t₁.mem x :=
    fun hsub x hx => hcdecl.mem x (hsub hx)
  obtain ⟨t₃, ht₃⟩ : ∃ t₃ : State, t₃ =
      { t₂.set .esp (t₂.esp + 4#32) with flags := t₂.flags.ofAdd t₂.esp 4#32 } := ⟨_, rfl⟩
  have hmem₃ : t₃.mem = t₂.mem := by rw [ht₃]; rfl
  have hesp₃ : t₃.esp = s.esp - 48#32 := by
    rw [ht₃, ← hesp₂]
    simp [State.esp]
  have hframe₁ : Words t₁.mem (s.esp - 48#32) f.words := by
    have hrest := hstack₁.2
    have hback : t₁.esp + 4#32 = s.esp - 48#32 := by
      rw [hesp₁]
      bv_omega
    rwa [hback] at hrest
  have hentry : ∀ x ∈ block (entryOf syscallTable nr) 8, t₃.mem x = s.mem x := by
    intro x hx
    rw [hmem₃, hkept Set.subset_union_right x hx, hstatic hplaced.entry x hx]
    apply hmem x
    · exact fun hroom => Set.disjoint_left.mp hplaced.entry hroom hx
    · exact fun hnumber => Set.disjoint_left.mp hplaced.numberEntry hnumber hx
  refine ⟨t₃, by rw [hrun, ht₃], ⟨⟨hesp₃, ?_, ?_, ?_⟩, ?_, ?_, ?_, ?_⟩⟩
  · rw [Stack, hesp₃, hmem₃]
    apply hframe₁.congr
    apply hkept
    exact (block_mono (by simp [Trap.words, Trap.pushed])).trans
      (Set.subset_union_left.trans (Set.subset_union_left.trans Set.subset_union_left))
  · rw [hmem₃, load_congr (hkept (Set.subset_union_right.trans
      (Set.subset_union_left.trans Set.subset_union_left))), load_congr (hstatic hplaced.number)]
    exact h.number
  · have hsegs : t₃.segs = t₁.segs := by
      rw [ht₃, ← hcdecl.segs]
      rfl
    rw [hsegs, ht₁, State.push_segs, h.segs]
  · rw [hmem₃, load_congr (hkept (Set.subset_union_right.trans Set.subset_union_left)),
      load_congr (hstatic hplaced.pointer), ← hcur]
    apply load_congr
    intro x hx
    apply hmem x
    · exact fun hroom => Set.disjoint_left.mp hplaced.pointer hroom hx
    · exact fun hnumber => Set.disjoint_left.mp hplaced.numberPointer hnumber hx
  · have hnew : load t₁.mem t₁.esp = s.esp - 48#32 := by
      have htop : load t₁.mem t₁.esp = t.esp := hstack₁.1
      rw [htop, h.esp]
    have hsaved := cpuStateSave_words cur hframe₁
    rw [hmem₃]
    apply hsaved.congr
    intro x hx
    rw [ht₂, hprocs.saveMem t₁ hesp₁ x (block_mono (by simp [Trap.words, Trap.pushed]) hx), hnew]
  · exact load_congr fun x hx => hentry x (block_mono (by decide) hx)
  · exact load_congr fun x hx => hentry x (block_subset (by decide) hx)

/-- The arguments of a system call, the first one in front. -/
def argRegs : List Reg := [.ebx, .ecx, .edx, .esi, .edi, .ebp]

theorem passed_of_state {m : Memory} {nargs : Word} (hstate : Words m cur (f.words.take 15))
    (hfew : nargs.toNat ≤ 6) :
    passed nargs m cur = (argRegs.take nargs.toNat).map f.regs := by
  have hslots : ∀ n : Fin 7, (argSlots.filter fun slot =>
      !(BitVec.ofNat 32 n.val).slt slot.1).reverse = argSlots.reverse.take n.val := by
    decide
  have hn := hslots ⟨nargs.toNat, by omega⟩
  simp only [BitVec.ofNat_toNat, BitVec.setWidth_eq] at hn
  have hloads : argSlots.reverse.map (fun slot => load m (cur + slot.2)) =
      argRegs.map f.regs := by
    simp only [Trap.words, List.cons_append, List.take_succ_cons, words_cons, BitVec.add_assoc,
      BitVec.reduceAdd] at hstate
    simp [argSlots, argRegs, hstate]
  rw [passed, hn, List.map_take, hloads, List.map_take]

/-- The function is called with the arguments of the user, with interrupts on. -/
structure Invoked (t : State) (f : Trap) (nargs : Word) : Prop where
  args : ∃ base, Stack t ((argRegs.take nargs.toNat).map f.regs ++ base)
  intr : t.flags.intr = true
  segs : t.segs = fun _ => 16#16

/-- The state in which `handle_syscall` is called. -/
def dispatched (t : State) (cur nr : Word) : State :=
  (({ t.set .eax cur with mem := store t.mem (cur + 76#32) t.esp }).push nr).push cur

/-- The state behind the dispatch, when `handle_syscall` has returned in the state `t`. -/
def answered (t : State) : State :=
  { t.drop 8#32 with flags := t.flags.ofAdd t.esp 8#32 }

theorem exec_dispatch (h : Recorded s t y f cur syscallTable nr)
    (hplaced : Placed s y cur syscallTable nr) :
    exec proc (dispatch y) none t = .fell none
      (answered (proc y.handleSyscall (dispatched t cur (f.regs .eax)))) := by
  have hcur : load t.mem y.currentCpuState = cur := h.pointer
  have hinside : block (cur + 76#32) 4 ⊆ block cur 88 := block_subset (by decide)
  have hnumber : load (store t.mem (cur + 76#32) (t.regs .esp)) y.syscallNr = f.regs .eax := by
    rw [load_store_of_disjoint (hplaced.numberState.mono_right hinside)]
    exact h.number
  have hlow : block (t.regs .esp - 4#32) 4 ⊆ room s := by
    have hesp : t.regs .esp = s.esp - 48#32 := h.esp
    have hsplit : t.regs .esp - 4#32 = s.esp - BitVec.ofNat 32 52 := by
      rw [hesp]
      bv_omega
    rw [hsplit]
    exact room_subset (by decide) (by decide)
  have hpointer : load (store (store t.mem (cur + 76#32) (t.regs .esp)) (t.regs .esp - 4#32)
      (f.regs .eax)) y.currentCpuState = cur := by
    rw [load_store_of_disjoint (hplaced.pointer.mono_left hlow).symm,
      load_store_of_disjoint (hplaced.pointerState.mono_right hinside), hcur]
  simp only [dispatch, exec, step, State.read, State.write, State.set, State.store, State.push,
    State.esp, Function.update_apply, reduceCtorEq, if_true, if_false, hcur, hnumber, hpointer,
    dispatched, State.drop, answered]

/-- What the routine finds when it is called with the return address `ret`. -/
structure Ready (s u : State) (f : Trap) (cur syscallTable ret : Word) : Prop where
  esp : u.esp = s.esp - 60#32
  callable : Syscall.Callable u syscallTable ret cur (f.regs .eax)
  state : Words u.mem cur (f.words.take 15)
  frame : Words u.mem (s.esp - 48#32) f.words
  entry : load u.mem (entryOf syscallTable (f.regs .eax)) =
    load s.mem (entryOf syscallTable (f.regs .eax))
  entryArgs : load u.mem (entryOf syscallTable (f.regs .eax) + 4#32) =
    load s.mem (entryOf syscallTable (f.regs .eax) + 4#32)
  segs : u.segs = fun _ => 16#16

theorem ready_of_recorded (h : Recorded s t y f cur syscallTable (f.regs .eax))
    (hplaced : Placed s y cur syscallTable (f.regs .eax)) (ret : Word) :
    Ready s ((dispatched t cur (f.regs .eax)).push ret) f cur syscallTable ret := by
  obtain ⟨t₀, ht₀⟩ : ∃ t₀ : State, t₀ =
      { t.set .eax cur with mem := store t.mem (cur + 76#32) t.esp } := ⟨_, rfl⟩
  have hpush : (dispatched t cur (f.regs .eax)).push ret = t₀.pushes [f.regs .eax, cur, ret] := by
    rw [ht₀]
    rfl
  have hesp₀ : t₀.esp = s.esp - 48#32 := by
    rw [ht₀, ← h.esp]
    simp [State.esp]
  have hesp : (t₀.pushes [f.regs .eax, cur, ret]).esp = s.esp - 60#32 := by
    have hlen : 4 * [f.regs .eax, cur, ret].length = 12 := rfl
    rw [State.pushes_esp, hesp₀, hlen]
    bv_omega
  have hinside : block (cur + 76#32) 4 ⊆ block cur 88 := block_subset (by decide)
  have hwords : 4 * f.words.length = 68 := by simp [Trap.words, Trap.pushed]
  have hroom : block (s.esp - 48#32) 68 ⊆ room s :=
    room_subset (k := 48) (by decide) (by decide)
  have hstack₀ : Stack t₀ f.words := by
    rw [Stack, hesp₀, ht₀]
    have hframe := h.frame
    rw [Stack, h.esp] at hframe
    apply hframe.store
    rw [hwords]
    exact hplaced.state.mono hroom hinside
  have hmem : ∀ x, x ∉ room s → (t₀.pushes [f.regs .eax, cur, ret]).mem x = t₀.mem x := by
    intro x hx
    apply State.pushes_mem
    intro hlow
    apply hx
    have hsplit : t₀.esp - BitVec.ofNat 32 (4 * [f.regs .eax, cur, ret].length) =
        s.esp - BitVec.ofNat 32 60 := by
      rw [hesp₀, List.length_cons, List.length_cons, List.length_cons, List.length_nil]
      bv_omega
    rw [hsplit] at hlow
    exact room_subset (n := 12) (by decide) (by decide) hlow
  have hpushes := hstack₀.pushes [f.regs .eax, cur, ret] (by simp [Trap.words, Trap.pushed])
  rw [hpush]
  have hstatic : ∀ {a : Word} {n : ℕ}, Disjoint (room s) (block a n) → ∀ x ∈ block a n,
      (t₀.pushes [f.regs .eax, cur, ret]).mem x = t₀.mem x :=
    fun hdis x hx => hmem x fun hin => Set.disjoint_left.mp hdis hin hx
  have hstored : ∀ x, x ∉ block (cur + 76#32) 4 → t₀.mem x = t.mem x := by
    intro x hx
    rw [ht₀]
    exact store_of_notMem hx
  have hentry : ∀ {a : Word}, block a 4 ⊆ block (entryOf syscallTable (f.regs .eax)) 8 →
      load (t₀.pushes [f.regs .eax, cur, ret]).mem a = load t.mem a := by
    intro a ha
    rw [load_congr fun x hx => hstatic hplaced.entry x (ha hx)]
    apply load_congr
    intro x hx
    apply hstored
    exact fun hin => Set.disjoint_left.mp hplaced.stateEntry (hinside hin) (ha hx)
  refine ⟨hesp, ⟨?_, ?_, ?_⟩, ?_, ?_, ?_, ?_, ?_⟩
  · have hfront : Stack (t₀.pushes [f.regs .eax, cur, ret]) ([ret, cur, f.regs .eax] ++ f.words) :=
      hpushes
    exact (words_append.mp hfront).1
  · rw [hesp]
    have hsplit : s.esp - 60#32 - 40#32 = s.esp - BitVec.ofNat 32 100 := by bv_omega
    rw [hsplit]
    exact hplaced.entry.mono_left (room_subset (by decide) (by decide))
  · rw [hesp]
    have hsplit : s.esp - 60#32 - 40#32 = s.esp - BitVec.ofNat 32 100 := by bv_omega
    rw [hsplit]
    exact hplaced.state.mono (room_subset (by decide) (by decide)) (block_mono (by decide))
  · apply h.state.congr
    intro x hx
    have hlen : 4 * (f.words.take 15).length = 60 := by simp [Trap.words, Trap.pushed]
    rw [hlen] at hx
    rw [hstatic hplaced.state x (block_mono (by decide) hx)]
    apply hstored
    have hdis := block_disjoint (a := cur) (c := 0#32) (d := 76#32) (k := 60) (n := 4) (by decide)
      (by decide)
    rw [BitVec.add_zero] at hdis
    exact Set.disjoint_left.mp hdis hx
  · have hparts : Stack (t₀.pushes [f.regs .eax, cur, ret])
        ([ret, cur, f.regs .eax] ++ f.words) := hpushes
    have hrest := (words_append.mp hparts).2
    have hback : (t₀.pushes [f.regs .eax, cur, ret]).esp +
        BitVec.ofNat 32 (4 * [ret, cur, f.regs .eax].length) = s.esp - 48#32 := by
      rw [hesp, List.length_cons, List.length_cons, List.length_cons, List.length_nil]
      bv_omega
    rwa [hback] at hrest
  · rw [hentry (block_mono (by decide)), h.entry]
  · rw [hentry (block_subset (by decide)), h.entryArgs]
  · rw [State.pushes_segs, ht₀]
    exact h.segs

/-- The routine writes below its return address only. -/
theorem Ready.frame_kept {u : State} {m : Memory} {ret : Word}
    (h : Ready s u f cur syscallTable ret)
    (hm : ∀ x, x ∉ block (u.esp - 40#32) 40 → m x = u.mem x) :
    Words m (s.esp - 48#32) f.words := by
  apply h.frame.congr
  intro x hx
  have hlen : 4 * f.words.length = 68 := by simp [Trap.words, Trap.pushed]
  have hdis := block_disjoint (a := s.esp - 100#32) (c := 0#32) (d := 52#32) (k := 40) (n := 68)
    (by decide) (by decide)
  have hlow : u.esp - 40#32 = s.esp - 100#32 := by
    rw [h.esp]
    bv_omega
  have hhigh : s.esp - 100#32 + 52#32 = s.esp - 48#32 := by bv_omega
  rw [BitVec.add_zero, hhigh] at hdis
  rw [hlen] at hx
  apply hm
  rw [hlow]
  exact fun hin => Set.disjoint_left.mp hdis hin hx

/-- The routine for the number of the user, as a call. -/
theorem handled_of_recorded (h : Recorded s t y f cur syscallTable (f.regs .eax))
    (hplaced : Placed s y cur syscallTable (f.regs .eax)) (ret : Word) {addr nargs : Word}
    (haddr : load s.mem (entryOf syscallTable (f.regs .eax)) = addr) (hne : addr ≠ 0#32)
    (hnargs : load s.mem (entryOf syscallTable (f.regs .eax) + 4#32) = nargs)
    (hfew : nargs.toNat ≤ 6)
    (hfunction : ∀ v, v.esp = s.esp - 76#32 - nargs <<< 2 →
      Cdecl v (proc addr v) (block (s.esp - 76#32) 96)) :
    ∃ w t', linked proc y syscallTable ret y.handleSyscall (dispatched t cur (f.regs .eax)) = t' ∧
      Invoked w f nargs ∧
      t'.esp = s.esp - 56#32 ∧ t'.regs .eax = (proc addr w).regs .eax ∧
      Words t'.mem (s.esp - 48#32) f.words := by
  have hready := ready_of_recorded h hplaced ret
  obtain ⟨u, hu⟩ : ∃ u, u = (dispatched t cur (f.regs .eax)).push ret := ⟨_, rfl⟩
  rw [← hu] at hready
  have hsplit : u.esp - 16#32 = s.esp - 76#32 := by
    rw [hready.esp]
    bv_omega
  have hown : ∀ v, v.esp = u.esp - 16#32 - nargs <<< 2 →
      Cdecl v (proc addr v) (block (u.esp - 16#32) 20) := by
    intro v hesp
    rw [hsplit] at hesp ⊢
    have hv := hfunction v hesp
    refine { hv with mem := fun x hx => hv.mem x ?_ }
    exact block_mono (by decide) hx
  obtain ⟨w, t', hrun, hw, hcalled, hhandled, _, hmem⟩ := exec_handleSyscall proc
    hready.callable (hready.entry.trans haddr) hne (hready.entryArgs.trans hnargs) hfew hown
  have hlinked : linked proc y syscallTable ret y.handleSyscall (dispatched t cur (f.regs .eax)) =
      t' := by
    simp [linked, link, ← hu, hrun, Result.state]
  refine ⟨w, t', hlinked, ⟨⟨kept u ret cur (f.regs .eax), ?_⟩, hcalled.intr, ?_⟩, ?_,
    hhandled.eax, ?_⟩
  · rw [← passed_of_state hready.state hfew]
    exact hcalled.stack
  · rw [hcalled.segs, hready.segs]
  · rw [hhandled.esp, hready.esp]
    bv_omega
  · apply (hready.frame_kept hcalled.mem).congr
    intro x hx
    have hlen : 4 * f.words.length = 68 := by simp [Trap.words, Trap.pushed]
    have hlarge : block (s.esp - 48#32) 68 ⊆ block (s.esp - 76#32) 96 := by
      have hsplit : s.esp - 48#32 = s.esp - 76#32 + 28#32 := by bv_omega
      rw [hsplit]
      exact block_subset (by decide)
    rw [hlen] at hx
    rw [hmem, (hfunction w (hw.trans (by rw [hsplit]))).mem x (hlarge hx)]

/-! ## The way out -/

/-- Without a handler, that is with `handler` null, the way goes on at the label. -/
theorem exec_findHandler {handler : Word} (h : Stack t f.words) (hesp : t.esp = s.esp - 48#32)
    (huser : f.cs &&& 3#32 ≠ 0#32)
    (hsignal : ∀ v, v.esp = s.esp - 64#32 →
      Cdecl v (proc y.signalHandler v) (block (s.esp - 52#32) 72))
    (hhandler : ∀ v, v.esp = s.esp - 64#32 → (proc y.signalHandler v).regs .eax = handler) :
    ∃ t', exec proc (findHandler y) none t =
        .fell (if handler = 0#32 then some 1 else none) t' ∧
      Stack t' (t.regs .eax :: f.words) ∧ t'.esp = s.esp - 52#32 ∧ t'.regs .eax = handler := by
  have hcs : load t.mem (t.regs .esp + 52#32) = f.cs := by
    simp only [Stack, State.esp, Trap.words, Trap.pushed, List.map_cons, List.map_nil,
      List.cons_append, List.nil_append, words_cons, BitVec.add_assoc, BitVec.reduceAdd] at h
    exact h.2.2.2.2.2.2.2.2.2.2.2.2.2.1
  obtain ⟨t₁, ht₁⟩ : ∃ t₁, t₁ = (t.set .ebx f.cs).push (t.regs .eax) := ⟨_, rfl⟩
  obtain ⟨t₂, ht₂⟩ : ∃ t₂, t₂ = { t₁.set .esp (t₁.esp - 4#32) with
      flags := (t₁.flags.ofLogic (f.cs &&& 3#32)).ofSub t₁.esp 4#32 } := ⟨_, rfl⟩
  obtain ⟨t₃, ht₃⟩ : ∃ t₃, t₃ =
      (t₂.push t₂.esp).push (load (t₂.push t₂.esp).mem y.currentProcess) := ⟨_, rfl⟩
  obtain ⟨t₄, ht₄⟩ : ∃ t₄, t₄ = proc y.signalHandler t₃ := ⟨_, rfl⟩
  obtain ⟨t₅, ht₅⟩ : ∃ t₅, t₅ = { (t₄.set .ecx (load t₄.mem (t₄.esp + 4#32))).drop 12#32 with
      flags := (t₄.flags.ofAdd t₄.esp 12#32).ofLogic (t₄.regs .eax &&& t₄.regs .eax) } :=
    ⟨_, rfl⟩
  have hbusy : (f.cs &&& 3#32 == 0#32) = false := beq_eq_false_iff_ne.mpr huser
  have hfirst : exec proc (findHandler y) none t = exec proc
      [.mov (.at .esp 4#32) (.reg .ecx), .add (.imm 12#32) (.reg .esp),
        .test (.reg .eax) (.reg .eax), .jcc .z 1] none t₄ := by
    rw [ht₄, ht₃, ht₂, ht₁]
    simp only [findHandler, exec, step, State.read, State.write, State.push, State.set,
      State.store, State.holds, State.esp, Flags.ofLogic, Function.update_apply, reduceCtorEq,
      if_true, if_false, hcs, hbusy, Bool.false_eq_true]
  have hlen : 4 * (t.regs .eax :: f.words).length = 72 := by simp [Trap.words, Trap.pushed]
  have hesp₁ : t₁.esp = s.esp - 52#32 := by
    have hset : (t.set .ebx f.cs).esp = t.esp := by simp
    rw [ht₁, State.push_esp, hset, hesp]
    bv_omega
  have hwords₁ : Words t₁.mem (s.esp - 52#32) (t.regs .eax :: f.words) := by
    have hset : Stack (t.set .ebx f.cs) f.words := by simpa [Stack] using h
    have hpush := hset.push (v := t.regs .eax) (by simp [Trap.words, Trap.pushed])
    rw [← ht₁, Stack, hesp₁] at hpush
    exact hpush
  have hesp₂ : t₂.esp = s.esp - 56#32 := by
    have hset : t₂.esp = t₁.esp - 4#32 := by
      rw [ht₂]
      simp [State.esp]
    rw [hset, hesp₁]
    bv_omega
  have hpushes₃ : t₃ = t₂.pushes [t₂.esp, load (t₂.push t₂.esp).mem y.currentProcess] := by
    rw [ht₃]
    rfl
  have hesp₃ : t₃.esp = s.esp - 64#32 := by
    have htwo : 4 * [t₂.esp, load (t₂.push t₂.esp).mem y.currentProcess].length = 8 := rfl
    rw [hpushes₃, State.pushes_esp, htwo, hesp₂]
    bv_omega
  have hcdecl : Cdecl t₃ t₄ (block (s.esp - 52#32) 72) := ht₄ ▸ hsignal t₃ hesp₃
  have heax : t₄.regs .eax = handler := ht₄ ▸ hhandler t₃ hesp₃
  have hlast : exec proc [.mov (.at .esp 4#32) (.reg .ecx), .add (.imm 12#32) (.reg .esp),
      .test (.reg .eax) (.reg .eax), .jcc .z 1] none t₄ =
      .fell (if handler = 0#32 then some 1 else none) t₅ := by
    rw [ht₅]
    by_cases hzero : handler = 0#32
    · simp [exec, step, State.read, State.write, State.holds, State.drop, State.esp,
        Flags.ofLogic, heax, hzero]
    · simp [exec, step, State.read, State.write, State.holds, State.drop, State.esp,
        Flags.ofLogic, heax, hzero]
  have hkept : ∀ x ∈ block (s.esp - 52#32) 72, t₅.mem x = t₁.mem x := by
    intro x hx
    have hmem₅ : t₅.mem = t₄.mem := by rw [ht₅]; rfl
    have hmem₂ : t₂.mem = t₁.mem := by rw [ht₂]; rfl
    have hmem₄ : t₄.mem x = t₃.mem x := hcdecl.mem x hx
    have hmem₃ : t₃.mem x = t₂.mem x := by
      rw [hpushes₃]
      apply State.pushes_mem
      have htwo : 4 * [t₂.esp, load (t₂.push t₂.esp).mem y.currentProcess].length = 8 := rfl
      have hdis := block_disjoint (a := s.esp - 64#32) (c := 0#32) (d := 12#32) (k := 8) (n := 72)
        (by decide) (by decide)
      have hlow : s.esp - 56#32 - BitVec.ofNat 32 8 = s.esp - 64#32 := by bv_omega
      have hhigh : s.esp - 64#32 + 12#32 = s.esp - 52#32 := by bv_omega
      rw [BitVec.add_zero, hhigh] at hdis
      rw [htwo, hesp₂, hlow]
      exact fun hin => Set.disjoint_left.mp hdis hin hx
    rw [hmem₅, hmem₄, hmem₃, hmem₂]
  have hesp₅ : t₅.esp = s.esp - 52#32 := by
    have hdrop : t₅.esp = t₄.esp + 12#32 := by
      rw [ht₅]
      simp [State.drop, State.esp]
    rw [hdrop, hcdecl.esp, hesp₃]
    bv_omega
  refine ⟨t₅, hfirst.trans hlast, ?_, hesp₅, ?_⟩
  · rw [Stack, hesp₅]
    apply hwords₁.congr
    rw [hlen]
    exact hkept
  · rw [ht₅, ← heax]
    simp [State.drop]

theorem exec_wayOut (h : Words t.mem (s.esp - 48#32) f.words) (hesp : t.esp = s.esp - 48#32)
    (huser : f.cs &&& 3#32 ≠ 0#32)
    (hsignal : ∀ v, v.esp = s.esp - 64#32 →
      Cdecl v (proc y.signalHandler v) (block (s.esp - 52#32) 72))
    (hquiet : ∀ v, v.esp = s.esp - 64#32 → (proc y.signalHandler v).regs .eax = 0#32) :
    ∃ s', exec proc (findHandler y ++ (enterHandler y ++ leaveSyscall)) none t =
        .stop (.iret f.eip f.cs (some f.ss)) s' ∧
      Returned { f with regs := Function.update f.regs .eax (t.regs .eax) } s' := by
  have hstack : Stack t f.words := by
    rw [Stack, hesp]
    exact h
  obtain ⟨t₁, hfind, hstack₁, _⟩ := exec_findHandler hstack hesp huser hsignal hquiet
  obtain ⟨s', hrun, hreturned⟩ := exec_leaveSyscall proc (Or.inr rfl) hstack₁ huser
  have hskip : exec proc (enterHandler y) (some 1) t₁ = .fell (some 1) t₁ :=
    exec_skip (by simp [enterHandler])
  refine ⟨s', ?_, hreturned⟩
  rw [exec_append_of_fell hfind, if_pos rfl, exec_append_of_fell hskip, hrun]

theorem exec_syscall_eq (hentry : Entry s f) (hcur : load s.mem y.currentCpuState = cur)
    (hplaced : Placed s y cur syscallTable (f.regs .eax))
    (hprocs : Procedures proc s y cur syscallTable (f.regs .eax)) :
    ∃ t, Recorded s t y f cur syscallTable (f.regs .eax) ∧
      exec proc (syscall y) none s = exec proc (findHandler y ++ (enterHandler y ++ leaveSyscall))
        none (answered (proc y.handleSyscall (dispatched t cur (f.regs .eax)))) := by
  obtain ⟨t₁, hrun₁, hin, hmem₁⟩ := exec_wayIn proc hentry hplaced.number
  obtain ⟨t₂, hrun₂, hrecorded⟩ := exec_saveState hplaced hprocs hin hcur hmem₁
  have hparts : syscall y = wayIn y ++ (saveState y.cpuStateSave ++ (dispatch y ++
      (findHandler y ++ (enterHandler y ++ leaveSyscall)))) := by
    simp [syscall, wayIn]
  refine ⟨t₂, hrecorded, ?_⟩
  rw [hparts, exec_append_of_fell hrun₁, exec_append_of_fell hrun₂,
    exec_append_of_fell (exec_dispatch hrecorded hplaced)]

/-- From the answer to user space, with the result in `%eax`. -/
theorem exec_answered (hesp : t.esp = s.esp - 56#32)
    (hframe : Words t.mem (s.esp - 48#32) f.words) (huser : f.cs &&& 3#32 ≠ 0#32)
    (hprocs : Procedures proc s y cur syscallTable nr)
    (hquiet : ∀ v, v.esp = s.esp - 64#32 → (proc y.signalHandler v).regs .eax = 0#32) :
    ∃ s', exec proc (findHandler y ++ (enterHandler y ++ leaveSyscall)) none (answered t) =
        .stop (.iret f.eip f.cs (some f.ss)) s' ∧
      Returned { f with regs := Function.update f.regs .eax (t.regs .eax) } s' := by
  have hesp' : (answered t).esp = s.esp - 48#32 := by
    have hdrop : (answered t).esp = t.esp + 8#32 := by simp [answered, State.drop, State.esp]
    rw [hdrop, hesp]
    bv_omega
  have heax : (answered t).regs .eax = t.regs .eax := by simp [answered, State.drop]
  rw [← heax]
  exact exec_wayOut hframe hesp' huser hprocs.signal hquiet

/-- A system call of the user: the function which the table names gets the user's registers as its
arguments, and the user goes on behind the call with all its registers but `%eax`, which has the
result. -/
theorem exec_syscall (hentry : Entry s f) (huser : f.cs &&& 3#32 ≠ 0#32)
    (hcur : load s.mem y.currentCpuState = cur)
    (hplaced : Placed s y cur syscallTable (s.regs .eax))
    {ret : Word} (hprocs : Procedures (linked proc y syscallTable ret) s y cur syscallTable
      (s.regs .eax))
    (hquiet : ∀ v, v.esp = s.esp - 64#32 →
      (linked proc y syscallTable ret y.signalHandler v).regs .eax = 0#32)
    {addr nargs : Word}
    (haddr : load s.mem (entryOf syscallTable (s.regs .eax)) = addr) (hne : addr ≠ 0#32)
    (hnargs : load s.mem (entryOf syscallTable (s.regs .eax) + 4#32) = nargs)
    (hfew : nargs.toNat ≤ 6)
    (hfunction : ∀ v, v.esp = s.esp - 76#32 - nargs <<< 2 →
      Cdecl v (proc addr v) (block (s.esp - 76#32) 96)) :
    ∃ w s', exec (linked proc y syscallTable ret) (syscall y) none s =
        .stop (.iret f.eip f.cs (some f.ss)) s' ∧
      Invoked w f nargs ∧
      Returned { f with regs := Function.update f.regs .eax ((proc addr w).regs .eax) } s' := by
  rw [← hentry.regs] at hplaced hprocs haddr hnargs
  obtain ⟨t, hrecorded, hrun⟩ := exec_syscall_eq hentry hcur hplaced hprocs
  obtain ⟨w, t', hhandle, hinvoked, hesp, heax, hframe⟩ :=
    handled_of_recorded hrecorded hplaced ret haddr hne hnargs hfew hfunction
  obtain ⟨s', hout, hreturned⟩ := exec_answered hesp hframe huser hprocs hquiet
  rw [heax] at hreturned
  rw [hhandle] at hrun
  exact ⟨w, s', hrun.trans hout, hinvoked, hreturned⟩

/-- A number without a function, be it inside the table or behind it. -/
theorem exec_syscall_enosys (hentry : Entry s f) (huser : f.cs &&& 3#32 ≠ 0#32)
    (hcur : load s.mem y.currentCpuState = cur)
    (hplaced : Placed s y cur syscallTable (f.regs .eax))
    {ret : Word} (hprocs : Procedures (linked proc y syscallTable ret) s y cur syscallTable
      (f.regs .eax))
    (hquiet : ∀ v, v.esp = s.esp - 64#32 →
      (linked proc y syscallTable ret y.signalHandler v).regs .eax = 0#32)
    (haddr : load s.mem (entryOf syscallTable (f.regs .eax)) = 0#32) :
    ∃ s', exec (linked proc y syscallTable ret) (syscall y) none s =
        .stop (.iret f.eip f.cs (some f.ss)) s' ∧
      Returned { f with regs := Function.update f.regs .eax (-enosys) } s' := by
  obtain ⟨t, hrecorded, hrun⟩ := exec_syscall_eq hentry hcur hplaced hprocs
  have hready := ready_of_recorded hrecorded hplaced ret
  obtain ⟨t', hbad, hhandled, _, hmem⟩ :=
    exec_handleSyscall_bad proc hready.callable (hready.entry.trans haddr)
  have hhandle : linked proc y syscallTable ret y.handleSyscall
      (dispatched t cur (f.regs .eax)) = t' := by
    simp [linked, link, hbad, Result.state]
  have hesp : t'.esp = s.esp - 56#32 := by
    rw [hhandled.esp, hready.esp]
    bv_omega
  obtain ⟨s', hout, hreturned⟩ :=
    exec_answered hesp (hready.frame_kept hmem) huser hprocs hquiet
  rw [hhandled.eax] at hreturned
  rw [hhandle] at hrun
  exact ⟨s', hrun.trans hout, hreturned⟩

/-! The call `read (7, 0x8100, 5)`, which has number 3 and returns its third argument. -/

theorem cpuStateSave_of_notMem {m : Memory} {new x : Word} (hx : x ∉ block cur 88) :
    cpuStateSave m cur new x = m x := by
  have hpart : ∀ {d : Word}, d.toNat + 4 ≤ 88 → x ∉ block (cur + d) 4 :=
    fun hd hin => hx (block_subset hd hin)
  have hmoved : memmove m cur new 64 x = m x := by
    have hlarge : ¬ (x - cur).toNat < 64 := fun hin => hx (lt_of_lt_of_le hin (by decide))
    exact if_neg hlarge
  unfold cpuStateSave
  dsimp only
  split
  · rw [store_of_notMem (hpart (by decide)), store_of_notMem (hpart (by decide)), hmoved]
  · exact hmoved

def readSymbols : Symbols where
  syscallNr := 0x3000#32
  currentCpuState := 0x3004#32
  currentProcess := 0x3008#32
  cpuStateSave := 0xC0002000#32
  handleSyscall := 0xC0003000#32
  signalHandler := 0xC0004000#32

def readProcs : Procs := fun a t =>
  if a = 0xC0001000#32 then t.set .eax (load t.mem (t.esp + 8#32))
  else if a = 0xC0002000#32 then
    { t with mem := cpuStateSave t.mem 0x4000#32 (load t.mem t.esp) }
  else if a = 0xC0004000#32 then t.set .eax 0#32
  else t

def readTrap : Trap where
  regs
    | .eax => 3#32
    | .ebx => 7#32
    | .ecx => 0x8100#32
    | .edx => 5#32
    | .esp => 0x1FEC#32
    | _ => 9#32
  segs _ := 0x23#16
  error := 0#32
  eip := 0x8000#32
  cs := 0x1B#32
  eflags := 0x202#32
  esp := 0xBFFFF000#32
  ss := userDsSelector

def readState : State where
  regs := readTrap.regs
  segs := readTrap.segs
  flags := Flags.ofWord 0x2#32
  mem := putWords (putWords (putWords (fun _ => 0#8) 0x1FEC#32 readTrap.pushed)
    0x3004#32 [0x4000#32]) 0x5018#32 [0xC0001000#32, 3#32]

def readLinked : Procs := linked readProcs readSymbols 0x5000#32 0xC0000100#32

theorem cdecl_set_eax (t : State) (v : Word) (own : Set Word) : Cdecl t (t.set .eax v) own := by
  constructor <;> simp

theorem read_signal (t : State) : readLinked readSymbols.signalHandler t = t.set .eax 0#32 := by
  simp [readLinked, linked, link, readSymbols, readProcs]

theorem read_placed :
    Placed readState readSymbols 0x4000#32 0x5000#32 (readState.regs .eax) := by
  have hlow : ∀ {a b : Word} {k n : ℕ}, a.toNat + k ≤ b.toNat → b.toNat + n ≤ 2 ^ 32 →
      Disjoint (block a k) (block b n) := by
    intro a b k n hle hfit
    simpa using block_disjoint (a := 0#32) hle hfit
  constructor
  · exact hlow (by decide) (by decide)
  · exact hlow (by decide) (by decide)
  · exact hlow (by decide) (by decide)
  · exact hlow (by decide) (by decide)
  · exact hlow (by decide) (by decide)
  · exact hlow (by decide) (by decide)
  · exact hlow (by decide) (by decide)
  · exact hlow (by decide) (by decide)
  · exact hlow (by decide) (by decide)

theorem read_procedures : Procedures readLinked readState readSymbols 0x4000#32 0x5000#32
    (readState.regs .eax) := by
  have hsave : ∀ t, readLinked readSymbols.cpuStateSave t =
      { t with mem := cpuStateSave t.mem 0x4000#32 (load t.mem t.esp) } := by
    intro t
    simp [readLinked, linked, link, readSymbols, readProcs]
  have hplaced := read_placed
  constructor
  · intro t _
    rw [hsave]
    refine ⟨rfl, rfl, rfl, rfl, rfl, rfl, ?_⟩
    intro x hx
    apply cpuStateSave_of_notMem
    intro hstate
    rcases hx with ((hframe | hnumber) | hpointer) | hentry
    · exact Set.disjoint_left.mp hplaced.state
        (room_subset (k := 48) (by decide) (by decide) hframe) hstate
    · exact Set.disjoint_left.mp hplaced.numberState hnumber hstate
    · exact Set.disjoint_left.mp hplaced.pointerState hpointer hstate
    · exact Set.disjoint_left.mp hplaced.stateEntry hstate hentry
  · intro t _ x _
    rw [hsave]
  · intro t _
    rw [read_signal]
    exact cdecl_set_eax t _ _

theorem read_function (v : State) :
    Cdecl v (readProcs 0xC0001000#32 v) (block (readState.esp - 76#32) 96) := by
  simpa [readProcs] using cdecl_set_eax v _ _

theorem exec_syscall_read : ∃ w s',
    exec readLinked (syscall readSymbols) none readState =
        .stop (.iret readTrap.eip readTrap.cs (some readTrap.ss)) s' ∧
      Invoked w readTrap 3#32 ∧
      Returned { readTrap with
        regs := Function.update readTrap.regs .eax
          ((readProcs 0xC0001000#32 w).regs .eax) } s' :=
  exec_syscall ⟨by decide, rfl, rfl, rfl⟩ (by decide) (by decide) read_placed read_procedures
    (fun v _ => by rw [← readLinked, read_signal]; simp)
    (by decide) (by decide) (by decide) (by decide) (fun v _ => read_function v)

end Yak.Syscall
