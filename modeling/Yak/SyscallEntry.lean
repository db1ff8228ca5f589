import Yak.Machine32

/-!
# System calls

A transcription of `handle_syscall` in `arch/i386/syscall_asm.S`.  An entry of the system call
table has the address of a function and the number of its arguments.  The arguments are the first
words of the saved state of the user: the last one is `%ebp`, the first one `%ebx`.
-/

namespace Yak.Syscall

open Machine32

def enosys : Word := 54#32

/-! ## The routine -/

/-- Keep the registers of the caller. -/
def prologue : List Instr :=
  [.push (.reg .ebp),
   .mov (.reg .esp) (.reg .ebp),
   .push (.reg .edi),
   .push (.reg .esi),
   .push (.reg .ebx)]

/-- The address of the function goes to `%ebx`. -/
def findEntry (syscallTable : Word) : List Instr :=
  [.mov (.imm syscallTable) (.reg .edi),
   .mov (.at .ebp 12#32) (.reg .eax),
   .shl 3 .eax,
   .add (.reg .eax) (.reg .edi),
   .mov (.at .edi 0#32) (.reg .eax),
   .mov (.reg .eax) (.reg .ebx),
   .test (.reg .ebx) (.reg .ebx),
   .jcc .z 0]

/-- The number of arguments goes to `%ecx` and the saved state to `%edi`. -/
def findArgs : List Instr :=
  [.mov (.at .edi 4#32) (.reg .eax),
   .mov (.reg .eax) (.reg .ecx),
   .mov (.at .ebp 8#32) (.reg .edi)]

/-- An argument is pushed if there are `n` arguments. -/
def pushArg (slot : Word × Word) : List Instr :=
  [.cmp (.imm slot.1) (.reg .ecx),
   .jcc .l 1,
   .push (.at .edi slot.2),
   .label 1]

/-- The arguments with the places of their registers in the saved state. -/
def argSlots : List (Word × Word) :=
  [(6#32, 0#32), (5#32, 4#32), (4#32, 8#32), (3#32, 12#32), (2#32, 16#32), (1#32, 20#32)]

/-- The number of arguments goes to a register which the function keeps. -/
def callEntry : List Instr :=
  [.mov (.reg .ecx) (.reg .edi),
   .sti,
   .call (.reg .ebx),
   .cli,
   .shl 2 .edi,
   .add (.reg .edi) (.reg .esp),
   .jmp 1]

def badSyscall : List Instr :=
  [.label 0,
   .mov (.imm (-enosys)) (.reg .eax)]

def epilogue : List Instr :=
  [.label 1,
   .pop (.reg .ebx),
   .pop (.reg .esi),
   .pop (.reg .edi),
   .mov (.reg .ebp) (.reg .esp),
   .pop (.reg .ebp),
   .ret]

def handleSyscall (syscallTable : Word) : List Instr :=
  prologue ++ (findEntry syscallTable ++ (findArgs ++ (argSlots.flatMap pushArg ++ (callEntry ++
    (badSyscall ++ epilogue)))))

/-! ## What it is called with -/

variable {proc : Procs} {s s₀ s' t : State} {syscallTable ret frame nr : Word}
variable {vs ws base : List Word} {slots : List (Word × Word)}

/-- The entry of a system call. -/
def entryOf (syscallTable nr : Word) : Word := syscallTable + nr <<< 3

/-- The arguments which are on the stack when the function is called, the first one on top. -/
def passed (nargs : Word) (m : Memory) (frame : Word) : List Word :=
  (argSlots.filter fun slot => !nargs.slt slot.1).reverse.map fun slot => load m (frame + slot.2)

/-- The words which the function must not change: what has been kept for the caller. -/
def kept (s : State) (ret frame nr : Word) : List Word :=
  [s.regs .ebx, s.regs .esi, s.regs .edi, s.regs .ebp, ret, frame, nr]

/-- The caller's stack with the room under it, apart from the table and the saved state. -/
structure Callable (s : State) (syscallTable ret frame nr : Word) : Prop where
  stack : Stack s [ret, frame, nr]
  entry : Disjoint (block (s.esp - 40#32) 40) (block (entryOf syscallTable nr) 8)
  frame : Disjoint (block (s.esp - 40#32) 40) (block frame 24)

/-- What a C function does: it keeps these registers and the stack of its caller. -/
structure Cdecl (s s' : State) (own : Set Word) : Prop where
  esp : s'.esp = s.esp
  ebp : s'.regs .ebp = s.regs .ebp
  ebx : s'.regs .ebx = s.regs .ebx
  esi : s'.regs .esi = s.regs .esi
  edi : s'.regs .edi = s.regs .edi
  segs : s'.segs = s.segs
  mem : ∀ x ∈ own, s'.mem x = s.mem x

/-! ## Its parts -/

/-- The state behind `prologue`. -/
def entered (s : State) : State :=
  (s.pushes [s.regs .ebp, s.regs .edi, s.regs .esi, s.regs .ebx]).set .ebp (s.esp - 4#32)

theorem exec_prologue : exec proc prologue none s = .fell none (entered s) := by
  simp only [prologue, exec, step, State.read, State.write, entered, State.push, State.set,
    State.store, State.esp, State.pushes_cons, State.pushes_nil, Function.update_apply,
    reduceCtorEq, if_true, if_false]
  congr 2
  funext r
  cases r <;> simp

theorem entered_esp : (entered s).esp = s.esp - 16#32 := by
  simp [entered, BitVec.sub_sub]

theorem entered_stack (h : Stack s [ret, frame, nr]) : Stack (entered s) (kept s ret frame nr) := by
  have hpushes := h.pushes [s.regs .ebp, s.regs .edi, s.regs .esi, s.regs .ebx] (by simp)
  simpa [Stack, entered, kept] using hpushes

theorem entered_mem {x : Word} (hx : x ∉ block (s.esp - 40#32) 40) :
    (entered s).mem x = s.mem x := by
  have hsub : block (s.esp - 16#32) 16 ⊆ block (s.esp - 40#32) 40 := by
    have hsplit : s.esp - 16#32 = s.esp - 40#32 + 24#32 := by bv_omega
    rw [hsplit]
    exact block_subset (by decide)
  have hpushed : (s.pushes [s.regs .ebp, s.regs .edi, s.regs .esi, s.regs .ebx]).mem x = s.mem x :=
    State.pushes_mem fun hmem => hx (hsub hmem)
  exact hpushed

/-- The state behind `findEntry`, where `addr` is the address of the function. -/
def found (syscallTable nr addr : Word) (s : State) : State :=
  { ((s.set .edi (entryOf syscallTable nr)).set .eax addr).set .ebx addr with
    flags := ((s.flags.ofShl nr 3).ofAdd syscallTable (nr <<< 3)).ofLogic (addr &&& addr) }

theorem exec_findEntry {addr : Word} (hnr : load s.mem (s.regs .ebp + 12#32) = nr)
    (haddr : load s.mem (entryOf syscallTable nr) = addr) :
    exec proc (findEntry syscallTable) none s =
      .fell (if addr = 0#32 then some 0 else none) (found syscallTable nr addr s) := by
  have hzf : ∀ f : Flags, (f.ofLogic (addr &&& addr)).zf = decide (addr = 0#32) := by
    intro f
    rw [BitVec.and_self]
    exact (beq_eq_decide addr 0#32)
  simp only [findEntry, exec, step, State.read, State.write, State.set, State.holds,
    Function.update_apply, reduceCtorEq, if_true, if_false, hnr, BitVec.add_zero]
  rw [entryOf] at haddr
  simp only [haddr, hzf, decide_eq_true_eq, found, State.set, entryOf]
  have hregs : Function.update (Function.update (Function.update (Function.update (Function.update
      (Function.update s.regs .edi syscallTable) .eax nr) .eax (nr <<< 3)) .edi
      (syscallTable + nr <<< 3)) .eax addr) .ebx addr =
      Function.update (Function.update (Function.update s.regs .edi (syscallTable + nr <<< 3)) .eax
        addr) .ebx addr := by
    funext r
    cases r <;> simp
  rw [hregs]
  by_cases hzero : addr = 0#32
  · simp [hzero]
  · simp [hzero]

/-- The state behind `findArgs`. -/
def located (nargs frame : Word) (s : State) : State :=
  ((s.set .eax nargs).set .ecx nargs).set .edi frame

theorem exec_findArgs {nargs : Word} (hnargs : load s.mem (s.regs .edi + 4#32) = nargs)
    (hframe : load s.mem (s.regs .ebp + 8#32) = frame) :
    exec proc findArgs none s = .fell none (located nargs frame s) := by
  simp [findArgs, exec, step, State.read, State.write, located, hnargs, hframe]

/-- What holds while the arguments are pushed. -/
structure Pushing (s₀ s : State) (vs base : List Word) : Prop where
  stack : Stack s (vs ++ base)
  esp : s.esp = s₀.esp - BitVec.ofNat 32 (4 * vs.length)
  regs : ∀ r, r ≠ .esp → s.regs r = s₀.regs r
  segs : s.segs = s₀.segs
  intr : s.flags.intr = s₀.flags.intr
  mem : ∀ x, x ∉ block (s₀.esp - 24#32) 24 → s.mem x = s₀.mem x

variable (proc) in
theorem exec_pushArg {slot : Word × Word} (h : Pushing s₀ s vs base) (hlen : vs.length < 6)
    (hbase : base.length ≤ 7)
    (hslot : Disjoint (block (s₀.esp - 24#32) 24) (block (s₀.regs .edi + slot.2) 4)) :
    ∃ s', exec proc (pushArg slot) none s = .fell none s' ∧
      Pushing s₀ s'
        (if (s₀.regs .ecx).slt slot.1 then vs
          else load s₀.mem (s₀.regs .edi + slot.2) :: vs) base := by
  have hread : load s.mem (s.regs .edi + slot.2) = load s₀.mem (s₀.regs .edi + slot.2) := by
    rw [h.regs .edi (by decide)]
    apply load_congr
    intro x hx
    exact h.mem x fun hlow => Set.disjoint_left.mp hslot hlow hx
  obtain ⟨f, hf⟩ : ∃ f, f = s.flags.ofSub (s.regs .ecx) slot.1 := ⟨_, rfl⟩
  have hlt : (f.sf != f.of) = (s₀.regs .ecx).slt slot.1 := by
    rw [hf, Flags.ofSub_lt, h.regs .ecx (by decide)]
  have hintr : f.intr = s₀.flags.intr := by
    rw [hf, ← h.intr]
    rfl
  by_cases hfew : (s₀.regs .ecx).slt slot.1
  · refine ⟨{ s with flags := f }, ?_, ?_⟩
    · rw [hfew] at hlt
      simp [pushArg, exec, step, State.read, State.holds, ← hf, hlt]
    · rw [if_pos hfew]
      exact ⟨h.stack, h.esp, h.regs, h.segs, hintr, h.mem⟩
  · refine ⟨State.push { s with flags := f } (load s₀.mem (s₀.regs .edi + slot.2)), ?_, ?_⟩
    · rw [Bool.eq_false_iff.mpr hfew] at hlt
      simp [pushArg, exec, step, State.read, State.holds, ← hf, hlt, hread]
    · rw [if_neg hfew]
      have hpush : Stack (State.push { s with flags := f } (load s₀.mem (s₀.regs .edi + slot.2)))
          (load s₀.mem (s₀.regs .edi + slot.2) :: (vs ++ base)) := by
        have hstack : Stack { s with flags := f } (vs ++ base) := h.stack
        apply hstack.push
        rw [List.length_append]
        omega
      constructor
      · exact hpush
      · have hesp : State.esp { s with flags := f } = s.esp := rfl
        rw [State.push_esp, hesp, h.esp, List.length_cons, ofNat_four_mul_succ]
        bv_omega
      · intro r hr
        simp [hr, h.regs r hr]
      · exact h.segs
      · exact hintr
      · intro x hx
        rw [State.push_mem, store_of_notMem]
        · exact h.mem x hx
        · intro hmem
          apply hx
          have hesp : State.esp { s with flags := f } - 4#32 =
              s₀.esp - BitVec.ofNat 32 (4 * (vs.length + 1)) := by
            have hsame : State.esp { s with flags := f } = s.esp := rfl
            rw [hsame, h.esp, ofNat_four_mul_succ]
            bv_omega
          rw [hesp] at hmem
          exact block_below (by omega) (by omega) hmem

variable (proc slots) in
theorem exec_pushArgs {nargs : Word} (hnargs : s₀.regs .ecx = nargs) (hbase : base.length ≤ 7)
    (hslots : ∀ slot ∈ slots,
      Disjoint (block (s₀.esp - 24#32) 24) (block (s₀.regs .edi + slot.2) 4))
    (h : Pushing s₀ s vs base) (hlen : vs.length + slots.length ≤ 6) :
    ∃ s', exec proc (slots.flatMap pushArg) none s = .fell none s' ∧
      Pushing s₀ s'
        ((slots.filter fun slot => !nargs.slt slot.1).reverse.map
          (fun slot => load s₀.mem (s₀.regs .edi + slot.2)) ++ vs) base := by
  induction slots generalizing s vs with
  | nil => exact ⟨s, rfl, h⟩
  | cons slot slots ih =>
      rw [List.length_cons] at hlen
      obtain ⟨s₁, hrun₁, h₁⟩ := exec_pushArg proc h (by omega) hbase
        (hslots slot List.mem_cons_self)
      rw [hnargs] at h₁
      have hslots' := fun slot' hmem => hslots slot' (List.mem_cons_of_mem slot hmem)
      by_cases hfew : nargs.slt slot.1
      · rw [if_pos hfew] at h₁
        obtain ⟨s', hrun, h'⟩ := ih hslots' h₁ (by omega)
        refine ⟨s', ?_, ?_⟩
        · rw [List.flatMap_cons, exec_append_of_fell hrun₁, hrun]
        · simpa [hfew] using h'
      · rw [if_neg hfew] at h₁
        obtain ⟨s', hrun, h'⟩ := ih hslots' h₁ (by rw [List.length_cons]; omega)
        refine ⟨s', ?_, ?_⟩
        · rw [List.flatMap_cons, exec_append_of_fell hrun₁, hrun]
        · simpa [Bool.eq_false_iff.mpr hfew] using h'

/-- The state in which the function is called. -/
def calling (s : State) : State :=
  { s.set .edi (s.regs .ecx) with flags := { s.flags with intr := true } }

theorem exec_callEntry {own : Set Word}
    (h : Cdecl (calling s) (proc (s.regs .ebx) (calling s)) own) :
    ∃ s', exec proc callEntry none s = .fell (some 1) s' ∧
      s'.esp = s.esp + s.regs .ecx <<< 2 ∧ s'.regs .ebp = s.regs .ebp ∧
      s'.regs .eax = (proc (s.regs .ebx) (calling s)).regs .eax ∧ s'.segs = s.segs ∧
      s'.flags.intr = false ∧ s'.mem = (proc (s.regs .ebx) (calling s)).mem := by
  obtain ⟨r, hr⟩ : ∃ r, r = proc (s.regs .ebx) (calling s) := ⟨_, rfl⟩
  rw [← hr] at h ⊢
  have hrun : exec proc callEntry none s = exec proc
      [.cli, .shl 2 .edi, .add (.reg .edi) (.reg .esp), .jmp 1] none r := by
    simp [callEntry, exec, step, State.read, State.write, hr, calling]
  refine ⟨_, hrun.trans rfl, ?_, ?_, ?_, ?_, ?_, ?_⟩
  · have hesp : r.regs .esp = s.esp := h.esp
    have hedi : r.regs .edi = s.regs .ecx := by simp [h.edi, calling]
    simp [State.read, State.write, State.esp, hesp, hedi]
  · simpa [State.write, calling] using h.ebp
  · simp [State.write]
  · exact h.segs
  · rfl
  · rfl

theorem exec_badSyscall :
    exec proc badSyscall (some 0) s = .fell none (s.set .eax (-enosys)) ∧
      exec proc badSyscall (some 1) s = .fell (some 1) s := by
  constructor
  · simp [badSyscall, exec, step, State.read, State.write]
  · simp [badSyscall, exec]

/-- The state in which the caller goes on. -/
def left (s : State) (ebx esi edi ebp : Word) : State :=
  ((((s.set .ebx ebx).set .esi esi).set .edi edi).set .ebp ebp).set .esp (s.esp + 20#32)

theorem exec_epilogue {ebx esi edi ebp : Word} {target : Option ℕ}
    (htarget : target = none ∨ target = some 1) (hstack : Stack s [ebx, esi, edi, ebp, ret])
    (hebp : s.regs .ebp = s.esp + 12#32) :
    exec proc epilogue target s = .stop (.ret ret) (left s ebx esi edi ebp) := by
  have hentry : exec proc epilogue target s = exec proc epilogue.tail none s := by
    rcases htarget with rfl | rfl
    · rfl
    · rfl
  simp only [Stack, State.esp, words_cons, words_nil, BitVec.add_assoc, BitVec.reduceAdd,
    and_true] at hstack hebp
  rw [hentry]
  simp only [epilogue, List.tail_cons, exec, step, State.read, State.write, State.drop, State.set,
    State.top, State.esp, Function.update_apply, reduceCtorEq, if_true, if_false, BitVec.add_assoc,
    BitVec.reduceAdd, hstack, hebp, left]
  congr 2
  funext r
  cases r <;> simp

/-! ## The whole routine -/

/-- How `handle_syscall` returns. -/
structure Handled (s s' : State) (eax : Word) : Prop where
  eax : s'.regs .eax = eax
  ebx : s'.regs .ebx = s.regs .ebx
  esi : s'.regs .esi = s.regs .esi
  edi : s'.regs .edi = s.regs .edi
  ebp : s'.regs .ebp = s.regs .ebp
  esp : s'.esp = s.esp + 4#32
  segs : s'.segs = s.segs

/-- What is on the stack when the function is called, and with interrupts on. -/
structure Called (s t : State) (nargs ret frame nr : Word) : Prop where
  stack : Stack t (passed nargs s.mem frame ++ kept s ret frame nr)
  intr : t.flags.intr = true
  segs : t.segs = s.segs
  mem : ∀ x, x ∉ block (s.esp - 40#32) 40 → t.mem x = s.mem x

theorem passed_length {nargs : Word} (m : Memory) (hfew : nargs.toNat ≤ 6) :
    (passed nargs m frame).length = nargs.toNat := by
  have hcount : ∀ n : Fin 7,
      (argSlots.filter fun slot => !(BitVec.ofNat 32 n.val).slt slot.1).length = n.val := by
    decide
  have hn := hcount ⟨nargs.toNat, by omega⟩
  simpa [passed] using hn

theorem entered_args (h : Stack s [ret, frame, nr]) :
    load (entered s).mem ((entered s).regs .ebp + 8#32) = frame ∧
      load (entered s).mem ((entered s).regs .ebp + 12#32) = nr := by
  have hstack := entered_stack h
  have hbase : (entered s).regs .ebp = s.esp - 16#32 + 12#32 := by
    have hebp : (entered s).regs .ebp = s.esp - 4#32 := by simp [entered]
    rw [hebp]
    bv_omega
  rw [Stack, entered_esp] at hstack
  simp only [kept, words_cons, words_nil, BitVec.add_assoc, BitVec.reduceAdd] at hstack
  rw [hbase, BitVec.add_assoc, BitVec.add_assoc]
  exact ⟨hstack.2.2.2.2.2.1, hstack.2.2.2.2.2.2.1⟩

/-- A word of the table or of the saved state is read as it was before the routine. -/
theorem load_of_low {m : Memory} {a : Word} (hm : ∀ x, x ∉ block (s.esp - 40#32) 40 → m x = s.mem x)
    (hdis : Disjoint (block (s.esp - 40#32) 40) (block a 4)) : load m a = load s.mem a :=
  load_congr fun x hx => hm x fun hlow => Set.disjoint_left.mp hdis hlow hx

theorem exec_start (h : Callable s syscallTable ret frame nr) {addr : Word}
    (haddr : load s.mem (entryOf syscallTable nr) = addr) (rest : List Instr) :
    exec proc (prologue ++ (findEntry syscallTable ++ rest)) none s =
      exec proc rest (if addr = 0#32 then some 0 else none)
        (found syscallTable nr addr (entered s)) := by
  have haddr₁ : load (entered s).mem (entryOf syscallTable nr) = addr := by
    rw [load_of_low (fun x hx => entered_mem hx) (h.entry.mono_right (block_mono (by decide)))]
    exact haddr
  rw [exec_append_of_fell exec_prologue,
    exec_append_of_fell (exec_findEntry (entered_args h.stack).2 haddr₁)]

variable (proc) in
/-- Without a function the result is `-ENOSYS`. -/
theorem exec_handleSyscall_bad (h : Callable s syscallTable ret frame nr)
    (haddr : load s.mem (entryOf syscallTable nr) = 0#32) :
    ∃ s', exec proc (handleSyscall syscallTable) none s = .stop (.ret ret) s' ∧
      Handled s s' (-enosys) ∧ s'.flags.intr = s.flags.intr ∧
      ∀ x, x ∉ block (s.esp - 40#32) 40 → s'.mem x = s.mem x := by
  obtain ⟨s₁, hs₁⟩ : ∃ s₁, s₁ = (found syscallTable nr 0#32 (entered s)).set .eax (-enosys) :=
    ⟨_, rfl⟩
  have hskip : exec proc (findArgs ++ (argSlots.flatMap pushArg ++ callEntry)) (some 0)
      (found syscallTable nr 0#32 (entered s)) =
      .fell (some 0) (found syscallTable nr 0#32 (entered s)) := exec_skip (by decide)
  have hrun : exec proc (handleSyscall syscallTable) none s = exec proc epilogue none s₁ := by
    have hparts : handleSyscall syscallTable = prologue ++ (findEntry syscallTable ++
        ((findArgs ++ (argSlots.flatMap pushArg ++ callEntry)) ++ (badSyscall ++ epilogue))) := by
      simp [handleSyscall]
    rw [hparts, exec_start h haddr, if_pos rfl, exec_append_of_fell hskip,
      exec_append_of_fell exec_badSyscall.1, hs₁]
  have hesp : s₁.esp = s.esp - 16#32 := by
    have hsame : s₁.esp = (entered s).esp := by simp [hs₁, found, State.esp]
    rw [hsame, entered_esp]
  have hstack : Stack s₁ [s.regs .ebx, s.regs .esi, s.regs .edi, s.regs .ebp, ret] := by
    have hkept := entered_stack h.stack
    rw [Stack, entered_esp] at hkept
    rw [Stack, hesp, hs₁]
    have hparts : Words (entered s).mem (s.esp - 16#32)
        ([s.regs .ebx, s.regs .esi, s.regs .edi, s.regs .ebp, ret] ++ [frame, nr]) := hkept
    exact (words_append.mp hparts).1
  have hebp : s₁.regs .ebp = s₁.esp + 12#32 := by
    have hframe : s₁.regs .ebp = s.esp - 4#32 := by simp [hs₁, found, entered]
    rw [hframe, hesp]
    bv_omega
  refine ⟨_, hrun.trans (exec_epilogue (Or.inl rfl) hstack hebp), ?_, ?_, ?_⟩
  · have hend : s₁.esp + 20#32 = s.esp + 4#32 := by
      rw [hesp]
      bv_omega
    have hsegs : s₁.segs = s.segs := by simp [hs₁, found, entered]
    have heax : s₁.regs .eax = -enosys := by simp [hs₁]
    constructor <;> simp [left, hend, hsegs, heax]
  · simp [left, hs₁, found, entered, Flags.ofLogic, Flags.ofAdd, Flags.ofShl]
  · intro x hx
    have hmem : (left s₁ (s.regs .ebx) (s.regs .esi) (s.regs .edi) (s.regs .ebp)).mem x =
        (entered s).mem x := by
      simp [left, hs₁, found]
    rw [hmem, entered_mem hx]

/-- The state behind `findArgs`, in front of the first argument. -/
theorem pushing_start (h : Callable s syscallTable ret frame nr) {addr nargs : Word}
    (ht : t = located nargs frame (found syscallTable nr addr (entered s))) :
    Pushing t t [] (kept s ret frame nr) := by
  have hstack : Stack t (kept s ret frame nr) := by
    have hkept := entered_stack h.stack
    have hesp : t.esp = (entered s).esp := by simp [ht, located, found, State.esp]
    have hmem : t.mem = (entered s).mem := by simp [ht, located, found]
    rw [Stack, hesp, hmem]
    exact hkept
  exact ⟨hstack, by simp, fun _ _ => rfl, rfl, rfl, fun _ _ => rfl⟩

theorem shift_nargs {nargs : Word} : nargs <<< 2 = BitVec.ofNat 32 (4 * nargs.toNat) := by
  apply BitVec.eq_of_toNat_eq
  rw [BitVec.toNat_shiftLeft, BitVec.toNat_ofNat, Nat.shiftLeft_eq]
  congr 1
  omega

variable (proc) in
/-- The function which the table names is called with the arguments which the table counts, and
its result comes back with the registers of the caller. -/
theorem exec_handleSyscall (h : Callable s syscallTable ret frame nr) {addr nargs : Word}
    (haddr : load s.mem (entryOf syscallTable nr) = addr) (hne : addr ≠ 0#32)
    (hnargs : load s.mem (entryOf syscallTable nr + 4#32) = nargs) (hfew : nargs.toNat ≤ 6)
    (hcall : ∀ t, t.esp = s.esp - 16#32 - nargs <<< 2 →
      Cdecl t (proc addr t) (block (s.esp - 16#32) 20)) :
    ∃ t s', exec proc (handleSyscall syscallTable) none s = .stop (.ret ret) s' ∧
      t.esp = s.esp - 16#32 - nargs <<< 2 ∧ Called s t nargs ret frame nr ∧ Handled s s' ((proc addr t).regs .eax) ∧
      s'.flags.intr = false ∧ s'.mem = (proc addr t).mem := by
  obtain ⟨s₃, hs₃⟩ : ∃ s₃, s₃ = located nargs frame (found syscallTable nr addr (entered s)) :=
    ⟨_, rfl⟩
  have hmem₃ : ∀ x, x ∉ block (s.esp - 40#32) 40 → s₃.mem x = s.mem x := by
    intro x hx
    have hsame : s₃.mem = (entered s).mem := by simp [hs₃, located, found]
    rw [hsame, entered_mem hx]
  have hesp₃ : s₃.esp = s.esp - 16#32 := by
    have hsame : s₃.esp = (entered s).esp := by simp [hs₃, located, found, State.esp]
    rw [hsame, entered_esp]
  have hedi₃ : s₃.regs .edi = frame := by simp [hs₃, located]
  have hfind : exec proc findArgs none (found syscallTable nr addr (entered s)) =
      .fell none s₃ := by
    rw [hs₃]
    apply exec_findArgs
    · have hentry : load (entered s).mem (entryOf syscallTable nr + 4#32) = nargs := by
        rw [load_of_low (fun x hx => entered_mem hx)
          (h.entry.mono_right (block_subset (by decide)))]
        exact hnargs
      simpa [found] using hentry
    · simpa [found] using (entered_args h.stack).1
  -- the arguments
  have hroom : block (s₃.esp - 24#32) 24 ⊆ block (s.esp - 40#32) 40 := by
    have hlow : s₃.esp - 24#32 = s.esp - 40#32 := by
      rw [hesp₃]
      bv_omega
    rw [hlow]
    exact block_mono (by decide)
  have hslots : ∀ slot ∈ argSlots, block (frame + slot.2) 4 ⊆ block frame 24 := by
    have hends : ∀ slot ∈ argSlots, slot.2.toNat + 4 ≤ 24 := by simp [argSlots]
    intro slot hslot
    exact block_subset (hends slot hslot)
  have hecx₃ : s₃.regs .ecx = nargs := by simp [hs₃, located]
  obtain ⟨s₄, hpush, h₄⟩ := exec_pushArgs proc argSlots hecx₃ (by simp [kept])
    (fun slot hslot => by
      rw [hedi₃]
      exact (h.frame.mono_left hroom).mono_right (hslots slot hslot))
    (pushing_start h hs₃) (by decide)
  have hargs : (argSlots.filter fun slot => !nargs.slt slot.1).reverse.map
      (fun slot => load s₃.mem (s₃.regs .edi + slot.2)) ++ [] = passed nargs s.mem frame := by
    rw [List.append_nil, passed, hedi₃]
    apply List.map_congr_left
    intro slot hslot
    have hmem : slot ∈ argSlots := (List.mem_filter.mp (List.mem_reverse.mp hslot)).1
    exact load_of_low hmem₃ (h.frame.mono_right (hslots slot hmem))
  rw [hargs] at h₄
  have hebx₄ : s₄.regs .ebx = addr := by
    rw [h₄.regs .ebx (by decide), hs₃]
    simp [located, found]
  have hecx₄ : s₄.regs .ecx = nargs := by
    rw [h₄.regs .ecx (by decide), hs₃]
    simp [located]
  have hebp₄ : s₄.regs .ebp = s.esp - 4#32 := by
    rw [h₄.regs .ebp (by decide), hs₃]
    simp [located, found, entered]
  -- the call
  have hesp₄ : (calling s₄).esp = s.esp - 16#32 - nargs <<< 2 := by
    have hsame : (calling s₄).esp = s₄.esp := by simp [calling, State.esp]
    rw [hsame, h₄.esp, passed_length _ hfew, shift_nargs, hesp₃]
  have hcall₄ : Cdecl (calling s₄) (proc (s₄.regs .ebx) (calling s₄))
      (block (s.esp - 16#32) 20) := by
    rw [hebx₄]
    exact hcall _ hesp₄
  obtain ⟨s₅, hrun₅, hesp₅, hebp₅, heax₅, hsegs₅, hintr₅, hmem₅⟩ := exec_callEntry hcall₄
  rw [hebx₄] at hcall₄ heax₅ hmem₅
  have hesp : s₅.esp = s.esp - 16#32 := by
    rw [hesp₅, h₄.esp, hecx₄, passed_length _ hfew, shift_nargs, hesp₃]
    bv_omega
  have hstack₅ : Stack s₅ [s.regs .ebx, s.regs .esi, s.regs .edi, s.regs .ebp, ret] := by
    have hwords := (words_append.mp h₄.stack).2
    have hbase : s₄.esp + BitVec.ofNat 32 (4 * (passed nargs s.mem frame).length) =
        s.esp - 16#32 := by
      rw [h₄.esp, hesp₃]
      bv_omega
    rw [hbase] at hwords
    have hparts : Words s₄.mem (s.esp - 16#32)
        ([s.regs .ebx, s.regs .esi, s.regs .edi, s.regs .ebp, ret] ++ [frame, nr]) := hwords
    have hfive := (words_append.mp hparts).1
    rw [Stack, hesp, hmem₅]
    apply hfive.congr
    intro x hx
    exact hcall₄.mem x hx
  have hrun : exec proc (handleSyscall syscallTable) none s = exec proc epilogue (some 1) s₅ := by
    rw [handleSyscall, exec_start h haddr, if_neg hne, exec_append_of_fell hfind,
      exec_append_of_fell hpush, exec_append_of_fell hrun₅, exec_append_of_fell exec_badSyscall.2]
  refine ⟨calling s₄, _, hrun.trans (exec_epilogue (Or.inr rfl) hstack₅ ?_), hesp₄, ?_, ?_,
    ?_, ?_⟩
  · rw [hebp₅, hebp₄, hesp]
    bv_omega
  · constructor
    · have hsame : (calling s₄).esp = s₄.esp := by simp [calling, State.esp]
      rw [Stack, hsame]
      exact h₄.stack
    · rfl
    · have hsegs : (calling s₄).segs = s₃.segs := h₄.segs
      rw [hsegs, hs₃]
      simp [located, found, entered]
    · intro x hx
      have hsame : (calling s₄).mem x = s₃.mem x := h₄.mem x fun hlow => hx (hroom hlow)
      rw [hsame, hmem₃ x hx]
  · have hend : s₅.esp + 20#32 = s.esp + 4#32 := by
      rw [hesp]
      bv_omega
    have hsegs : s₅.segs = s.segs := by
      rw [hsegs₅, h₄.segs, hs₃]
      simp [located, found, entered]
    constructor <;> simp [left, hend, hsegs, heax₅]
  · simpa [left] using hintr₅
  · simpa [left] using hmem₅

end Yak.Syscall
