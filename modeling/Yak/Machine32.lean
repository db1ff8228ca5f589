import Yak.MachineMemory

/-!
# A 32-bit machine

The registers, the flags and the instructions which the routines of a kernel
in assembly need.  A routine is a list of instructions whose jumps go forward
to local labels, so that it is executed by recursion on the list.  A call runs
a procedure `proc`, which is the whole call with the push of the return address
and the return.

The machine runs at privilege level 0, in a flat segment, and a flag which an
instruction leaves undefined keeps its value.
-/

namespace Machine32

inductive Reg where
  | eax | ecx | edx | ebx | esp | ebp | esi | edi
  deriving DecidableEq, Repr

inductive Seg where
  | ds | es | fs | gs
  deriving DecidableEq, Repr

/-! ## Flags -/

structure Flags where
  cf : Bool
  pf : Bool
  af : Bool
  zf : Bool
  sf : Bool
  tf : Bool
  intr : Bool
  df : Bool
  of : Bool
  iopl0 : Bool
  iopl1 : Bool
  nt : Bool
  ac : Bool
  id : Bool
  deriving DecidableEq, Repr

namespace Flags

/-- The bits from the lowest on, with the fixed ones. -/
def bits (f : Flags) : List Bool :=
  [f.cf, true, f.pf, false, f.af, false, f.zf, f.sf, f.tf, f.intr, f.df, f.of, f.iopl0, f.iopl1,
    f.nt, false, false, false, f.ac, false, false, f.id]

/-- `EFLAGS` as `pushf` stores it. -/
def toWord (f : Flags) : Word := (BitVec.ofBoolListLE f.bits).setWidth 32

/-- `EFLAGS` as `popf` loads it. -/
def ofWord (w : Word) : Flags where
  cf := w.getLsbD 0
  pf := w.getLsbD 2
  af := w.getLsbD 4
  zf := w.getLsbD 6
  sf := w.getLsbD 7
  tf := w.getLsbD 8
  intr := w.getLsbD 9
  df := w.getLsbD 10
  of := w.getLsbD 11
  iopl0 := w.getLsbD 12
  iopl1 := w.getLsbD 13
  nt := w.getLsbD 14
  ac := w.getLsbD 18
  id := w.getLsbD 21

@[simp] theorem ofWord_toWord (f : Flags) : ofWord f.toWord = f := by
  have hbit : ∀ i < 32, f.toWord.getLsbD i = f.bits.getD i false := by
    intro i hi
    simp only [toWord, BitVec.getLsbD_setWidth, BitVec.getLsbD_ofBoolListLE, hi, decide_true,
      Bool.true_and]
  simp (disch := decide) only [ofWord, hbit]
  rfl

/-- The parity of the lowest byte. -/
def parity (w : Word) : Bool :=
  ((List.range 8).filter fun i => w.getLsbD i).length % 2 = 0

/-- The flags after `a - b`. -/
def ofSub (f : Flags) (a b : Word) : Flags :=
  { f with
    cf := decide (a < b)
    pf := parity (a - b)
    af := decide (a.toNat % 16 < b.toNat % 16)
    zf := a == b
    sf := (a - b).msb
    of := (a.msb != b.msb) && ((a - b).msb != a.msb) }

/-- The flags after `a + b`. -/
def ofAdd (f : Flags) (a b : Word) : Flags :=
  { f with
    cf := decide (2 ^ 32 ≤ a.toNat + b.toNat)
    pf := parity (a + b)
    af := decide (16 ≤ a.toNat % 16 + b.toNat % 16)
    zf := a + b == 0#32
    sf := (a + b).msb
    of := (a.msb == b.msb) && ((a + b).msb != a.msb) }

/-- The flags after a logical operation. -/
def ofLogic (f : Flags) (w : Word) : Flags :=
  { f with cf := false, pf := parity w, zf := w == 0#32, sf := w.msb, of := false }

/-- The flags after a shift to the left by `n` bits, where `0 < n < 32`. -/
def ofShl (f : Flags) (w : Word) (n : ℕ) : Flags :=
  { f with
    cf := w.getLsbD (32 - n)
    pf := parity (w <<< n)
    zf := w <<< n == 0#32
    sf := (w <<< n).msb
    of := if n = 1 then (w <<< n).msb != w.msb else f.of }

/-- After a comparison `SF ≠ OF` is the signed order. -/
theorem ofSub_lt (f : Flags) (a b : Word) : ((f.ofSub a b).sf != (f.ofSub a b).of) = a.slt b := by
  have ha := a.isLt
  have hb := b.isLt
  have hsub : (a - b).toNat = if b.toNat ≤ a.toNat then a.toNat - b.toNat
      else 2 ^ 32 + a.toNat - b.toNat := by
    rw [BitVec.toNat_sub]
    split <;> omega
  have hmsb : ∀ v : Word, v.msb = decide (2 ^ 31 ≤ v.toNat) := BitVec.msb_eq_decide
  have hint : ∀ v : Word, v.toInt = v.toNat - if 2 ^ 31 ≤ v.toNat then 2 ^ 32 else 0 := by
    intro v
    rw [BitVec.toInt_eq_msb_cond, hmsb]
    simp only [decide_eq_true_eq]
    split <;> simp
  simp only [ofSub, BitVec.slt_eq_decide, hint, hmsb, hsub]
  by_cases hle : b.toNat ≤ a.toNat
  · simp only [hle, if_true]
    grind
  · simp only [hle, if_false]
    grind

end Flags

/-! ## States -/

structure State where
  regs : Reg → Word
  segs : Seg → BitVec 16
  flags : Flags
  mem : Memory

namespace State

def set (s : State) (r : Reg) (v : Word) : State :=
  { s with regs := Function.update s.regs r v }

def esp (s : State) : Word := s.regs .esp

def store (s : State) (a v : Word) : State := { s with mem := Machine32.store s.mem a v }

def push (s : State) (v : Word) : State := (s.set .esp (s.esp - 4#32)).store (s.esp - 4#32) v

/-- The word on top of the stack. -/
def top (s : State) : Word := load s.mem s.esp

def drop (s : State) (n : Word) : State := s.set .esp (s.esp + n)

def setSeg (s : State) (r : Seg) (v : BitVec 16) : State :=
  { s with segs := Function.update s.segs r v }

variable {s : State} {r r' : Reg} {a v w : Word} {ws : List Word}

@[simp] theorem set_regs_self : (s.set r v).regs r = v := by simp [set]

@[simp] theorem set_regs_apply : (s.set r v).regs r' = if r' = r then v else s.regs r' := by
  simp [set, Function.update_apply]

@[simp] theorem set_mem : (s.set r v).mem = s.mem := rfl

@[simp] theorem set_flags : (s.set r v).flags = s.flags := rfl

@[simp] theorem set_segs : (s.set r v).segs = s.segs := rfl

@[simp] theorem store_regs : (s.store a v).regs = s.regs := rfl

@[simp] theorem store_flags : (s.store a v).flags = s.flags := rfl

@[simp] theorem store_segs : (s.store a v).segs = s.segs := rfl

@[simp] theorem store_mem : (s.store a v).mem = Machine32.store s.mem a v := rfl

@[simp] theorem esp_set : (s.set r v).esp = if Reg.esp = r then v else s.esp := set_regs_apply

@[simp] theorem esp_store : (s.store a v).esp = s.esp := rfl

@[simp] theorem push_regs : (s.push v).regs r = if r = .esp then s.esp - 4#32 else s.regs r := by
  simp [push]

@[simp] theorem push_esp : (s.push v).esp = s.esp - 4#32 := by simp [push]

@[simp] theorem push_flags : (s.push v).flags = s.flags := rfl

@[simp] theorem push_segs : (s.push v).segs = s.segs := rfl

@[simp] theorem push_mem : (s.push v).mem = Machine32.store s.mem (s.esp - 4#32) v := rfl

end State

/-- The words on the stack from its top on. -/
def Stack (s : State) (ws : List Word) : Prop := Words s.mem s.esp ws

instance (s : State) (ws : List Word) : Decidable (Stack s ws) :=
  inferInstanceAs (Decidable (Words _ _ _))

/-! ## Instructions -/

inductive Operand where
  | imm (v : Word)
  | reg (r : Reg)
  | mem (a : Word)
  | at (base : Reg) (disp : Word)
  deriving DecidableEq, Repr

inductive Cond where
  | z
  | l
  deriving DecidableEq, Repr

/-- The source stands before the destination. -/
inductive Instr where
  | push (src : Operand)
  | pop (dst : Operand)
  | pushSeg (r : Seg)
  | popSeg (r : Seg)
  | movSeg (src : Reg) (dst : Seg)
  | pushf
  | popf
  | mov (src dst : Operand)
  | xchg (r : Reg) (dst : Operand)
  | add (src dst : Operand)
  | sub (src dst : Operand)
  | shl (n : ℕ) (dst : Reg)
  | cmp (src dst : Operand)
  | test (src dst : Operand)
  | jcc (c : Cond) (l : ℕ)
  | jmp (l : ℕ)
  | label (l : ℕ)
  | call (target : Operand)
  | cli
  | sti
  | hlt
  | ret
  | iret
  deriving DecidableEq, Repr

/-- How a routine is left. -/
inductive Exit where
  | ret (target : Word)
  /-- The frame of a return from an interrupt has been popped. -/
  | iret (eip cs : Word) (ss : Option Word)
  | halted
  deriving DecidableEq, Repr

inductive Outcome where
  | next (s : State)
  | goto (l : ℕ) (s : State)
  | stop (e : Exit) (s : State)

namespace State

def read (s : State) : Operand → Word
  | .imm v => v
  | .reg r => s.regs r
  | .mem a => load s.mem a
  | .at base disp => load s.mem (s.regs base + disp)

def write (s : State) (o : Operand) (v : Word) : State :=
  match o with
  | .reg r => s.set r v
  | .imm _ => s
  | .mem a => s.store a v
  | .at base disp => s.store (s.regs base + disp) v

def holds (s : State) : Cond → Bool
  | .z => s.flags.zf
  | .l => s.flags.sf != s.flags.of

end State

/-- The procedures which a routine calls.  A procedure gets the state in front of the call. -/
abbrev Procs := Word → State → State

/-- One instruction.  A `pop` computes the address of its destination with the new `%esp`. -/
def step (proc : Procs) (s : State) : Instr → Outcome
  | .push src => .next (s.push (s.read src))
  | .pop dst => .next ((s.drop 4#32).write dst s.top)
  | .pushSeg r => .next (s.push ((s.segs r).setWidth 32))
  | .popSeg r => .next ((s.drop 4#32).setSeg r (s.top.setWidth 16))
  | .movSeg src dst => .next (s.setSeg dst ((s.regs src).setWidth 16))
  | .pushf => .next (s.push s.flags.toWord)
  | .popf => .next { s.drop 4#32 with flags := Flags.ofWord s.top }
  | .mov src dst => .next (s.write dst (s.read src))
  | .xchg r dst => .next ((s.write dst (s.regs r)).set r (s.read dst))
  | .add src dst => .next
      { s.write dst (s.read dst + s.read src) with
        flags := s.flags.ofAdd (s.read dst) (s.read src) }
  | .sub src dst => .next
      { s.write dst (s.read dst - s.read src) with
        flags := s.flags.ofSub (s.read dst) (s.read src) }
  | .shl n dst => .next
      { s.set dst (s.regs dst <<< n) with flags := s.flags.ofShl (s.regs dst) n }
  | .cmp src dst => .next { s with flags := s.flags.ofSub (s.read dst) (s.read src) }
  | .test src dst => .next { s with flags := s.flags.ofLogic (s.read dst &&& s.read src) }
  | .jcc c l => if s.holds c then .goto l s else .next s
  | .jmp l => .goto l s
  | .label _ => .next s
  | .call target => .next (proc (s.read target) s)
  | .cli => .next { s with flags := { s.flags with intr := false } }
  | .sti => .next { s with flags := { s.flags with intr := true } }
  | .hlt => if s.flags.intr then .next s else .stop .halted s
  | .ret => .stop (.ret s.top) (s.drop 4#32)
  | .iret =>
      let eip := s.top
      let cs := load s.mem (s.esp + 4#32)
      let flags := Flags.ofWord (load s.mem (s.esp + 8#32))
      -- a return to another privilege level takes the stack with it
      if cs &&& 3#32 = 0#32 then .stop (.iret eip cs none) { s.drop 12#32 with flags := flags }
      else
        .stop (.iret eip cs (some (load s.mem (s.esp + 16#32))))
          { s.set .esp (load s.mem (s.esp + 12#32)) with flags := flags }

inductive Result where
  /-- Behind the last instruction, or on the way to a label which has not come. -/
  | fell (target : Option ℕ) (s : State)
  | stop (e : Exit) (s : State)

/-- A routine, on the way to a label or not. -/
def exec (proc : Procs) : List Instr → Option ℕ → State → Result
  | [], target, s => .fell target s
  | i :: is, some l, s => if i = .label l then exec proc is none s else exec proc is (some l) s
  | i :: is, none, s =>
      match step proc s i with
      | .next s => exec proc is none s
      | .goto l s => exec proc is (some l) s
      | .stop e s => .stop e s

/-- The state in which a routine is left. -/
def Result.state : Result → State
  | .fell _ s => s
  | .stop _ s => s

/-- The routine stands at this address, and a call of it pushes the return address `ret`. -/
def link (proc : Procs) (addr ret : Word) (is : List Instr) : Procs := fun a s =>
  if a = addr then (exec proc is none (s.push ret)).state else proc a s

variable {proc : Procs} {s s' : State} {is js : List Instr} {target : Option ℕ}
variable {a v w : Word} {rs : List Reg} {vs ws : List Word}

theorem exec_append : exec proc (is ++ js) target s =
    match exec proc is target s with
    | .fell target' s' => exec proc js target' s'
    | .stop e s' => .stop e s' := by
  induction is generalizing target s with
  | nil => cases target <;> rfl
  | cons i is ih =>
      cases target with
      | some l =>
          simp only [List.cons_append, exec]
          split
          · exact ih
          · exact ih
      | none =>
          simp only [List.cons_append, exec]
          cases hstep : step proc s i with
          | next s₁ => exact ih
          | goto l s₁ => exact ih
          | stop e s₁ => rfl

theorem exec_append_of_fell {target' : Option ℕ} (h : exec proc is target s = .fell target' s') :
    exec proc (is ++ js) target s = exec proc js target' s' := by
  rw [exec_append, h]

theorem exec_skip {l : ℕ} (h : Instr.label l ∉ is) :
    exec proc is (some l) s = .fell (some l) s := by
  induction is with
  | nil => rfl
  | cons i is ih =>
      rw [List.mem_cons, not_or] at h
      simp [exec, Ne.symm h.1, ih h.2]

/-! ## The stack -/

theorem Stack.push (h : Stack s ws) (hfit : 4 * ws.length + 4 ≤ 2 ^ 32) :
    Stack (s.push v) (v :: ws) := by
  simpa only [Stack, State.push_esp, State.push_mem] using Words.push h hfit

theorem Stack.top (h : Stack s (w :: ws)) : s.top = w := h.1

theorem Stack.drop (h : Stack s (w :: ws)) : Stack (s.drop 4#32) ws := by
  simpa [Stack, State.drop] using h.2

namespace State

/-- The words are pushed in this order. -/
def pushes (s : State) (vs : List Word) : State := vs.foldl push s

@[simp] theorem pushes_nil : s.pushes [] = s := rfl

@[simp] theorem pushes_cons : s.pushes (v :: vs) = (s.push v).pushes vs := rfl

@[simp] theorem pushes_segs : (s.pushes vs).segs = s.segs := by
  induction vs generalizing s with
  | nil => rfl
  | cons v vs ih => simp [ih]

theorem pushes_esp : (s.pushes vs).esp = s.esp - BitVec.ofNat 32 (4 * vs.length) := by
  induction vs generalizing s with
  | nil => simp
  | cons v vs ih =>
      rw [pushes_cons, ih, push_esp, List.length_cons, ofNat_four_mul_succ]
      bv_omega

/-- Only the words under the stack change. -/
theorem pushes_mem {x : Word}
    (hx : x ∉ block (s.esp - BitVec.ofNat 32 (4 * vs.length)) (4 * vs.length)) :
    (s.pushes vs).mem x = s.mem x := by
  induction vs generalizing s with
  | nil => rfl
  | cons v vs ih =>
      have hlow : s.esp - BitVec.ofNat 32 (4 * (vs.length + 1)) =
          s.esp - 4#32 - BitVec.ofNat 32 (4 * vs.length) := by
        rw [ofNat_four_mul_succ]
        bv_omega
      rw [List.length_cons] at hx
      rw [pushes_cons, ih]
      · apply store_of_notMem
        intro hmem
        exact hx (block_below (k := 4) (by omega) (by omega) hmem)
      · rw [push_esp, ← hlow]
        intro hmem
        exact hx (block_mono (by omega) hmem)

end State

variable (vs) in
theorem Stack.pushes (h : Stack s ws) (hfit : 4 * (vs.length + ws.length) ≤ 2 ^ 32) :
    Stack (s.pushes vs) (vs.reverse ++ ws) := by
  induction vs generalizing s ws with
  | nil => exact h
  | cons v vs ih =>
      rw [List.length_cons] at hfit
      have hpush : Stack (s.push v) (v :: ws) := h.push (by omega)
      have hrest := ih hpush (by rw [List.length_cons]; omega)
      simpa using hrest

/-! ## Saving and restoring registers -/

def pushRegs (rs : List Reg) : List Instr := rs.map fun r => .push (.reg r)

def popRegs (rs : List Reg) : List Instr := rs.map fun r => .pop (.reg r)

theorem exec_pushRegs (hrs : Reg.esp ∉ rs) :
    exec proc (pushRegs rs) none s = .fell none (s.pushes (rs.map s.regs)) := by
  induction rs generalizing s with
  | nil => rfl
  | cons r rs ih =>
      rw [List.mem_cons, not_or] at hrs
      have hsame : rs.map (s.push (s.regs r)).regs = rs.map s.regs := by
        apply List.map_congr_left
        intro r' hr'
        have hne : r' ≠ .esp := by
          rintro rfl
          exact hrs.2 hr'
        simp [hne]
      have hrest := ih (s := s.push (s.regs r)) hrs.2
      rw [hsame] at hrest
      simpa [pushRegs, exec, step, State.read] using hrest

/-- The first register has got the first word from the stack. -/
structure Popped (rs : List Reg) (vs : List Word) (s s' : State) : Prop where
  regs : rs.map s'.regs = vs
  others : ∀ r, r ∉ rs → r ≠ .esp → s'.regs r = s.regs r
  esp : s'.esp = s.esp + BitVec.ofNat 32 (4 * rs.length)
  segs : s'.segs = s.segs
  flags : s'.flags = s.flags
  mem : s'.mem = s.mem

variable (proc rs vs) in
theorem exec_popRegs (hrs : Reg.esp ∉ rs) (hnodup : rs.Nodup) (hlen : rs.length = vs.length)
    (h : Stack s (vs ++ ws)) :
    ∃ s', exec proc (popRegs rs) none s = .fell none s' ∧ Popped rs vs s s' ∧ Stack s' ws := by
  induction rs generalizing s vs with
  | nil =>
      have hvs : vs = [] := List.length_eq_zero_iff.mp hlen.symm
      subst hvs
      exact ⟨s, rfl, ⟨rfl, fun _ _ _ => rfl, by simp, rfl, rfl, rfl⟩, h⟩
  | cons r rs ih =>
      cases vs with
      | nil => simp at hlen
      | cons v vs =>
          rw [List.mem_cons, not_or] at hrs
          rw [List.nodup_cons] at hnodup
          have hr : Reg.esp ≠ r := hrs.1
          obtain ⟨s₁, hs₁⟩ : ∃ s₁, s₁ = (s.drop 4#32).set r v := ⟨_, rfl⟩
          have hstack₁ : Stack s₁ (vs ++ ws) := by
            have hdrop : Stack (s.drop 4#32) (vs ++ ws) := h.drop
            simpa [Stack, hs₁, hr] using hdrop
          obtain ⟨s', hrun, hpopped, hstack⟩ :=
            ih vs hrs.2 hnodup.2 (by simpa using hlen) hstack₁
          have hstep : exec proc (popRegs (r :: rs)) none s = exec proc (popRegs rs) none s₁ := by
            rw [hs₁, ← Stack.top h]
            rfl
          refine ⟨s', hstep.trans hrun, ?_, hstack⟩
          constructor
          · rw [List.map_cons, hpopped.regs, hpopped.others r hnodup.1 hr.symm, hs₁,
              State.set_regs_self]
          · intro r' hr' hesp
            rw [List.mem_cons, not_or] at hr'
            rw [hpopped.others r' hr'.2 hesp]
            simp [hs₁, State.drop, hr'.1, hesp]
          · rw [hpopped.esp, List.length_cons, ofNat_four_mul_succ]
            simp only [hs₁, State.esp_set, hr, if_false, State.drop, if_true]
            bv_omega
          · rw [hpopped.segs, hs₁]
            rfl
          · rw [hpopped.flags, hs₁]
            rfl
          · rw [hpopped.mem, hs₁]
            rfl

end Machine32
