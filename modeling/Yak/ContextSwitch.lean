import Yak.Machine32

/-!
# The context switch

A transcription of `asm_switch_to` in `arch/i386/switch_to.S`.  The routine saves the
registers of the running process on its own stack, stores the stack pointer in the `context`
field of the process, and takes the registers of the next process off the stack which that
process left in the same way.
-/

namespace Yak.Switch

open Machine32

/-! ## The routine -/

/-- The arguments go to the two static words. -/
def fetchArgs (oldContext newContext : Word) : List Instr :=
  [.push (.reg .ebp),
   .mov (.reg .esp) (.reg .ebp),
   .push (.reg .eax),
   .mov (.at .ebp 8#32) (.reg .eax),
   .mov (.reg .eax) (.mem oldContext),
   .mov (.at .ebp 12#32) (.reg .eax),
   .mov (.reg .eax) (.mem newContext),
   .pop (.reg .eax),
   .mov (.reg .ebp) (.reg .esp),
   .pop (.reg .ebp)]

/-- The registers in the order in which they are pushed. -/
def saved : List Reg := [.eax, .ebx, .ecx, .edx, .edi, .esi, .ebp]

def saveContext : List Instr := .pushf :: pushRegs saved

def swapStacks (oldContext newContext : Word) : List Instr :=
  [.mov (.mem oldContext) (.reg .eax),
   .mov (.reg .esp) (.at .eax 0#32),
   .mov (.mem newContext) (.reg .esp)]

def restoreContext : List Instr := popRegs saved.reverse ++ [.popf]

/-- Return, unless the return address is a positive number from `0x60000000` on. -/
def checkReturn : List Instr :=
  [.cmp (.imm 0x60000000#32) (.at .esp 0#32),
   .jcc .l 1,
   .cli,
   .hlt,
   .label 1,
   .ret]

def asmSwitchTo (oldContext newContext : Word) : List Instr :=
  fetchArgs oldContext newContext ++ (saveContext ++ (swapStacks oldContext newContext ++
    (restoreContext ++ checkReturn)))

variable {proc : Procs} {s s' : State} {oldContext newContext old new ret : Word} {k : ℕ}

/-! ## What it saves -/

/-- What is kept of a suspended process. -/
structure Context where
  regs : Reg → Word
  eflags : Word
  eip : Word

/-- The words from the stack pointer on. -/
def Context.words (c : Context) : List Word := saved.reverse.map c.regs ++ [c.eflags, c.eip]

/-- What a call in the state `t` with the return address `ret` keeps. -/
def contextOf (t : State) (ret : Word) : Context := ⟨t.regs, t.flags.toWord, ret⟩

/-- The caller's stack with the arguments and the room under it, and the word of the `context`
field. -/
structure Callable (s : State) (oldContext newContext ret old new : Word) : Prop where
  stack : Stack s [ret, old, new]
  stackOld : Disjoint (block (s.esp - 32#32) 44) (block oldContext 4)
  stackNew : Disjoint (block (s.esp - 32#32) 44) (block newContext 4)
  stackSlot : Disjoint (block (s.esp - 32#32) 44) (block old 4)
  statics : Disjoint (block oldContext 4) (block newContext 4)
  slotNew : Disjoint (block old 4) (block newContext 4)

/-- An address which the routine does not write. -/
structure Untouched (s : State) (oldContext newContext old x : Word) : Prop where
  stack : x ∉ block (s.esp - 32#32) 32
  staticOld : x ∉ block oldContext 4
  staticNew : x ∉ block newContext 4
  slot : x ∉ block old 4

/-! ## Its parts -/

/-- The memory behind `fetchArgs`. -/
def fetched (s : State) (oldContext newContext old new : Word) : Memory :=
  store (store (s.pushes [s.regs .ebp, s.regs .eax]).mem oldContext old) newContext new

theorem exec_fetchArgs (h : Callable s oldContext newContext ret old new) :
    exec proc (fetchArgs oldContext newContext) none s =
      .fell none { s with mem := fetched s oldContext newContext old new } := by
  obtain ⟨e, he⟩ : ∃ e, s.esp = e + 8#32 := ⟨s.esp - 8#32, by bv_omega⟩
  have hesp : s.regs .esp = e + 8#32 := he
  have hlow : block e 20 ⊆ block (s.esp - 32#32) 44 := by
    have hsplit : e = s.esp - 32#32 + 24#32 := by bv_omega
    rw [hsplit]
    exact block_subset (by decide)
  have hpushed : Words (store (store s.mem (e + 4#32) (s.regs .ebp)) e (s.regs .eax)) e
      [s.regs .eax, s.regs .ebp, ret, old, new] := by
    have hpushes := h.stack.pushes [s.regs .ebp, s.regs .eax] (by simp)
    simpa [Stack, he, offset_sub] using hpushes
  have hold := hpushed.store (v := old) (h.stackOld.mono_left hlow)
  have hnew := hold.store (v := new) (h.stackNew.mono_left hlow)
  simp only [words_cons, BitVec.add_assoc, BitVec.reduceAdd] at hpushed hold hnew
  simp only [fetchArgs, exec, step, State.read, State.write, State.push, State.store, State.set,
    State.top, State.drop, State.esp, hesp, Function.update_apply, reduceCtorEq, if_true, if_false,
    offset_sub, BitVec.add_assoc, BitVec.reduceAdd, BitVec.reduceSub, BitVec.add_zero, hpushed,
    hold, hnew, fetched, State.pushes_cons, State.pushes_nil]
  congr 2
  funext r
  cases r <;> simp [hesp]

/-- The state behind `saveContext`. -/
def savedState (s : State) : State := s.pushes (s.flags.toWord :: saved.map s.regs)

theorem exec_saveContext : exec proc saveContext none s = .fell none (savedState s) := by
  have hpush : exec proc saveContext none s =
      exec proc (pushRegs saved) none (s.push s.flags.toWord) := rfl
  rw [hpush, exec_pushRegs (by decide)]
  simp [savedState, saved]

theorem savedState_esp : (savedState s).esp = s.esp - 32#32 := State.pushes_esp

theorem savedState_stack (h : Stack s [ret]) : Stack (savedState s) (contextOf s ret).words := by
  have hpushes := h.pushes (s.flags.toWord :: saved.map s.regs) (by simp [saved])
  simpa [Context.words, contextOf, saved, savedState] using hpushes

theorem savedState_mem {x : Word} (hx : x ∉ block (s.esp - 32#32) 32) :
    (savedState s).mem x = s.mem x :=
  State.pushes_mem hx

theorem exec_swapStacks (hold : load s.mem oldContext = old)
    (hnew : load (store s.mem old s.esp) newContext = new) :
    exec proc (swapStacks oldContext newContext) none s =
      .fell none (((s.set .eax old).store old s.esp).set .esp new) := by
  have hesp : s.regs .esp = s.esp := rfl
  simp [swapStacks, exec, step, State.read, State.write, hold, hesp, hnew]

variable (proc) in
theorem exec_restoreContext {c : Context} (h : Stack s c.words) :
    ∃ s', exec proc restoreContext none s = .fell none s' ∧ Stack s' [c.eip] ∧
      (∀ r ∈ saved, s'.regs r = c.regs r) ∧ s'.esp = s.esp + 32#32 ∧ s'.segs = s.segs ∧
      s'.flags = Flags.ofWord c.eflags ∧ s'.mem = s.mem := by
  obtain ⟨s₁, hrun, hpopped, hstack⟩ := exec_popRegs proc saved.reverse
    (saved.reverse.map c.regs) (by decide) (by decide) (by simp) h
  refine ⟨{ s₁.drop 4#32 with flags := Flags.ofWord s₁.top }, ?_, ?_, ?_, ?_, ?_, ?_, ?_⟩
  · rw [restoreContext, exec_append_of_fell hrun]
    rfl
  · exact hstack.drop
  · intro r hr
    have hregs := List.map_inj_left.mp hpopped.regs r (List.mem_reverse.mpr hr)
    have hesp : r ≠ .esp := by
      rintro rfl
      exact absurd hr (by decide)
    simpa [State.drop, hesp] using hregs
  · have hesp : (s₁.drop 4#32).esp = s₁.esp + 4#32 := by simp [State.drop]
    have hfour : s₁.esp + 4#32 = s.esp + 32#32 := by
      rw [hpopped.esp, BitVec.add_assoc]
      rfl
    exact hesp.trans hfour
  · exact hpopped.segs
  · simp [hstack.top]
  · exact hpopped.mem

/-! ## The call -/

/-- The process whose context is at `new` goes on. -/
structure Restored (c : Context) (new : Word) (s s' : State) : Prop where
  regs : ∀ r ∈ saved, s'.regs r = c.regs r
  esp : s'.esp = new + 36#32
  segs : s'.segs = s.segs
  flags : s'.flags = (Flags.ofWord c.eflags).ofSub c.eip 0x60000000#32

/-- The caller is left in memory. -/
structure Suspended (s s' : State) (oldContext newContext ret old : Word) : Prop where
  slot : load s'.mem old = s.esp - 32#32
  frame : Words s'.mem (s.esp - 32#32) (contextOf s ret).words
  others : ∀ x, Untouched s oldContext newContext old x → s'.mem x = s.mem x

/-- The context to which the caller switches is in memory, apart from all that is written. -/
structure Waiting (s : State) (c : Context) (oldContext newContext old new : Word) : Prop where
  frame : Words s.mem new c.words
  untouched : ∀ x ∈ block new 36, Untouched s oldContext newContext old x

theorem exec_checkReturn (hstack : Stack s [ret]) :
    exec proc checkReturn none s =
      if ret.slt 0x60000000#32 then
        .stop (.ret ret) { s.drop 4#32 with flags := s.flags.ofSub ret 0x60000000#32 }
      else
        .stop .halted
          { s with flags := { s.flags.ofSub ret 0x60000000#32 with intr := false } } := by
  have hload : load s.mem (s.regs .esp) = ret := hstack.top
  have hlt := Flags.ofSub_lt s.flags ret 0x60000000#32
  by_cases h : ret.slt 0x60000000#32
  · rw [h] at hlt
    simp [checkReturn, exec, step, State.read, State.holds, hload, h, hlt, State.top, State.esp]
    rfl
  · rw [Bool.eq_false_iff.mpr h] at hlt
    simp [checkReturn, exec, step, State.read, State.holds, hload, h, hlt]

/-- The memory behind `swapStacks`. -/
def swapped (s : State) (oldContext newContext old new : Word) : Memory :=
  store (savedState { s with mem := fetched s oldContext newContext old new }).mem old
    (s.esp - 32#32)

theorem swapped_untouched {x : Word} (hx : Untouched s oldContext newContext old x) :
    swapped s oldContext newContext old new x = s.mem x := by
  have hfetched : fetched s oldContext newContext old new x = s.mem x := by
    have hpushes : (s.pushes [s.regs .ebp, s.regs .eax]).mem x = s.mem x :=
      State.pushes_mem fun hmem => hx.stack (block_below (k := 8) le_rfl (by decide) hmem)
    rw [fetched, store_of_notMem hx.staticNew, store_of_notMem hx.staticOld, hpushes]
  obtain ⟨s₁, hs₁⟩ : ∃ s₁, s₁ = { s with mem := fetched s oldContext newContext old new } :=
    ⟨_, rfl⟩
  have hesp₁ : s₁.esp = s.esp := by rw [hs₁]; rfl
  have hmem₁ : s₁.mem = fetched s oldContext newContext old new := by rw [hs₁]
  have hsaved : (savedState s₁).mem x = s₁.mem x := by
    apply savedState_mem
    rw [hesp₁]
    exact hx.stack
  rw [swapped, store_of_notMem hx.slot, ← hs₁, hsaved, hmem₁, hfetched]

theorem suspended_of_swapped (h : Callable s oldContext newContext ret old new)
    (hmem : s'.mem = swapped s oldContext newContext old new) :
    Suspended s s' oldContext newContext ret old where
  slot := by rw [hmem, swapped, load_store]
  frame := by
    have hstatic : ∀ a, Disjoint (block (s.esp - 32#32) 44) (block a 4) →
        Disjoint (block s.esp 4) (block a 4) := by
      intro a hdis
      have hsplit : s.esp = s.esp - 32#32 + 32#32 := by bv_omega
      rw [hsplit]
      exact hdis.mono_left (block_subset (by decide))
    have hstack : Stack { s with mem := fetched s oldContext newContext old new } [ret] := by
      have hpushed : Words (s.pushes [s.regs .ebp, s.regs .eax]).mem s.esp [ret] := by
        have hpushes := h.stack.pushes [s.regs .ebp, s.regs .eax] (by simp)
        have hback : s.esp - 8#32 + 8#32 = s.esp := by bv_omega
        have hrest := (words_append.mp hpushes).2
        simp only [State.pushes_esp, List.length_reverse, List.length_cons, List.length_nil,
          Nat.reduceAdd, Nat.reduceMul, hback] at hrest
        exact ⟨hrest.1, trivial⟩
      exact (hpushed.store (hstatic _ h.stackOld)).store (hstatic _ h.stackNew)
    have hframe := savedState_stack hstack
    rw [Stack, savedState_esp] at hframe
    rw [hmem]
    apply hframe.store
    exact h.stackSlot.mono_left (block_mono (by simp [Context.words, contextOf, saved]))
  others x hx := by rw [hmem, swapped_untouched hx]

variable (proc) in
/-- `asm_switch_to` leaves its caller in memory and returns to the caller of the other call.  If
that return address is a positive number from `0x60000000` on then the machine halts. -/
theorem exec_asmSwitchTo {c : Context} (h : Callable s oldContext newContext ret old new)
    (hwait : Waiting s c oldContext newContext old new) :
    ∃ s', exec proc (asmSwitchTo oldContext newContext) none s =
        (if c.eip.slt 0x60000000#32 then .stop (.ret c.eip) s' else .stop .halted s') ∧
      Suspended s s' oldContext newContext ret old ∧
      (c.eip.slt 0x60000000#32 → Restored c new s s') := by
  obtain ⟨s₁, hs₁⟩ : ∃ s₁, s₁ = { s with mem := fetched s oldContext newContext old new } :=
    ⟨_, rfl⟩
  have hesp₁ : s₁.esp = s.esp := by rw [hs₁]; rfl
  have hesp₂ : (savedState s₁).esp = s.esp - 32#32 := by rw [savedState_esp, hesp₁]
  have hmem₂ : ∀ a, Disjoint (block (s.esp - 32#32) 44) (block a 4) →
      load (savedState s₁).mem a = load s₁.mem a := by
    intro a hdis
    apply load_congr
    intro x hx
    apply savedState_mem
    rw [hesp₁]
    exact fun hlow => Set.disjoint_left.mp hdis (block_mono (by decide) hlow) hx
  have hold : load (savedState s₁).mem oldContext = old := by
    rw [hmem₂ _ h.stackOld, hs₁, fetched, load_store_of_disjoint h.statics, load_store]
  have hnew : load (store (savedState s₁).mem old (savedState s₁).esp) newContext = new := by
    rw [load_store_of_disjoint h.slotNew.symm, hmem₂ _ h.stackNew, hs₁, fetched, load_store]
  obtain ⟨s₃, hs₃⟩ : ∃ s₃, s₃ = (((savedState s₁).set .eax old).store old (savedState s₁).esp).set
      .esp new := ⟨_, rfl⟩
  have hmem₃ : s₃.mem = swapped s oldContext newContext old new := by
    rw [hs₃, swapped, ← hs₁, ← hesp₂]
    rfl
  have hframe : Stack s₃ c.words := by
    have hesp₃ : s₃.esp = new := by simp [hs₃]
    rw [Stack, hesp₃, hmem₃]
    apply hwait.frame.congr
    intro x hx
    exact swapped_untouched (hwait.untouched x hx)
  obtain ⟨s₄, hrun₄, hstack₄, hregs₄, hesp₄, hsegs₄, hflags₄, hmem₄⟩ :=
    exec_restoreContext proc hframe
  have hrun : exec proc (asmSwitchTo oldContext newContext) none s =
      exec proc checkReturn none s₄ := by
    rw [asmSwitchTo, exec_append_of_fell (exec_fetchArgs h), ← hs₁,
      exec_append_of_fell exec_saveContext, exec_append_of_fell (exec_swapStacks hold hnew), ← hs₃,
      exec_append_of_fell hrun₄]
  rw [hrun, exec_checkReturn hstack₄]
  by_cases hlt : c.eip.slt 0x60000000#32
  · refine ⟨{ s₄.drop 4#32 with flags := s₄.flags.ofSub c.eip 0x60000000#32 }, by simp [hlt], ?_, ?_⟩
    · exact suspended_of_swapped h (hmem₄.trans hmem₃)
    · intro _
      constructor
      · intro r hr
        have hesp : r ≠ .esp := by
          rintro rfl
          exact absurd hr (by decide)
        simpa [State.drop, hesp] using hregs₄ r hr
      · have hdrop : (s₄.drop 4#32).esp = s₄.esp + 4#32 := by simp [State.drop]
        have hfour : s₄.esp + 4#32 = new + 36#32 := by
          have hesp₃ : s₃.esp = new := by simp [hs₃]
          rw [hesp₄, hesp₃, BitVec.add_assoc]
          rfl
        exact hdrop.trans hfour
      · have hsegs : s₄.segs = s.segs := by
          rw [hsegs₄, hs₃, hs₁]
          simp [savedState]
        exact hsegs
      · rw [hflags₄]
  · refine ⟨{ s₄ with flags := { s₄.flags.ofSub c.eip 0x60000000#32 with intr := false } },
      by simp [hlt], suspended_of_swapped h (hmem₄.trans hmem₃), fun hfalse => (hlt hfalse).elim⟩

/-! ## Processes which switch to each other -/

/-- Each process has its kernel stack and the word of its `context` field for itself. -/
structure Layout (P : Type) (oldContext newContext : Word) where
  own : P → Set Word
  slot : P → Word
  slot_own : ∀ p, block (slot p) 4 ⊆ own p
  apart : ∀ p q, p ≠ q → Disjoint (own p) (own q)
  staticOld : ∀ p, Disjoint (own p) (block oldContext 4)
  staticNew : ∀ p, Disjoint (own p) (block newContext 4)
  statics : Disjoint (block oldContext 4) (block newContext 4)

/-- The machine and, for a process which has called `asm_switch_to`, the state in which it made
the call and the return address. -/
structure Threads (P : Type) where
  cpu : State
  current : P
  away : P → Option (State × Word)

section Threads

variable {P : Type} {L : Layout P oldContext newContext} {k k' : Threads P}
  {m m' : Memory} {p q : P} {t : State} {r : Word}

/-- The process can be resumed in the state in which it made its call, with the memory which it
had then. -/
structure Parked (L : Layout P oldContext newContext) (m : Memory) (q : P) (t : State) (r : Word) :
    Prop where
  room : block (t.esp - 32#32) 36 ⊆ L.own q
  apart : Disjoint (block (t.esp - 32#32) 36) (block (L.slot q) 4)
  slot : load m (L.slot q) = t.esp - 32#32
  frame : Words m (t.esp - 32#32) (contextOf t r).words
  kept : ∀ x ∈ L.own q, x ∉ block (t.esp - 32#32) 32 → x ∉ block (L.slot q) 4 → m x = t.mem x

/-- The running process calls `asm_switch_to` to go over to `q`. -/
structure Calls (L : Layout P oldContext newContext) (k : Threads P) (ret : Word) (q : P) :
    Prop where
  stack : Stack k.cpu [ret, L.slot k.current, load k.cpu.mem (L.slot q)]
  room : block (k.cpu.esp - 32#32) 44 ⊆ L.own k.current
  apart : Disjoint (block (k.cpu.esp - 32#32) 44) (block (L.slot k.current) 4)

theorem Parked.congr (h : Parked L m q t r) (hm : ∀ x ∈ L.own q, m' x = m x) :
    Parked L m' q t r where
  room := h.room
  apart := h.apart
  slot := by
    rw [load_congr fun x hx => hm x (L.slot_own q hx)]
    exact h.slot
  frame := by
    apply h.frame.congr
    intro x hx
    apply hm x (h.room _)
    simpa [Context.words, contextOf, saved] using hx
  kept x hx hstack hslot := (hm x hx).trans (h.kept x hx hstack hslot)

theorem Calls.callable (h : Calls L k ret q) :
    Callable k.cpu oldContext newContext ret (L.slot k.current)
      (load k.cpu.mem (L.slot q)) where
  stack := h.stack
  stackOld := (L.staticOld _).mono_left h.room
  stackNew := (L.staticNew _).mono_left h.room
  stackSlot := h.apart
  statics := L.statics
  slotNew := (L.staticNew _).mono_left (L.slot_own _)

/-- The routine does not write what belongs to another process. -/
theorem Calls.untouched (h : Calls L k ret q) (hne : p ≠ k.current) {x : Word}
    (hx : x ∈ L.own p) :
    Untouched k.cpu oldContext newContext (L.slot k.current) x := by
  have hother : ∀ {S : Set Word}, S ⊆ L.own k.current → x ∉ S :=
    fun hS hmem => Set.disjoint_left.mp (L.apart _ _ hne) hx (hS hmem)
  constructor
  · exact hother ((block_mono (by decide)).trans h.room)
  · exact Set.disjoint_left.mp (L.staticOld p) hx
  · exact Set.disjoint_left.mp (L.staticNew p) hx
  · exact hother (L.slot_own _)

theorem Parked.waiting (h : Parked L k.cpu.mem q t r) (hne : q ≠ k.current)
    (hcalls : Calls L k ret q) :
    Waiting k.cpu (contextOf t r) oldContext newContext (L.slot k.current)
      (load k.cpu.mem (L.slot q)) where
  frame := by
    rw [h.slot]
    exact h.frame
  untouched x hx := by
    rw [h.slot] at hx
    exact hcalls.untouched hne (h.room hx)

theorem Calls.parked (h : Calls L k ret q)
    (hsuspended : Suspended k.cpu s oldContext newContext ret (L.slot k.current)) :
    Parked L s.mem k.current k.cpu ret where
  room := (block_mono (by decide)).trans h.room
  apart := h.apart.mono_left (block_mono (by decide))
  slot := hsuspended.slot
  frame := hsuspended.frame
  kept x hx hstack hslot := by
    apply hsuspended.others
    exact ⟨hstack, Set.disjoint_left.mp (L.staticOld _) hx,
      Set.disjoint_left.mp (L.staticNew _) hx, hslot⟩

/-- Whoever is away can be resumed. -/
def Inv (L : Layout P oldContext newContext) (k : Threads P) : Prop :=
  ∀ q t r, k.away q = some (t, r) → q ≠ k.current ∧ Parked L k.cpu.mem q t r

theorem Inv.work (h : Inv L k)
    (hothers : ∀ p, p ≠ k.current → ∀ x ∈ L.own p, s.mem x = k.cpu.mem x) :
    Inv L { k with cpu := s } := by
  intro q t r hq
  have hold := h q t r hq
  exact ⟨hold.1, hold.2.congr (hothers q hold.1)⟩

variable [DecidableEq P]

/-- What can happen: the running process executes other code, which leaves the memory of the other
processes alone; it makes a process; or it switches to another one. -/
inductive Step (proc : Procs) (L : Layout P oldContext newContext) : Threads P → Threads P → Prop
  | work (k : Threads P) (s : State)
      (hothers : ∀ p, p ≠ k.current → ∀ x ∈ L.own p, s.mem x = k.cpu.mem x) :
      Step proc L k { k with cpu := s }
  | spawn (k : Threads P) (s : State) (q : P) (t : State) (r : Word) (hq : k.away q = none)
      (hne : q ≠ k.current) (hparked : Parked L s.mem q t r)
      (hothers : ∀ p, p ≠ k.current → p ≠ q → ∀ x ∈ L.own p, s.mem x = k.cpu.mem x) :
      Step proc L k { k with cpu := s, away := Function.update k.away q (some (t, r)) }
  | switch (k : Threads P) (s : State) (q : P) (t : State) (r ret target : Word)
      (hq : k.away q = some (t, r)) (hcalls : Calls L k ret q)
      (hrun : exec proc (asmSwitchTo oldContext newContext) none k.cpu = .stop (.ret target) s) :
      Step proc L k
        { cpu := s
          current := q
          away := Function.update (Function.update k.away k.current (some (k.cpu, ret))) q none }

theorem Inv.spawn (h : Inv L k) (hne : q ≠ k.current) (hparked : Parked L s.mem q t r)
    (hothers : ∀ p, p ≠ k.current → p ≠ q → ∀ x ∈ L.own p, s.mem x = k.cpu.mem x) :
    Inv L { k with cpu := s, away := Function.update k.away q (some (t, r)) } := by
  intro p t' r' hp
  by_cases hpq : p = q
  · subst hpq
    simp only [Function.update_self, Option.some.injEq, Prod.mk.injEq] at hp
    rw [← hp.1, ← hp.2]
    exact ⟨hne, hparked⟩
  · simp only [Function.update_of_ne hpq] at hp
    have hold := h p t' r' hp
    exact ⟨hold.1, hold.2.congr (hothers p hold.1 hpq)⟩

theorem Inv.switch (h : Inv L k) (hq : k.away q = some (t, r)) (hcalls : Calls L k ret q)
    {target : Word}
    (hrun : exec proc (asmSwitchTo oldContext newContext) none k.cpu = .stop (.ret target) s) :
    Inv L
      { cpu := s
        current := q
        away := Function.update (Function.update k.away k.current (some (k.cpu, ret))) q none } := by
  have hq' := h q t r hq
  obtain ⟨s', hexec, hsuspended, _⟩ :=
    exec_asmSwitchTo proc hcalls.callable (hq'.2.waiting hq'.1 hcalls)
  have hs : s' = s := by
    rw [hrun] at hexec
    by_cases hlt : (contextOf t r).eip.slt 0x60000000#32
    · simp only [hlt, if_true, Result.stop.injEq] at hexec
      exact hexec.2.symm
    · simp [hlt] at hexec
  subst hs
  intro p t' r' hp
  by_cases hpq : p = q
  · simp [hpq] at hp
  · simp only [Function.update_of_ne hpq] at hp
    refine ⟨hpq, ?_⟩
    by_cases hpc : p = k.current
    · subst hpc
      simp only [Function.update_self, Option.some.injEq, Prod.mk.injEq] at hp
      rw [← hp.1, ← hp.2]
      exact hcalls.parked hsuspended
    · simp only [Function.update_of_ne hpc] at hp
      apply (h p t' r' hp).2.congr
      intro x hx
      exact hsuspended.others x (hcalls.untouched hpc hx)

theorem Inv.step (h : Inv L k) (hstep : Step proc L k k') : Inv L k' := by
  cases hstep with
  | work s hothers => exact h.work hothers
  | spawn s q t r hq hne hparked hothers => exact h.spawn hne hparked hothers
  | switch s q t r ret target hq hcalls hrun => exact h.switch hq hcalls hrun

/-- In a run from a kernel in which nobody is away. -/
theorem inv_of_run {k₀ : Threads P} (h₀ : ∀ q, k₀.away q = none)
    (hrun : Relation.ReflTransGen (Step proc L) k₀ k) : Inv L k := by
  induction hrun with
  | refl =>
      intro q t r hq
      simp [h₀] at hq
  | tail _ hstep ih => exact ih.step hstep

/-- The process `t`, which called with the return address `ret`, goes on. -/
structure Resumed (t : State) (ret : Word) (s s' : State) : Prop where
  regs : ∀ r ∈ saved, s'.regs r = t.regs r
  esp : s'.esp = t.esp + 4#32
  segs : s'.segs = s.segs
  flags : s'.flags = t.flags.ofSub ret 0x60000000#32

/-- In every run, a call of `asm_switch_to` brings a process back to the state in which it made
its own call: the instruction behind that call is next, with the registers, the stack pointer and
the memory which it had, and its flags but for those of the last comparison. -/
theorem resumed_of_run {k₀ : Threads P} (h₀ : ∀ q, k₀.away q = none)
    (hrun : Relation.ReflTransGen (Step proc L) k₀ k) (hq : k.away q = some (t, r))
    (hcalls : Calls L k ret q) :
    ∃ s, exec proc (asmSwitchTo oldContext newContext) none k.cpu =
        (if r.slt 0x60000000#32 then .stop (.ret r) s else .stop .halted s) ∧
      (r.slt 0x60000000#32 → Resumed t r k.cpu s ∧
        ∀ x ∈ L.own q, x ∉ block (t.esp - 32#32) 32 → x ∉ block (L.slot q) 4 →
          s.mem x = t.mem x) := by
  have hinv := inv_of_run h₀ hrun q t r hq
  obtain ⟨s, hexec, hsuspended, hrestored⟩ :=
    exec_asmSwitchTo proc hcalls.callable (hinv.2.waiting hinv.1 hcalls)
  refine ⟨s, hexec, fun hlt => ⟨?_, ?_⟩⟩
  · have h := hrestored hlt
    have hesp : t.esp - 32#32 + 36#32 = t.esp + 4#32 := by bv_omega
    constructor
    · exact h.regs
    · rw [h.esp, hinv.2.slot, hesp]
    · exact h.segs
    · rw [h.flags, contextOf, Flags.ofWord_toWord]
  · intro x hx hstack hslot
    rw [hsuspended.others x (hcalls.untouched hinv.1 hx)]
    exact hinv.2.kept x hx hstack hslot

end Threads

/-! Two processes with their stacks at `0x1000` and `0x2000`; the second one has been made to start
at `0xC0100000`. -/

def twoStacks : Layout Bool 0x3000#32 0x3004#32 where
  own p := if p then block (0#32 + 0x2000#32) 256 else block (0#32 + 0x1000#32) 256
  slot p := if p then 0#32 + 0x2000#32 + 0xF0#32 else 0#32 + 0x1000#32 + 0xF0#32
  slot_own p := by
    cases p with
    | true => exact block_subset (by decide)
    | false => exact block_subset (by decide)
  apart p q hne := by
    cases p with
    | true =>
        cases q with
        | true => exact (hne rfl).elim
        | false => exact (block_disjoint (by decide) (by decide)).symm
    | false =>
        cases q with
        | true => exact block_disjoint (by decide) (by decide)
        | false => exact (hne rfl).elim
  staticOld p := by
    cases p with
    | true => exact block_disjoint (a := 0#32) (d := 0x3000#32) (by decide) (by decide)
    | false => exact block_disjoint (a := 0#32) (d := 0x3000#32) (by decide) (by decide)
  staticNew p := by
    cases p with
    | true => exact block_disjoint (a := 0#32) (d := 0x3004#32) (by decide) (by decide)
    | false => exact block_disjoint (a := 0#32) (d := 0x3004#32) (by decide) (by decide)
  statics := block_disjoint (a := 0#32) (c := 0x3000#32) (d := 0x3004#32) (by decide) (by decide)

/-- The state which the new process seems to have called in. -/
def newborn : State where
  regs r := if r = .esp then 0x2080#32 else 7#32
  segs _ := 0x10#16
  flags := Flags.ofWord 0x202#32
  mem _ := 0#8

/-- The call of the first process and the frame of the second one. -/
def twoFrames : Memory :=
  putWords (putWords (putWords (fun _ => 0#8) 0x1080#32 [0xC0200000#32, 0x10F0#32, 0x2060#32])
    0x2060#32 (contextOf newborn 0xC0100000#32).words) 0x20F0#32 [0x2060#32]

/-- The first process in front of its call. -/
def caller : State where
  regs r := if r = .esp then 0x1080#32 else 1#32
  segs _ := 0x10#16
  flags := Flags.ofWord 0x2#32
  mem := twoFrames

/-- Nobody is away, and then the second process. -/
def alone : Threads Bool := ⟨caller, false, fun _ => none⟩

def joined : Threads Bool :=
  { alone with
    away := Function.update alone.away true
      (some ({ newborn with mem := twoFrames }, 0xC0100000#32)) }

theorem resumed_of_run_newborn :
    ∃ s, exec (fun _ s => s) (asmSwitchTo 0x3000#32 0x3004#32) none joined.cpu =
        (if (0xC0100000#32 : Word).slt 0x60000000#32 then .stop (.ret 0xC0100000#32) s
          else .stop .halted s) ∧
      ((0xC0100000#32 : Word).slt 0x60000000#32 →
        Resumed { newborn with mem := twoFrames } 0xC0100000#32 joined.cpu s ∧
          ∀ x ∈ twoStacks.own true,
            x ∉ block (State.esp { newborn with mem := twoFrames } - 32#32) 32 →
            x ∉ block (twoStacks.slot true) 4 → s.mem x = twoFrames x) := by
  have hparked : Parked twoStacks caller.mem true { newborn with mem := twoFrames }
      0xC0100000#32 := by
    refine ⟨?_, ?_, by decide, by decide, fun _ _ _ _ => rfl⟩
    · exact block_subset (a := 0#32 + 0x2000#32) (d := 0x60#32) (by decide)
    · exact block_disjoint (a := 0#32 + 0x2000#32) (c := 0x60#32) (d := 0xF0#32) (by decide)
        (by decide)
  have hcalls : Calls twoStacks joined 0xC0200000#32 true := by
    refine ⟨by decide, ?_, ?_⟩
    · exact block_subset (a := 0#32 + 0x1000#32) (d := 0x60#32) (by decide)
    · exact block_disjoint (a := 0#32 + 0x1000#32) (c := 0x60#32) (d := 0xF0#32) (by decide)
        (by decide)
  have hspawn : Step (fun _ s => s) twoStacks alone joined :=
    Step.spawn alone caller true _ _ rfl (by decide) hparked fun _ _ _ _ _ => rfl
  have haway : joined.away true = some ({ newborn with mem := twoFrames }, 0xC0100000#32) := by
    simp [joined]
  have hnobody : ∀ q, alone.away q = none := fun _ => rfl
  exact resumed_of_run hnobody (Relation.ReflTransGen.single hspawn) haway hcalls

end Yak.Switch
