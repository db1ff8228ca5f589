import Yak.ContextSwitch
import Yak.UserEntry

/-!
# The first run of a child

A transcription of the part of `arch_fork` in `arch/i386/processes.c` which prepares the kernel
stack of the child, with the state of the parent which `cpu_state_save` has kept.  The child leaves
the kernel through `restart`.

Each interrupt which comes while the parent is in the kernel saves its own frame over the state of
the parent, so that the child goes back to user space only if there was none.
-/

namespace Yak.Syscall

open Machine32

/-! ## The state of the parent -/

/-- `cpu_state_save` on the frames: `ss` is taken over from a frame of user space only. -/
def Trap.save (st new : Trap) : Trap :=
  { new with ss := if new.ss = userDsSelector then new.ss else st.ss }

variable {m : Memory} {cur new top restartAddr : Word} {f st : Trap} {gs : List Trap}

theorem Trap.words_length (f : Trap) : f.words.length = 17 := by simp [words, pushed]

theorem Trap.words_eq (f : Trap) : f.words = f.words.take 16 ++ [f.ss] := by simp [words, pushed]

theorem Trap.take_words_ss (f : Trap) (ss : Word) :
    ({ f with ss := ss } : Trap).words.take 16 = f.words.take 16 := by
  simp [words, pushed]

theorem copy_words (hst : Words m cur st.words) (hnew : Words m new f.words) :
    Words (memmove m cur new 64) cur ({ f with ss := st.ss } : Trap).words := by
  have hlen : (f.words.take 16).length = 16 := by simp [Trap.words_length]
  have hlenSt : (st.words.take 16).length = 16 := by simp [Trap.words_length]
  rw [Trap.words_eq, Trap.take_words_ss, words_append]
  constructor
  · rw [Trap.words_eq, words_append] at hnew
    have hfront : Words m (new + 0#32) (f.words.take 16) := by
      rw [BitVec.add_zero]
      exact hnew.1
    have hmoved := words_memmove cur (n := 64) hfront (by decide) (by rw [hlen]; decide)
    rwa [BitVec.add_zero] at hmoved
  · rw [Trap.words_eq, words_append] at hst
    rw [hlen]
    rw [hlenSt] at hst
    apply hst.2.congr
    intro x hx
    have hdis := block_disjoint (a := cur) (c := 0#32) (d := 64#32) (k := 64) (n := 4)
      (by decide) (by decide)
    rw [BitVec.add_zero] at hdis
    have hout : ¬ (x - cur).toNat < 64 := fun hin => Set.disjoint_left.mp hdis hin hx
    exact if_neg hout

theorem load_esp_ss (h : Words m new f.words) :
    load m (new + 60#32) = f.esp ∧ load m (new + 64#32) = f.ss := by
  simp only [Trap.words, Trap.pushed, List.map_cons, List.map_nil, List.cons_append,
    List.nil_append, words_cons, BitVec.add_assoc, BitVec.reduceAdd] at h
  exact ⟨h.2.2.2.2.2.2.2.2.2.2.2.2.2.2.2.1, h.2.2.2.2.2.2.2.2.2.2.2.2.2.2.2.2.1⟩

/-- `cpu_state_save` does `Trap.save` on the words. -/
theorem save_words (hst : Words m cur st.words) (hnew : Words m new f.words)
    (hapart : Disjoint (block new 68) (block cur 88)) :
    Words (cpuStateSave m cur new) cur (st.save f).words := by
  have hcopied := copy_words hst hnew
  have hkept : ∀ {m' : Memory}, (∀ x, x ∉ block cur 88 → m' x = m x) → Words m' new f.words := by
    intro m' hm'
    apply hnew.congr
    intro x hx
    have hlen : 4 * f.words.length = 68 := by simp [Trap.words_length]
    rw [hlen] at hx
    exact hm' x fun hin => Set.disjoint_left.mp hapart hx hin
  have hmoved : ∀ x, x ∉ block cur 88 → memmove m cur new 64 x = m x :=
    fun x hx => if_neg fun hin => hx (lt_of_lt_of_le hin (by decide))
  have hss := (load_esp_ss (hkept hmoved)).2
  unfold cpuStateSave
  dsimp only
  rw [hss]
  by_cases huser : f.ss = userDsSelector
  · have hsaved : st.save f = f := by rw [Trap.save, if_pos huser]
    have hstored : ∀ x, x ∉ block cur 88 →
        store (memmove m cur new 64) (cur + 64#32) f.ss x = m x := by
      intro x hx
      rw [store_of_notMem fun hin => hx (block_subset (by decide) hin), hmoved x hx]
    have hesp := (load_esp_ss (hkept hstored)).1
    have h₁ := hcopied.set (v := f.ss) (i := 16) (by simp [Trap.words_length])
      (by simp [Trap.words_length])
    have hset₁ : ({ f with ss := st.ss } : Trap).words.set 16 f.ss = f.words := by
      simp [Trap.words, Trap.pushed]
    rw [hset₁] at h₁
    have h₂ := h₁.set (v := f.esp) (i := 15) (by simp [Trap.words_length])
      (by simp [Trap.words_length])
    have hset₂ : f.words.set 15 f.esp = f.words := by simp [Trap.words, Trap.pushed]
    rw [hset₂] at h₂
    rw [if_pos huser, hesp, hsaved]
    exact h₂
  · have hsaved : st.save f = { f with ss := st.ss } := by rw [Trap.save, if_neg huser]
    rw [if_neg huser, hsaved]
    exact hcopied

/-- The state of the parent when it forks: the frame of the system call and then those of the
interrupts which came in the kernel. -/
def savedTrap (st : Trap) (gs : List Trap) : Trap := gs.foldl Trap.save st

variable (st) in
theorem savedTrap_getLast (hne : gs ≠ []) :
    (savedTrap st gs).regs = (gs.getLast hne).regs ∧ (savedTrap st gs).eip = (gs.getLast hne).eip ∧
      (savedTrap st gs).cs = (gs.getLast hne).cs ∧
      (savedTrap st gs).eflags = (gs.getLast hne).eflags := by
  obtain ⟨hs, g, rfl⟩ := List.eq_nil_or_concat' gs |>.resolve_left hne
  simp [savedTrap, Trap.save]

/-! ## The stack of the child -/

/-- What `arch_fork` gets from the rest of the kernel: the states of the parent and of the child,
the top of the new kernel stack, the page directory, the context of the parent and the place of
the pointer to that of the child. -/
structure Fork where
  cur : Word
  new : Word
  top : Word
  cr3 : Word
  context : Word
  contextField : Word
  restart : Word

/-- `arch_fork` after its allocations, without the copy of the address space. -/
def archFork (m : Memory) (a : Fork) : Memory :=
  let m := memmove m a.new a.cur 88
  let m := store m (a.new + 24#32) 0#32
  let m := store m (a.new + 72#32) a.top
  let m := store m (a.new + 68#32) a.cr3
  let m := store m (a.new + 72#32) (a.top - 68#32)
  let m := memmove m (a.top - 68#32) a.new 68
  let m := store m (a.new + 72#32) (a.top - 104#32)
  let m := store m a.contextField (a.top - 104#32)
  let m := memmove m (a.top - 104#32) a.context 36
  store m (a.top - 104#32 + 32#32) a.restart

/-- The state of the child, its kernel stack and the pointer to its context are apart. -/
structure Fork.Apart (a : Fork) : Prop where
  stackNew : Disjoint (block (a.top - 104#32) 104) (block a.new 88)
  stackField : Disjoint (block (a.top - 104#32) 104) (block a.contextField 4)

/-- The child has the frame and goes to `restart` first. -/
structure Forked (m : Memory) (a : Fork) (f : Trap) : Prop where
  field : load m a.contextField = a.top - 104#32
  frame : Words m (a.top - 68#32) f.words
  context : ∃ c : Switch.Context, c.eip = a.restart ∧ Words m (a.top - 104#32) c.words

/-- Any nine words are a context. -/
def contextAt (m : Memory) (a : Word) : Switch.Context where
  regs
    | .ebp => load m a
    | .esi => load m (a + 4#32)
    | .edi => load m (a + 8#32)
    | .edx => load m (a + 12#32)
    | .ecx => load m (a + 16#32)
    | .ebx => load m (a + 20#32)
    | .eax => load m (a + 24#32)
    | .esp => 0#32
  eflags := load m (a + 28#32)
  eip := load m (a + 32#32)

theorem words_contextAt (m : Memory) (a : Word) : Words m a (contextAt m a).words := by
  simp [Switch.Context.words, Switch.saved, contextAt, BitVec.add_assoc]

/-- The result of the child is 0. -/
def Trap.child (f : Trap) : Trap := { f with regs := Function.update f.regs .eax 0#32 }

theorem archFork_forked {a : Fork} (hapart : a.Apart) (h : Words m a.cur f.words) :
    Forked (archFork m a) a f.child := by
  have hlen : 4 * f.words.length = 68 := by simp [Trap.words_length]
  have hlenChild : 4 * f.child.words.length = 68 := by simp [Trap.words_length]
  have hhigh : a.top - 68#32 = a.top - 104#32 + 36#32 := by bv_omega
  have hframe : block (a.top - 68#32) 68 ⊆ block (a.top - 104#32) 104 := by
    rw [hhigh]
    exact block_subset (by decide)
  -- the state of the child
  have hnew : ∀ {m' : Memory} {d v : Word}, d = 68#32 ∨ d = 72#32 →
      Words m' a.new f.child.words → Words (store m' (a.new + d) v) a.new f.child.words := by
    intro m' d v hd hm'
    apply hm'.store
    have hdis := block_disjoint (a := a.new) (c := 0#32) (d := d) (k := 68) (n := 4)
    rw [BitVec.add_zero] at hdis
    rw [hlenChild]
    rcases hd with rfl | rfl
    · exact hdis (by decide) (by decide)
    · exact hdis (by decide) (by decide)
  have h₁ : Words (memmove m a.new a.cur 88) a.new f.words := by
    have hmoved := words_memmove (m := m) a.new (d := 0#32) (n := 88)
      (by rw [BitVec.add_zero]; exact h) (by decide) (by rw [hlen]; decide)
    rwa [BitVec.add_zero] at hmoved
  have h₂ : Words (store (memmove m a.new a.cur 88) (a.new + 24#32) 0#32) a.new
      f.child.words := by
    have hset := h₁.set (v := 0#32) (i := 6) (by rw [hlen]; decide) (by simp [Trap.words_length])
    have hwords : f.words.set 6 0#32 = f.child.words := by
      simp [Trap.words, Trap.pushed, Trap.child]
    rwa [hwords] at hset
  have h₅ := hnew (v := a.top - 68#32) (Or.inr rfl) (hnew (v := a.cr3) (Or.inl rfl)
    (hnew (v := a.top) (Or.inr rfl) h₂))
  obtain ⟨m₅, hm₅⟩ : ∃ m₅, m₅ = store (store (store (store (memmove m a.new a.cur 88)
      (a.new + 24#32) 0#32) (a.new + 72#32) a.top) (a.new + 68#32) a.cr3) (a.new + 72#32)
      (a.top - 68#32) := ⟨_, rfl⟩
  rw [← hm₅] at h₅
  -- its frame
  have h₆ : Words (memmove m₅ (a.top - 68#32) a.new 68) (a.top - 68#32) f.child.words := by
    have hmoved := words_memmove (m := m₅) (a.top - 68#32) (d := 0#32)
      (n := 68) (by rw [BitVec.add_zero]; exact h₅) (by decide) (by rw [hlenChild]; decide)
    rwa [BitVec.add_zero] at hmoved
  have h₈ : Words (store (store (memmove m₅ (a.top - 68#32) a.new 68) (a.new + 72#32)
      (a.top - 104#32)) a.contextField (a.top - 104#32)) (a.top - 68#32) f.child.words := by
    apply (h₆.store _).store
    · rw [hlenChild]
      exact hapart.stackField.mono_left hframe
    · rw [hlenChild]
      exact hapart.stackNew.mono hframe (block_subset (by decide))
  obtain ⟨m₈, hm₈⟩ : ∃ m₈, m₈ = store (store (memmove m₅ (a.top - 68#32) a.new 68)
      (a.new + 72#32) (a.top - 104#32)) a.contextField (a.top - 104#32) := ⟨_, rfl⟩
  rw [← hm₈] at h₈
  have hresult : archFork m a = store (memmove m₈ (a.top - 104#32) a.context 36)
      (a.top - 104#32 + 32#32) a.restart := by
    rw [hm₈, hm₅]
    rfl
  have hlow : block (a.top - 104#32 + 32#32) 4 ⊆ block (a.top - 104#32) 36 :=
    block_subset (by decide)
  have hsame : ∀ x, x ∉ block (a.top - 104#32) 36 → archFork m a x = m₈ x := by
    intro x hx
    rw [hresult, store_of_notMem fun hin => hx (hlow hin)]
    exact if_neg hx
  refine ⟨?_, ?_, { contextAt m₈ a.context with eip := a.restart }, rfl, ?_⟩
  · have hfield : load (archFork m a) a.contextField = load m₈ a.contextField := by
      apply load_congr
      intro x hx
      exact hsame x fun hin =>
        Set.disjoint_left.mp hapart.stackField (block_mono (by decide) hin) hx
    rw [hfield, hm₈, load_store]
  · apply h₈.congr
    intro x hx
    apply hsame
    have hdis := block_disjoint (a := a.top - 104#32) (c := 0#32) (d := 36#32) (k := 36) (n := 68)
      (by decide) (by decide)
    rw [BitVec.add_zero, ← hhigh] at hdis
    rw [hlenChild] at hx
    exact fun hin => Set.disjoint_left.mp hdis hin hx
  · have hcopied : Words (memmove m₈ (a.top - 104#32) a.context 36) (a.top - 104#32)
        (contextAt m₈ a.context).words := by
      have hmoved := words_memmove (m := m₈) (a.top - 104#32) (d := 0#32) (n := 36) (by rw [BitVec.add_zero]; exact words_contextAt m₈ a.context)
        (by decide) (by simp [Switch.Context.words, Switch.saved])
      rwa [BitVec.add_zero] at hmoved
    have hset := hcopied.set (v := a.restart) (i := 8)
      (by simp [Switch.Context.words, Switch.saved]) (by simp [Switch.Context.words, Switch.saved])
    have hwords : (contextAt m₈ a.context).words.set 8 a.restart =
        ({ contextAt m₈ a.context with eip := a.restart } : Switch.Context).words := by
      simp [Switch.Context.words, Switch.saved]
    rw [hresult, ← hwords]
    exact hset

/-! ## The child runs -/

/-- A frame of the kernel holds neither the stack pointer nor `ss`. -/
theorem exec_restart_kernel (proc : Procs) {s : State} (h : Stack s f.words)
    (hkernel : f.cs &&& 3#32 = 0#32) :
    ∃ s', exec proc restart none s = .stop (.iret f.eip f.cs none) s' ∧
      (∀ r, r ≠ .esp → s'.regs r = f.regs r) ∧ s'.esp = s.esp + 60#32 := by
  obtain ⟨s₁, hrun₁, hpopped, hstack₁⟩ := exec_popRegs proc
    [.ebp, .edi, .esi, .edx, .ecx, .ebx, .eax]
    ([.ebp, .edi, .esi, .edx, .ecx, .ebx, .eax].map f.regs) (by decide) (by decide) rfl h
  have hwords := hstack₁
  simp only [Trap.pushed, Stack, State.esp, List.map_cons, List.map_nil, List.cons_append,
    List.nil_append, words_cons, words_nil, BitVec.add_assoc, BitVec.reduceAdd, and_true] at hwords
  have hregs₁ : ∀ r, r ≠ .esp → s₁.regs r = f.regs r := by
    intro r hr
    apply List.map_inj_left.mp hpopped.regs r
    cases r <;> simp at hr ⊢
  have hesp₁ : s₁.esp = s.esp + 28#32 := hpopped.esp
  rw [restart, exec_append_of_fell hrun₁]
  simp only [leaveKernel, popSegs, List.cons_append, List.nil_append, exec, step, State.read,
    State.write, State.drop, State.set, State.setSeg, State.top, State.esp,
    Function.update_apply, if_true, BitVec.add_assoc, BitVec.reduceAdd, hwords, hkernel,
    Function.update_idem]
  refine ⟨_, rfl, ?_, ?_⟩
  · intro r hr
    simpa [hr] using hregs₁ r hr
  · have hesp : s₁.regs .esp = s.regs .esp + 28#32 := hesp₁
    simp [hesp, BitVec.add_assoc]

/-- What the rest of the kernel leaves alone up to the call of `asm_switch_to`, which goes from
the process at `old` to the child. -/
structure Fork.Entered (a : Fork) (m : Memory) (s : State) (oldContext newContext ret old : Word) :
    Prop where
  stack : ∀ x ∈ block (a.top - 104#32) 104, s.mem x = m x
  field : ∀ x ∈ block a.contextField 4, s.mem x = m x
  callable : Switch.Callable s oldContext newContext ret old (load s.mem a.contextField)
  untouched : ∀ x ∈ block (a.top - 104#32) 104, Switch.Untouched s oldContext newContext old x

/-- The child goes on behind the system call of its parent with the result 0 if no interrupt has
come since.  Else it goes on in the kernel at the place of the last one, on an empty stack.  The
flags which the switch brings back are taken to have `NT` and `TF` clear. -/
theorem exec_child {proc : Procs} {s : State} {a : Fork} {oldContext newContext ret old : Word}
    (hapart : a.Apart) (hstate : Words m a.cur (savedTrap f gs).words)
    (huser : f.cs &&& 3#32 ≠ 0#32) (hkernel : ∀ g ∈ gs, g.cs &&& 3#32 = 0#32)
    (hrestart : a.restart.slt 0x60000000#32)
    (hentered : a.Entered (archFork m a) s oldContext newContext ret old) :
    ∃ s₁ s₂, exec proc (Switch.asmSwitchTo oldContext newContext) none s =
        .stop (.ret a.restart) s₁ ∧
      (gs = [] → exec proc restart none s₁ = .stop (.iret f.eip f.cs (some f.ss)) s₂ ∧
        Returned f.child s₂) ∧
      ∀ g ∈ gs.getLast?, exec proc restart none s₁ = .stop (.iret g.eip g.cs none) s₂ ∧
        (∀ r, r ≠ .esp → s₂.regs r = g.child.regs r) ∧ s₂.esp = a.top - 8#32 := by
  have hforked := archFork_forked hapart hstate
  obtain ⟨c, hc, hcontext⟩ := hforked.context
  have hfield : load s.mem a.contextField = a.top - 104#32 := by
    rw [load_congr hentered.field, hforked.field]
  have hcallable := hentered.callable
  rw [hfield] at hcallable
  have hlow : block (a.top - 104#32) 36 ⊆ block (a.top - 104#32) 104 := block_mono (by decide)
  have hhigh : a.top - 104#32 + 36#32 = a.top - 68#32 := by bv_omega
  have hframe : block (a.top - 68#32) 68 ⊆ block (a.top - 104#32) 104 := by
    rw [← hhigh]
    exact block_subset (by decide)
  have hwaiting : Switch.Waiting s c oldContext newContext old (a.top - 104#32) := by
    constructor
    · apply hcontext.congr
      intro x hx
      exact hentered.stack x (hlow (by simpa [Switch.Context.words, Switch.saved] using hx))
    · intro x hx
      exact hentered.untouched x (hlow hx)
  obtain ⟨s₁, hswitch, hsuspended, hrestored⟩ :=
    Switch.exec_asmSwitchTo proc hcallable hwaiting
  rw [hc, if_pos hrestart] at hswitch
  have hstack : Stack s₁ (savedTrap f gs).child.words := by
    have hesp : s₁.esp = a.top - 68#32 := by
      rw [(hrestored (by rwa [hc])).esp, hhigh]
    rw [Stack, hesp]
    apply hforked.frame.congr
    intro x hx
    have hin : x ∈ block (a.top - 104#32) 104 := hframe (by simpa [Trap.words_length] using hx)
    rw [hsuspended.others x (hentered.untouched x hin), hentered.stack x hin]
  by_cases hgs : gs = []
  · subst hgs
    obtain ⟨s₂, hrun, hreturned⟩ := exec_restart proc hstack huser
    exact ⟨s₁, s₂, hswitch, fun _ => ⟨hrun, hreturned⟩, by simp⟩
  · obtain ⟨hregs, heip, hcs, _⟩ := savedTrap_getLast f hgs
    have hring : (savedTrap f gs).child.cs &&& 3#32 = 0#32 := by
      have hchild : (savedTrap f gs).child.cs = (gs.getLast hgs).cs := hcs
      rw [hchild]
      exact hkernel _ (List.getLast_mem hgs)
    obtain ⟨s₂, hrun, hregs₂, hesp₂⟩ := exec_restart_kernel proc hstack hring
    refine ⟨s₁, s₂, hswitch, fun hnil => (hgs hnil).elim, ?_⟩
    intro g hg
    have hlast : gs.getLast hgs = g := by
      rw [List.getLast?_eq_some_getLast hgs] at hg
      simpa using hg
    subst hlast
    refine ⟨?_, ?_, ?_⟩
    · rw [hrun, ← heip, ← hcs]
      rfl
    · intro r hr
      rw [hregs₂ r hr, Trap.child, Trap.child, hregs]
    · rw [hesp₂, (hrestored (by rwa [hc])).esp]
      bv_omega

/-! A child of the process of `readTrap`, without an interrupt and with one of the timer. -/

def tickTrap : Trap where
  regs _ := 0xC0300000#32
  segs _ := 0x10#16
  error := 0#32
  eip := 0xC0000200#32
  cs := 0x8#32
  eflags := 0x202#32
  esp := 0x3#32
  ss := 0x4000#32

def forkArgs : Fork where
  cur := 0x4000#32
  new := 0x4100#32
  top := 0x7000#32
  cr3 := 0x9000#32
  context := 0x5100#32
  contextField := 0x5000#32
  restart := 0xC0005000#32

/-- The state of the parent and the call by which it switches to its child. -/
def parentMemory (gs : List Trap) : Memory :=
  putWords (putWords (fun _ => 0#8) 0x4000#32 (savedTrap readTrap gs).words) 0x1080#32
    [0xC0200000#32, 0x5200#32, 0x6F98#32]

def forkedState (gs : List Trap) : State where
  regs _ := 0x1080#32
  segs _ := 0x10#16
  flags := Flags.ofWord 0x2#32
  mem := archFork (parentMemory gs) forkArgs

theorem block_disjoint_of_le {a b : Word} {k n : ℕ} (hle : a.toNat + k ≤ b.toNat)
    (hfit : b.toNat + n ≤ 2 ^ 32) : Disjoint (block a k) (block b n) := by
  simpa using block_disjoint (a := 0#32) hle hfit

theorem forkArgs_apart : forkArgs.Apart := by
  constructor
  · exact (block_disjoint_of_le (by decide) (by decide)).symm
  · exact (block_disjoint_of_le (by decide) (by decide)).symm

theorem forkArgs_entered
    (hfield : load (forkedState gs).mem forkArgs.contextField = 0x6F98#32)
    (hstack : Stack (forkedState gs) [0xC0200000#32, 0x5200#32, 0x6F98#32]) :
    forkArgs.Entered (forkedState gs).mem (forkedState gs) 0x3000#32 0x3004#32 0xC0200000#32
      0x5200#32 := by
  have hesp : (forkedState gs).esp = 0x1080#32 := rfl
  refine ⟨fun _ _ => rfl, fun _ _ => rfl, ?_, ?_⟩
  · rw [hfield]
    constructor
    · exact hstack
    · exact block_disjoint_of_le (by rw [hesp]; decide) (by decide)
    · exact block_disjoint_of_le (by rw [hesp]; decide) (by decide)
    · exact block_disjoint_of_le (by rw [hesp]; decide) (by decide)
    · exact block_disjoint_of_le (by decide) (by decide)
    · exact (block_disjoint_of_le (by decide) (by decide)).symm
  · intro x hx
    have hother : ∀ {b : Word} {n : ℕ}, b.toNat + n ≤ (forkArgs.top - 104#32).toNat →
        x ∉ block b n :=
      fun hle hin => Set.disjoint_left.mp (block_disjoint_of_le hle (by decide)) hin hx
    constructor
    · exact hother (by rw [hesp]; decide)
    · exact hother (by decide)
    · exact hother (by decide)
    · exact hother (by decide)

theorem exec_child_read :
    (∃ s₁ s₂, exec (fun _ s => s) (Switch.asmSwitchTo 0x3000#32 0x3004#32) none
          (forkedState []) = .stop (.ret 0xC0005000#32) s₁ ∧
        exec (fun _ s => s) restart none s₁ =
          .stop (.iret readTrap.eip readTrap.cs (some readTrap.ss)) s₂ ∧
        Returned readTrap.child s₂) ∧
      ∃ s₁ s₂, exec (fun _ s => s) (Switch.asmSwitchTo 0x3000#32 0x3004#32) none
          (forkedState [tickTrap]) = .stop (.ret 0xC0005000#32) s₁ ∧
        exec (fun _ s => s) restart none s₁ = .stop (.iret tickTrap.eip tickTrap.cs none) s₂ ∧
        (∀ r, r ≠ .esp → s₂.regs r = tickTrap.child.regs r) ∧ s₂.esp = 0x7000#32 - 8#32 := by
  constructor
  · have hstate : Words (parentMemory []) forkArgs.cur (savedTrap readTrap []).words := by decide
    obtain ⟨s₁, s₂, hswitch, huser, _⟩ := exec_child forkArgs_apart hstate (by decide) (by simp)
      (by decide) (forkArgs_entered (by decide) (by decide))
    exact ⟨s₁, s₂, hswitch, huser rfl⟩
  · have hstate : Words (parentMemory [tickTrap]) forkArgs.cur
        (savedTrap readTrap [tickTrap]).words := by decide
    obtain ⟨s₁, s₂, hswitch, _, hkernel⟩ := exec_child forkArgs_apart hstate (by decide)
      (by simp [tickTrap]) (by decide) (forkArgs_entered (by decide) (by decide))
    exact ⟨s₁, s₂, hswitch, hkernel tickTrap rfl⟩

end Yak.Syscall
