import Yak.KvmallocSafety

/-!
# The argument block of a new program

A transcription of `exec_set_up_stack` with `exec_count_str` and `exec_strlen`, and of
the copy in `arch_exec_elf`.  The vectors and the strings are read from the memory of
the user, and the block is built on the kernel heap, twelve bytes in front of what
`kvmalloc` returns.  The addresses of all bytes written are recorded.
-/

namespace Yak.ExecStack

open ByteBitmap (Bytes)
open WordMemory
open Kvmalloc (Heap)

def kernelVirtBase : ℕ := 0xC0000000
def userStackSize : ℕ := 0x200000

/-- No loop over memory goes on for longer. -/
def addressSpace : ℕ := 2 ^ 32

/-! ## Counting -/

def countFrom (user : Bytes) : (fuel p : ℕ) → Except Halt ℕ
  | 0, _ => .error .endless
  | fuel + 1, p =>
      if load32 user p = 0 then .ok 0
      else do
        let n ← countFrom user fuel (p + 4)
        .ok (n + 1)

/-- `exec_count_str`, which counts the null pointer at the end as well. -/
def execCountStr (user : Bytes) (str : ℕ) : Except Halt ℕ := do
  let n ← countFrom user addressSpace str
  .ok (n + 1)

def strlenFrom (user : Bytes) : (fuel p : ℕ) → Except Halt ℕ
  | 0, _ => .error .endless
  | fuel + 1, p =>
      if user p = 0#8 then .ok 0
      else do
        let n ← strlenFrom user fuel (p + 1)
        .ok (n + 1)

/-- `exec_strlen`, which counts the zero at the end as well. -/
def execStrlen (user : Bytes) (s : ℕ) : Except Halt ℕ := do
  let n ← strlenFrom user addressSpace s
  .ok (n + 1)

/-- The loops which add up the lengths of the strings. -/
def sumStrlen (user : Bytes) : (fuel p : ℕ) → Except Halt ℕ
  | 0, _ => .error .endless
  | fuel + 1, p =>
      if load32 user p = 0 then .ok 0
      else do
        let len ← execStrlen user (load32 user p)
        let rest ← sumStrlen user fuel (p + 4)
        .ok (len + rest)

/-! ## Writing -/

/-- Memory, and the addresses of the bytes which were written. -/
structure Writer where
  mem : Bytes
  written : List ℕ

def Writer.putWord (w : Writer) (a v : ℕ) : Writer :=
  ⟨store32 w.mem a v, a :: (a + 1) :: (a + 2) :: (a + 3) :: w.written⟩

def Writer.putByte (w : Writer) (a : ℕ) (b : BitVec 8) : Writer :=
  ⟨Function.update w.mem a b, a :: w.written⟩

/-- The loop which copies a string. -/
def copyString (user : Bytes) (s run : ℕ) : (n j : ℕ) → Writer → Writer
  | 0, _, w => w
  | n + 1, j, w => copyString user s run n (j + 1) (w.putByte ((run + j) % 2 ^ 32) (user (s + j)))

/-- The loop which fills one of the vectors: `roving` goes over the pointers, and
`run` over the strings. -/
def fillVector (user : Bytes) (vec userSpBase sp : ℕ) :
    (n i roving run : ℕ) → Writer → Except Halt (ℕ × ℕ × Writer)
  | 0, _, roving, run, w => .ok (roving, run, w)
  | n + 1, i, roving, run, w =>
      let s := load32 user (vec + 4 * i)
      if s ≠ 0 then do
        let w := w.putWord roving (sub32 ((userSpBase + run) % 2 ^ 32) sp)
        let tmp ← execStrlen user s
        fillVector user vec userSpBase sp n (i + 1) ((roving + 4) % 2 ^ 32)
          ((run + tmp) % 2 ^ 32) (copyString user s run tmp 0 w)
      else
        fillVector user vec userSpBase sp n (i + 1) ((roving + 4) % 2 ^ 32) run (w.putWord roving 0)

/-- What `exec_set_up_stack` leaves: its result, the block which it got from
`kvmalloc`, and what it wrote. -/
structure Built where
  sp : ℕ
  stackGap : ℕ
  block : ℕ
  totalLen : ℕ
  mem : Bytes
  written : List ℕ

/-- `exec_set_up_stack` -/
def execSetUpStack (regions : ℕ → Option ℕ) (user : Bytes) (h : Heap) (argv envp : ℕ) :
    Except Halt Built := do
  let argvCount ← execCountStr user argv
  let envpCount ← execCountStr user envp
  let argvLen ← sumStrlen user addressSpace argv
  let envpLen ← sumStrlen user addressSpace envp
  let totalLen := (argvCount * 4 + envpCount * 4 + argvLen + envpLen + 3 * 4) % 2 ^ 32
  let userSpBase := sub32 kernelVirtBase totalLen / 16 * 16
  let (block, h) ← h.kvmalloc regions totalLen
  let sp := sub32 block 12
  let w := Writer.putWord ⟨h.mem, []⟩ sp (argvCount - 1)
  let w := w.putWord ((sp + 4) % 2 ^ 32) ((userSpBase + 3 * 4) % 2 ^ 32)
  let w := w.putWord ((sp + 8) % 2 ^ 32) ((userSpBase + 3 * 4 + argvCount * 4) % 2 ^ 32)
  let (roving, run, w) ← fillVector user argv userSpBase sp argvCount 0 ((sp + 12) % 2 ^ 32)
    ((sp + 12 + argvCount * 4 + envpCount * 4) % 2 ^ 32) w
  let (_, _, w) ← fillVector user envp userSpBase sp envpCount 0 roving run w
  .ok ⟨sp, sub32 kernelVirtBase userSpBase, block, totalLen, w.mem, w.written⟩

/-- The copy to the stack of the user in `arch_exec_elf`. -/
def placed (stack : Bytes) (b : Built) : Bytes := fun a =>
  if kernelVirtBase - b.stackGap ≤ a ∧ a < kernelVirtBase then
    b.mem (b.sp + (a - (kernelVirtBase - b.stackGap)))
  else stack a

/-! ## Vectors of strings in memory -/

/-- The bytes of a string and a zero. -/
def CString (m : Bytes) : ℕ → List (BitVec 8) → Prop
  | q, [] => m q = 0#8
  | q, b :: bs => (m q = b ∧ b ≠ 0#8) ∧ CString m (q + 1) bs

/-- These pointers and a null pointer. -/
def Vector (m : Bytes) : ℕ → List ℕ → Prop
  | a, [] => load32 m a = 0
  | a, q :: qs => (load32 m a = q ∧ q ≠ 0) ∧ Vector m (a + 4) qs

/-- The number of bytes of the strings with their zeros. -/
def areaLen (strs : List (List (BitVec 8))) : ℕ := (strs.map fun s => s.length + 1).sum

/-- A vector of strings which ends before memory does. -/
structure Strings (m : Bytes) (vec : ℕ) (strs : List (List (BitVec 8))) : Prop where
  vector : ∃ ptrs, Vector m vec ptrs ∧ List.Forall₂ (CString m) ptrs strs
  few : strs.length < addressSpace
  short : ∀ s ∈ strs, s.length < addressSpace

variable {m m' user : Bytes} {a b q s vec fuel : ℕ} {bs : List (BitVec 8)} {ptrs : List ℕ}
  {strs : List (List (BitVec 8))}

@[simp] theorem areaLen_nil : areaLen [] = 0 := rfl

@[simp] theorem areaLen_cons (s : List (BitVec 8)) (strs : List (List (BitVec 8))) :
    areaLen (s :: strs) = s.length + 1 + areaLen strs := by
  simp [areaLen]

@[simp] theorem areaLen_append (strs strs' : List (List (BitVec 8))) :
    areaLen (strs ++ strs') = areaLen strs + areaLen strs' := by
  simp [areaLen]

theorem CString.congr (h : CString m q bs) (hsame : ∀ k ≤ bs.length, m' (a + k) = m (q + k)) :
    CString m' a bs := by
  induction bs generalizing q a with
  | nil => exact (hsame 0 le_rfl).trans h
  | cons b bs ih =>
      refine ⟨⟨(hsame 0 (Nat.zero_le _)).trans h.1.1, h.1.2⟩, ih h.2 ?_⟩
      intro k hk
      rw [Nat.add_assoc, Nat.add_assoc, Nat.add_comm 1 k]
      exact hsame (k + 1) (Nat.succ_le_succ hk)

theorem load32_congr_at (hsame : ∀ k < 4, m' (b + k) = m (a + k)) : load32 m' b = load32 m a := by
  unfold load32
  rw [hsame 1 (by omega), hsame 2 (by omega), hsame 3 (by omega), show m' b = m a from
    hsame 0 (by omega)]

theorem Vector.congr (h : Vector m a ptrs)
    (hsame : ∀ k < 4 * (ptrs.length + 1), m' (b + k) = m (a + k)) : Vector m' b ptrs := by
  induction ptrs generalizing a b with
  | nil => exact (load32_congr_at fun k hk => hsame k (by simpa using hk)).trans h
  | cons q ptrs ih =>
      rw [List.length_cons] at hsame
      have hword : load32 m' b = load32 m a := load32_congr_at fun k hk => hsame k (by omega)
      refine ⟨⟨hword.trans h.1.1, h.1.2⟩, ih h.2 ?_⟩
      intro k hk
      rw [Nat.add_assoc, Nat.add_assoc]
      exact hsame (4 + k) (by omega)

theorem countFrom_eq (h : Vector user vec ptrs) (hfuel : ptrs.length < fuel) :
    countFrom user fuel vec = .ok ptrs.length := by
  induction ptrs generalizing vec fuel with
  | nil =>
      obtain ⟨fuel, rfl⟩ := Nat.exists_eq_succ_of_ne_zero (Nat.ne_zero_of_lt hfuel)
      exact if_pos h
  | cons q ptrs ih =>
      obtain ⟨fuel, rfl⟩ := Nat.exists_eq_succ_of_ne_zero (Nat.ne_zero_of_lt hfuel)
      rw [countFrom, h.1.1, if_neg h.1.2, ih h.2 (Nat.lt_of_succ_lt_succ hfuel), ok_bind]
      rfl

theorem strlenFrom_eq (h : CString user q bs) (hfuel : bs.length < fuel) :
    strlenFrom user fuel q = .ok bs.length := by
  induction bs generalizing q fuel with
  | nil =>
      obtain ⟨fuel, rfl⟩ := Nat.exists_eq_succ_of_ne_zero (Nat.ne_zero_of_lt hfuel)
      exact if_pos h
  | cons b bs ih =>
      obtain ⟨fuel, rfl⟩ := Nat.exists_eq_succ_of_ne_zero (Nat.ne_zero_of_lt hfuel)
      rw [strlenFrom, h.1.1, if_neg h.1.2, ih h.2 (Nat.lt_of_succ_lt_succ hfuel), ok_bind]
      rfl

theorem execStrlen_eq (h : CString user q bs) (hshort : bs.length < addressSpace) :
    execStrlen user q = .ok (bs.length + 1) := by
  rw [execStrlen, strlenFrom_eq h hshort, ok_bind]

theorem sumStrlen_eq (hvec : Vector user vec ptrs) (hstr : List.Forall₂ (CString user) ptrs strs)
    (hshort : ∀ s ∈ strs, s.length < addressSpace) (hfuel : strs.length < fuel) :
    sumStrlen user fuel vec = .ok (areaLen strs) := by
  induction hstr generalizing vec fuel with
  | nil =>
      obtain ⟨fuel, rfl⟩ := Nat.exists_eq_succ_of_ne_zero (Nat.ne_zero_of_lt hfuel)
      exact if_pos hvec
  | cons hs _ ih =>
      obtain ⟨fuel, rfl⟩ := Nat.exists_eq_succ_of_ne_zero (Nat.ne_zero_of_lt hfuel)
      have hrest := ih hvec.2 (fun s hs' => hshort s (List.mem_cons_of_mem _ hs'))
        (Nat.lt_of_succ_lt_succ hfuel)
      rw [sumStrlen, hvec.1.1, if_neg hvec.1.2, execStrlen_eq hs (hshort _ List.mem_cons_self),
        ok_bind, hrest, ok_bind, areaLen_cons]

/-! ## A vector and its strings are written -/

/-- The addresses of strings which stand one behind the other. -/
def starts : ℕ → List (List (BitVec 8)) → List ℕ
  | _, [] => []
  | a, s :: strs => a :: starts (a + s.length + 1) strs

@[simp] theorem length_starts (a : ℕ) (strs : List (List (BitVec 8))) :
    (starts a strs).length = strs.length := by
  induction strs generalizing a with
  | nil => rfl
  | cons s strs ih => rw [starts, List.length_cons, List.length_cons, ih]

theorem starts_append (a : ℕ) (strs strs' : List (List (BitVec 8))) :
    starts a (strs ++ strs') = starts a strs ++ starts (a + areaLen strs) strs' := by
  induction strs generalizing a with
  | nil => rfl
  | cons s strs ih =>
      rw [List.cons_append, starts, starts, ih, areaLen_cons, List.cons_append]
      congr 3
      omega

/-- What the loop over a vector leaves, for the stack pointer `base` of the user and `sp`
of the kernel. -/
structure Filled (mem mem' : Bytes) (base sp roving run : ℕ) (strs : List (List (BitVec 8))) :
    Prop where
  vector : Vector mem' roving (starts (base + (run - sp)) strs)
  strings : List.Forall₂ (CString mem') (starts run strs) strs
  frame : ∀ x, x < roving ∨ roving + 4 * (strs.length + 1) ≤ x ∧ x < run ∨
    run + areaLen strs ≤ x → mem' x = mem x

theorem copyString_frame {run n j : ℕ} (w : Writer) (hrun : run + j + n ≤ 2 ^ 32) {x : ℕ}
    (hx : x < run + j ∨ run + j + n ≤ x) : (copyString user s run n j w).mem x = w.mem x := by
  induction n generalizing j w with
  | zero => rfl
  | succ n ih =>
      rw [copyString, ih _ (by omega) (by omega), Nat.mod_eq_of_lt (by omega)]
      exact Function.update_of_ne (by omega) _ _

theorem copyString_copied {run n j k : ℕ} (w : Writer) (hrun : run + j + n ≤ 2 ^ 32)
    (hk : k < n) : (copyString user s run n j w).mem (run + j + k) = user (s + j + k) := by
  induction n generalizing j k w with
  | zero => omega
  | succ n ih =>
      rw [copyString]
      cases k with
      | zero =>
          rw [copyString_frame _ (by omega) (by omega), Nat.mod_eq_of_lt (by omega)]
          exact Function.update_self _ _ _
      | succ k =>
          have hcopied := ih (j := j + 1) (k := k)
            (w.putByte ((run + j) % 2 ^ 32) (user (s + j))) (by omega) (by omega)
          rw [show run + j + (k + 1) = run + (j + 1) + k by omega,
            show s + j + (k + 1) = s + (j + 1) + k by omega]
          exact hcopied

theorem fillVector_eq (vec i : ℕ) {base sp roving run : ℕ} (w : Writer)
    (hvec : Vector user (vec + 4 * i) ptrs) (hstr : List.Forall₂ (CString user) ptrs strs)
    (hshort : ∀ s ∈ strs, s.length < addressSpace) (hbase : 0 < base) (hsp : sp ≤ run)
    (hroving : roving + 4 * (strs.length + 1) ≤ run) (hrun : run + areaLen strs < 2 ^ 32)
    (htop : base + (run - sp) + areaLen strs < 2 ^ 32) :
    ∃ w', fillVector user vec base sp (strs.length + 1) i roving run w =
        .ok (roving + 4 * (strs.length + 1), run + areaLen strs, w') ∧
      Filled w.mem w'.mem base sp roving run strs := by
  induction hstr generalizing i roving run w with
  | nil =>
      refine ⟨w.putWord roving 0, ?_, ⟨load32_store32 (by decide), .nil, ?_⟩⟩
      · rw [fillVector, show load32 user (vec + 4 * i) = 0 from hvec, if_neg (fun h => h rfl)]
        rw [List.length_nil] at hroving ⊢
        rw [fillVector, Nat.mod_eq_of_lt (by omega)]
        rfl
      · intro x hx
        rw [List.length_nil] at hx
        exact store32_apply (by omega)
  | @cons q bs ptrs strs hs hstr ih =>
      have hlen := hshort bs List.mem_cons_self
      rw [areaLen_cons, List.length_cons] at *
      have hvalue : sub32 ((base + run) % 2 ^ 32) sp = base + (run - sp) := by
        unfold sub32
        split
        all_goals omega
      have hnext : Vector user (vec + 4 * (i + 1)) ptrs := by
        rw [Nat.mul_add, ← Nat.add_assoc]
        exact hvec.2
      let w₁ := copyString user q run (bs.length + 1) 0 (w.putWord roving (base + (run - sp)))
      have hword : ∀ x, x < roving + 4 ∨ roving + 4 ≤ x ∧ x < run ∨ run + (bs.length + 1) ≤ x →
          w₁.mem x = store32 w.mem roving (base + (run - sp)) x := by
        intro x hx
        exact copyString_frame _ (by omega) (by omega)
      have hcopied : ∀ k ≤ bs.length, w₁.mem (run + k) = user (q + k) := by
        intro k hk
        exact copyString_copied (j := 0) _ (by omega) (Nat.lt_succ_of_le hk)
      obtain ⟨w', hw', hvector, hstrings, hframe⟩ := ih (i + 1) w₁ hnext
        (fun s hs' => hshort s (List.mem_cons_of_mem _ hs'))
        (show sp ≤ run + (bs.length + 1) by omega)
        (show roving + 4 + 4 * (strs.length + 1) ≤ run + (bs.length + 1) by omega) (by omega)
        (by omega)
      refine ⟨w', ?_, ⟨⟨?_, ?_⟩, ?_⟩, .cons ?_ ?_, ?_⟩
      · rw [fillVector, show load32 user (vec + 4 * i) = q from hvec.1.1]
        dsimp only
        rw [if_pos hvec.1.2, execStrlen_eq hs hlen, ok_bind, hvalue, Nat.mod_eq_of_lt (by omega),
          Nat.mod_eq_of_lt (by omega),
          show roving + 4 * (strs.length + 1 + 1) = roving + 4 + 4 * (strs.length + 1) by omega,
          show run + (bs.length + 1 + areaLen strs) = run + (bs.length + 1) + areaLen strs by omega]
        exact hw'
      · rw [load32_congr fun x _ _ => hframe x (by omega),
          load32_congr fun x _ _ => hword x (by omega)]
        exact load32_store32 (by omega)
      · omega
      · rw [show base + (run - sp) + bs.length + 1 = base + (run + (bs.length + 1) - sp) by omega]
        exact hvector
      · apply hs.congr
        intro k hk
        rw [hframe _ (by omega), hcopied k hk]
      · exact hstrings
      · intro x hx
        rw [List.length_cons, areaLen_cons] at hx
        rw [hframe x (by omega), hword x (by omega)]
        exact store32_apply (by omega)

/-! ## The call -/

variable {regions : ℕ → Option ℕ} {h h' : Heap} {argv envp block : ℕ}
  {args env : List (List (BitVec 8))}

/-- The length which `exec_set_up_stack` asks for. -/
def blockLen (args env : List (List (BitVec 8))) : ℕ :=
  (args.length + 1) * 4 + (env.length + 1) * 4 + areaLen args + areaLen env + 3 * 4

/-- The part of `exec_set_up_stack` behind the call of `kvmalloc`. -/
def fillBlock (user : Bytes) (argv envp argvCount envpCount totalLen block : ℕ) (mem : Bytes) :
    Except Halt Built := do
  let userSpBase := sub32 kernelVirtBase totalLen / 16 * 16
  let sp := sub32 block 12
  let w := Writer.putWord ⟨mem, []⟩ sp (argvCount - 1)
  let w := w.putWord ((sp + 4) % 2 ^ 32) ((userSpBase + 3 * 4) % 2 ^ 32)
  let w := w.putWord ((sp + 8) % 2 ^ 32) ((userSpBase + 3 * 4 + argvCount * 4) % 2 ^ 32)
  let (roving, run, w) ← fillVector user argv userSpBase sp argvCount 0 ((sp + 12) % 2 ^ 32)
    ((sp + 12 + argvCount * 4 + envpCount * 4) % 2 ^ 32) w
  let (_, _, w) ← fillVector user envp userSpBase sp envpCount 0 roving run w
  .ok ⟨sp, sub32 kernelVirtBase userSpBase, block, totalLen, w.mem, w.written⟩

theorem Strings.count (hargv : Strings user argv args) :
    execCountStr user argv = .ok (args.length + 1) := by
  obtain ⟨ptrs, hvec, hstr⟩ := hargv.vector
  have hlen := hargv.few
  rw [← hstr.length_eq] at hlen ⊢
  rw [execCountStr, countFrom_eq hvec hlen, ok_bind]

theorem Strings.sum (hargv : Strings user argv args) :
    sumStrlen user addressSpace argv = .ok (areaLen args) := by
  obtain ⟨ptrs, hvec, hstr⟩ := hargv.vector
  exact sumStrlen_eq hvec hstr hargv.short hargv.few

theorem execSetUpStack_eq (hargv : Strings user argv args) (henvp : Strings user envp env) :
    execSetUpStack regions user h argv envp =
      h.kvmalloc regions (blockLen args env % 2 ^ 32) >>= fun r =>
        fillBlock user argv envp (args.length + 1) (env.length + 1) (blockLen args env % 2 ^ 32)
          r.1 r.2.mem := by
  unfold execSetUpStack
  rw [hargv.count, henvp.count, hargv.sum, henvp.sum]
  rfl

theorem written_copyString {run n j : ℕ} (w : Writer) (ha : a ∈ w.written) :
    a ∈ (copyString user s run n j w).written := by
  induction n generalizing j w with
  | zero => exact ha
  | succ n ih => exact ih _ (List.mem_cons_of_mem _ ha)

theorem fillVector_ok (base sp i roving run : ℕ) (w : Writer)
    (hvec : Vector user (vec + 4 * i) ptrs) (hstr : List.Forall₂ (CString user) ptrs strs)
    (hshort : ∀ s ∈ strs, s.length < addressSpace) :
    ∃ roving' run' w', fillVector user vec base sp (strs.length + 1) i roving run w =
      .ok (roving', run', w') ∧ ∀ a ∈ w.written, a ∈ w'.written := by
  induction hstr generalizing i roving run w with
  | nil =>
      refine ⟨(roving + 4) % 2 ^ 32, run, w.putWord roving 0, ?_, ?_⟩
      · rw [fillVector, show load32 user (vec + 4 * i) = 0 from hvec, if_neg fun h => h rfl]
        rfl
      · intro a ha
        simp [Writer.putWord, ha]
  | @cons q bs ptrs strs hs hstr ih =>
      have hnext : Vector user (vec + 4 * (i + 1)) ptrs := by
        rw [Nat.mul_add, ← Nat.add_assoc]
        exact hvec.2
      obtain ⟨roving', run', w', hw', hwritten⟩ := ih (i + 1) ((roving + 4) % 2 ^ 32)
        ((run + (bs.length + 1)) % 2 ^ 32)
        (copyString user q run (bs.length + 1) 0
          (w.putWord roving (sub32 ((base + run) % 2 ^ 32) sp))) hnext
        fun s hs' => hshort s (List.mem_cons_of_mem _ hs')
      refine ⟨roving', run', w', ?_, ?_⟩
      · rw [List.length_cons, fillVector, show load32 user (vec + 4 * i) = q from hvec.1.1]
        dsimp only
        rw [if_pos hvec.1.2, execStrlen_eq hs (hshort _ List.mem_cons_self), ok_bind]
        exact hw'
      · intro a ha
        apply hwritten
        apply written_copyString
        simp [Writer.putWord, ha]

theorem fillBlock_ok (hargv : Strings user argv args) (henvp : Strings user envp env)
    (totalLen block : ℕ) (mem : Bytes) :
    ∃ b, fillBlock user argv envp (args.length + 1) (env.length + 1) totalLen block mem = .ok b ∧
      b.block = block ∧ sub32 block 12 ∈ b.written := by
  obtain ⟨ptrs, hvec, hstr⟩ := hargv.vector
  obtain ⟨ptrs', hvec', hstr'⟩ := henvp.vector
  let base := sub32 kernelVirtBase totalLen / 16 * 16
  let sp := sub32 block 12
  let w₀ := Writer.putWord ⟨mem, []⟩ sp args.length
  let w₁ := w₀.putWord ((sp + 4) % 2 ^ 32) ((base + 3 * 4) % 2 ^ 32)
  let w₂ := w₁.putWord ((sp + 8) % 2 ^ 32) ((base + 3 * 4 + (args.length + 1) * 4) % 2 ^ 32)
  obtain ⟨roving, run, w, hw, hwritten⟩ := fillVector_ok base sp 0 ((sp + 12) % 2 ^ 32)
    ((sp + 12 + (args.length + 1) * 4 + (env.length + 1) * 4) % 2 ^ 32) w₂ hvec hstr hargv.short
  obtain ⟨roving', run', w', hw', hwritten'⟩ := fillVector_ok base sp 0 roving run w hvec' hstr'
    henvp.short
  refine ⟨⟨sp, sub32 kernelVirtBase base, block, totalLen, w'.mem, w'.written⟩, ?_, rfl, ?_⟩
  · unfold fillBlock
    dsimp only
    rw [Nat.add_sub_cancel]
    change (fillVector user argv base sp (args.length + 1) 0 ((sp + 12) % 2 ^ 32)
      ((sp + 12 + (args.length + 1) * 4 + (env.length + 1) * 4) % 2 ^ 32) w₂ >>= _) = _
    rw [hw, ok_bind]
    change (fillVector user envp base sp (env.length + 1) 0 roving run w >>= _) = _
    rw [hw', ok_bind]
  · apply hwritten' _ (hwritten _ _)
    simp [w₂, w₁, w₀, Writer.putWord, sp]

/-- All bytes written, and all bytes which are copied to the stack of the user, are in
the block. -/
structure Built.Inside (b : Built) : Prop where
  writes : ∀ a ∈ b.written, b.block ≤ a ∧ a < b.block + b.totalLen
  reads : ∀ k < b.stackGap, b.block ≤ b.sp + k ∧ b.sp + k < b.block + b.totalLen

/-- Unless `kvmalloc` does not return, the first word is written in front of the block. -/
theorem inside_iff_no_block (hargv : Strings user argv args) (henvp : Strings user envp env)
    (hhigh : ∀ block h', h.kvmalloc regions (blockLen args env % 2 ^ 32) = .ok (block, h') →
      12 ≤ block) :
    (∀ b, execSetUpStack regions user h argv envp = .ok b → b.Inside) ↔
      ∀ block h', h.kvmalloc regions (blockLen args env % 2 ^ 32) ≠ .ok (block, h') := by
  rw [execSetUpStack_eq hargv henvp]
  constructor
  · intro hinside block h' halloc
    obtain ⟨b, hb, hblock, hwritten⟩ := fillBlock_ok hargv henvp (blockLen args env % 2 ^ 32) block
      h'.mem
    have hlow := hhigh block h' halloc
    have hfirst := (hinside b (by rw [halloc, ok_bind]; exact hb)).writes _ hwritten
    rw [hblock, sub32_of_le hlow] at hfirst
    omega
  · intro hnone b hb
    obtain ⟨⟨block, h'⟩, halloc, _⟩ := bind_eq_ok.mp hb
    exact (hnone block h' halloc).elim

/-! ## Decoding -/

/-- The addresses of a string and its zero. -/
def stringSpan (q : ℕ) (s : List (BitVec 8)) : Span := (q, q + s.length + 1)

/-- The memory from `base` to `top` holds these arguments. -/
structure Decodes (m : Bytes) (base top : ℕ) (args env : List (List (BitVec 8))) : Prop where
  aligned : base % 16 = 0
  argc : load32 m base = args.length
  pointers : ∃ argPtrs envPtrs,
    (Vector m (load32 m (base + 4)) argPtrs ∧ List.Forall₂ (CString m) argPtrs args) ∧
    (Vector m (load32 m (base + 8)) envPtrs ∧ List.Forall₂ (CString m) envPtrs env) ∧
    (∀ q ∈ load32 m (base + 4) :: load32 m (base + 8) :: (argPtrs ++ envPtrs),
      base ≤ q ∧ q < top) ∧
    AllApart (List.zipWith stringSpan (argPtrs ++ envPtrs) (args ++ env))

theorem starts_bounds (a : ℕ) (strs : List (List (BitVec 8))) :
    ∀ q ∈ starts a strs, a ≤ q ∧ q < a + areaLen strs := by
  induction strs generalizing a with
  | nil => nofun
  | cons s strs ih =>
      intro q hq
      rw [areaLen_cons]
      rcases List.mem_cons.mp hq with rfl | hq
      · omega
      · have := ih _ q hq
        omega

theorem starts_apart (a : ℕ) (strs : List (List (BitVec 8))) :
    AllApart (List.zipWith stringSpan (starts a strs) strs) := by
  induction strs generalizing a with
  | nil => exact .nil
  | cons s strs ih =>
      refine AllApart.cons (ih _) ?_
      intro t ht
      rw [← List.map_uncurry_zip_eq_zipWith] at ht
      obtain ⟨⟨q, s'⟩, hmem, rfl⟩ := List.mem_map.mp ht
      exact Or.inl (starts_bounds _ _ q (List.of_mem_zip hmem).1).1

/-- The copy on the stack of the user has the bytes of the block. -/
theorem placed_apply {stack : Bytes} {b : Built} {x : ℕ} (hgap : b.stackGap ≤ kernelVirtBase)
    (hx : x < b.stackGap) : placed stack b (kernelVirtBase - b.stackGap + x) = b.mem (b.sp + x) := by
  unfold placed
  rw [if_pos (by omega), Nat.add_sub_cancel_left]

theorem forall₂_cstring_congr {m m' : Bytes} {a b : ℕ}
    (h : List.Forall₂ (CString m) (starts a strs) strs)
    (hsame : ∀ k < areaLen strs, m' (b + k) = m (a + k)) :
    List.Forall₂ (CString m') (starts b strs) strs := by
  induction strs generalizing a b with
  | nil => exact .nil
  | cons s strs ih =>
      rw [starts] at h ⊢
      rw [areaLen_cons] at hsame
      obtain ⟨hs, hrest⟩ := List.forall₂_cons.mp h
      refine .cons (hs.congr fun k hk => hsame k (by omega)) (ih hrest ?_)
      intro k hk
      have hk' := hsame (s.length + 1 + k) (by omega)
      rw [← Nat.add_assoc, ← Nat.add_assoc, ← Nat.add_assoc, ← Nat.add_assoc] at hk'
      exact hk'

/-- The words and strings of the finished block, for the stack pointer `base` of the
user. -/
structure Laid (m : Bytes) (base sp : ℕ) (args env : List (List (BitVec 8))) : Prop where
  argc : load32 m sp = args.length
  argv : load32 m (sp + 4) = base + 12
  envp : load32 m (sp + 8) = base + 12 + 4 * (args.length + 1)
  argvVector : Vector m (sp + 12)
    (starts (base + (12 + 4 * (args.length + 1) + 4 * (env.length + 1))) args)
  envpVector : Vector m (sp + (12 + 4 * (args.length + 1)))
    (starts (base + (12 + 4 * (args.length + 1) + 4 * (env.length + 1) + areaLen args)) env)
  argvStrings : List.Forall₂ (CString m)
    (starts (sp + (12 + 4 * (args.length + 1) + 4 * (env.length + 1))) args) args
  envpStrings : List.Forall₂ (CString m)
    (starts (sp + (12 + 4 * (args.length + 1) + 4 * (env.length + 1) + areaLen args)) env) env

theorem laid_of_filled {m₀ m₁ m₂ : Bytes} {base sp : ℕ} (hargc : load32 m₀ sp = args.length)
    (hargv : load32 m₀ (sp + 4) = base + 12)
    (henvp : load32 m₀ (sp + 8) = base + 12 + 4 * (args.length + 1))
    (hfill : Filled m₀ m₁ base sp (sp + 12)
      (sp + (12 + 4 * (args.length + 1) + 4 * (env.length + 1))) args)
    (hfill' : Filled m₁ m₂ base sp (sp + (12 + 4 * (args.length + 1)))
      (sp + (12 + 4 * (args.length + 1) + 4 * (env.length + 1) + areaLen args)) env) :
    Laid m₂ base sp args env := by
  have hword : ∀ k < 12, m₂ (sp + k) = m₀ (sp + k) := by
    intro k hk
    rw [hfill'.frame _ (by omega), hfill.frame _ (by omega)]
  have hvector := hfill.vector
  have hvector' := hfill'.vector
  rw [Nat.add_sub_cancel_left] at hvector hvector'
  refine ⟨?_, ?_, ?_, ?_, hvector', ?_, hfill'.strings⟩
  · rw [load32_congr_at fun k hk => hword k (by omega)]
    exact hargc
  · rw [load32_congr_at (m := m₀) (a := sp + 4), hargv]
    intro k hk
    rw [Nat.add_assoc]
    exact hword _ (by omega)
  · rw [load32_congr_at (m := m₀) (a := sp + 8), henvp]
    intro k hk
    rw [Nat.add_assoc]
    exact hword _ (by omega)
  · apply hvector.congr
    intro k hk
    rw [length_starts] at hk
    exact hfill'.frame _ (by omega)
  · apply forall₂_cstring_congr hfill.strings
    intro k hk
    exact hfill'.frame _ (by omega)

theorem fillBlock_laid (hargv : Strings user argv args) (henvp : Strings user envp env)
    (hlen : blockLen args env < userStackSize) (hlow : 12 ≤ block)
    (hhigh : block + blockLen args env ≤ 2 ^ 32) (mem : Bytes) :
    ∃ b, fillBlock user argv envp (args.length + 1) (env.length + 1) (blockLen args env) block mem =
        .ok b ∧ b.sp = block - 12 ∧
      b.stackGap = kernelVirtBase - (kernelVirtBase - blockLen args env) / 16 * 16 ∧
      Laid b.mem ((kernelVirtBase - blockLen args env) / 16 * 16) (block - 12) args env := by
  obtain ⟨ptrs, hvec, hstr⟩ := hargv.vector
  obtain ⟨ptrs', hvec', hstr'⟩ := henvp.vector
  have hbase : sub32 kernelVirtBase (blockLen args env) / 16 * 16 =
      (kernelVirtBase - blockLen args env) / 16 * 16 := by
    rw [sub32_of_le]
    unfold userStackSize at hlen
    unfold kernelVirtBase
    omega
  unfold fillBlock
  dsimp only
  rw [hbase, sub32_of_le hlow, Nat.add_sub_cancel]
  obtain ⟨sp, rfl⟩ : ∃ sp, block = sp + 12 := ⟨block - 12, by omega⟩
  rw [Nat.add_sub_cancel]
  have htop : (kernelVirtBase - blockLen args env) / 16 * 16 + blockLen args env < 2 ^ 32 ∧
      0 < (kernelVirtBase - blockLen args env) / 16 * 16 := by
    unfold userStackSize at hlen
    unfold kernelVirtBase
    omega
  have hgap : sub32 kernelVirtBase ((kernelVirtBase - blockLen args env) / 16 * 16) =
      kernelVirtBase - (kernelVirtBase - blockLen args env) / 16 * 16 := by
    apply sub32_of_le
    omega
  rw [hgap]
  obtain ⟨htop, hpos⟩ := htop
  generalize (kernelVirtBase - blockLen args env) / 16 * 16 = base at *
  unfold blockLen at htop hhigh
  rw [Nat.mod_eq_of_lt (show sp + 4 < 2 ^ 32 by omega),
    Nat.mod_eq_of_lt (show sp + 8 < 2 ^ 32 by omega),
    Nat.mod_eq_of_lt (show sp + 12 < 2 ^ 32 by omega),
    Nat.mod_eq_of_lt (show base + 3 * 4 < 2 ^ 32 by omega),
    Nat.mod_eq_of_lt (show base + 3 * 4 + (args.length + 1) * 4 < 2 ^ 32 by omega),
    Nat.mod_eq_of_lt (show sp + 12 + (args.length + 1) * 4 + (env.length + 1) * 4 < 2 ^ 32 by omega)]
  have hrun : sp + 12 + (args.length + 1) * 4 + (env.length + 1) * 4 =
      sp + (12 + 4 * (args.length + 1) + 4 * (env.length + 1)) := by omega
  rw [hrun]
  generalize hw₂ : Writer.putWord (Writer.putWord (Writer.putWord _ _ _) _ _) _ _ = w₂
  obtain ⟨w, hw, hfill⟩ := fillVector_eq argv 0 w₂ hvec hstr hargv.short hpos
    (show sp ≤ sp + (12 + 4 * (args.length + 1) + 4 * (env.length + 1)) by omega)
    (show sp + 12 + 4 * (args.length + 1) ≤
      sp + (12 + 4 * (args.length + 1) + 4 * (env.length + 1)) by omega) (by omega) (by omega)
  rw [Nat.add_assoc sp, Nat.add_assoc sp] at hw
  obtain ⟨w', hw', hfill'⟩ := fillVector_eq envp 0 w hvec' hstr' henvp.short hpos
    (show sp ≤ sp + (12 + 4 * (args.length + 1) + 4 * (env.length + 1) + areaLen args) by omega)
    (show sp + (12 + 4 * (args.length + 1)) + 4 * (env.length + 1) ≤
      sp + (12 + 4 * (args.length + 1) + 4 * (env.length + 1) + areaLen args) by omega)
      (by omega) (by omega)
  rw [hw, ok_bind]
  dsimp only
  rw [hw', ok_bind]
  refine ⟨_, rfl, rfl, rfl, laid_of_filled ?_ ?_ ?_ hfill hfill'⟩
  all_goals
    rw [← hw₂]
    unfold Writer.putWord
    dsimp only
  · rw [load32_store32_of_ne (by omega), load32_store32_of_ne (by omega), load32_store32 (by omega)]
  · rw [load32_store32_of_ne (by omega), load32_store32 (by omega)]
  · rw [load32_store32 (by omega)]
    omega

theorem Laid.decodes {base sp top : ℕ} (h : Laid m base sp args env) (haligned : base % 16 = 0)
    (htop : base + blockLen args env ≤ top)
    (hcopy : ∀ k < blockLen args env, m' (base + k) = m (sp + k)) :
    Decodes m' base top args env := by
  have hword : ∀ k, k + 4 ≤ blockLen args env → load32 m' (base + k) = load32 m (sp + k) := by
    intro k hk
    apply load32_congr_at
    intro x hx
    rw [Nat.add_assoc, Nat.add_assoc]
    exact hcopy _ (by omega)
  unfold blockLen at *
  have hargv := (hword 4 (by omega)).trans h.argv
  have henvp := (hword 8 (by omega)).trans h.envp
  refine ⟨haligned, (hword 0 (by omega)).trans h.argc,
    starts (base + (12 + 4 * (args.length + 1) + 4 * (env.length + 1))) args,
    starts (base + (12 + 4 * (args.length + 1) + 4 * (env.length + 1) + areaLen args)) env,
    ⟨?_, ?_⟩, ⟨?_, ?_⟩, ?_, ?_⟩
  · rw [hargv]
    apply h.argvVector.congr
    intro k hk
    rw [length_starts] at hk
    rw [Nat.add_assoc, Nat.add_assoc]
    exact hcopy _ (by omega)
  · apply forall₂_cstring_congr h.argvStrings
    intro k hk
    rw [Nat.add_assoc base, Nat.add_assoc sp]
    exact hcopy _ (by omega)
  · rw [henvp]
    apply h.envpVector.congr
    intro k hk
    rw [length_starts] at hk
    rw [Nat.add_assoc base, Nat.add_assoc base, Nat.add_assoc sp]
    exact hcopy _ (by omega)
  · apply forall₂_cstring_congr h.envpStrings
    intro k hk
    rw [Nat.add_assoc base, Nat.add_assoc sp]
    exact hcopy _ (by omega)
  · rw [hargv, henvp, ← Nat.add_assoc base _ (areaLen args), ← starts_append]
    intro q hq
    rcases List.mem_cons.mp hq with rfl | hq
    · omega
    · rcases List.mem_cons.mp hq with rfl | hq
      · omega
      · have hbounds := starts_bounds _ _ q hq
        rw [areaLen_append] at hbounds
        omega
  · rw [← Nat.add_assoc base _ (areaLen args), ← starts_append]
    exact starts_apart _ _

/-- The block which `exec_set_up_stack` builds, put where the stack pointer of the user
is, decodes to the arguments. -/
theorem decodes_of_execSetUpStack (stack : Bytes) (hargv : Strings user argv args)
    (henvp : Strings user envp env) (hlen : blockLen args env < userStackSize)
    (halloc : h.kvmalloc regions (blockLen args env) = .ok (block, h')) (hlow : 12 ≤ block)
    (hhigh : block + blockLen args env ≤ 2 ^ 32) :
    ∃ b, execSetUpStack regions user h argv envp = .ok b ∧
      Decodes (placed stack b) (kernelVirtBase - b.stackGap) kernelVirtBase args env := by
  have hmod : blockLen args env % 2 ^ 32 = blockLen args env := by
    unfold userStackSize at hlen
    omega
  obtain ⟨b, hb, hsp, hgap, hlaid⟩ := fillBlock_laid hargv henvp hlen hlow hhigh h'.mem
  refine ⟨b, ?_, ?_⟩
  · rw [execSetUpStack_eq hargv henvp, hmod, halloc, ok_bind]
    exact hb
  · unfold userStackSize at hlen
    have hbase : kernelVirtBase - b.stackGap = (kernelVirtBase - blockLen args env) / 16 * 16 := by
      unfold kernelVirtBase at *
      omega
    rw [← hbase, ← hsp] at hlaid
    refine hlaid.decodes ?_ ?_ ?_
    · omega
    · unfold kernelVirtBase at *
      omega
    · intro k hk
      apply placed_apply
      · unfold kernelVirtBase at *
        omega
      · unfold kernelVirtBase at *
        omega

/-! ## Examples -/

/-- A heap of one page, and no memory for more. -/
def pageHeap : Heap := Heap.kvmallocInit (fun _ => 0#8) 0xC0400000 0x1000

def noRegions : ℕ → Option ℕ := fun _ => none

/-- Vectors at 0x1000 and 0x1100 with pointers to `ab`, to `c` and to `d=e`, which stand one
behind the other from 0x2000 on. -/
def twoArguments : Bytes := fun a =>
  if a = 0x1001 ∨ a = 0x1005 ∨ a = 0x1101 then 0x20#8
  else if a = 0x1004 then 3#8
  else if a = 0x1100 then 5#8
  else if a < 0x2000 then 0#8
  else [0x61#8, 0x62#8, 0#8, 0x63#8, 0#8, 0x64#8, 0x3D#8, 0x65#8, 0#8].getD (a - 0x2000) 0#8

theorem strings_twoArguments : Strings twoArguments 0x1000 [[0x61#8, 0x62#8], [0x63#8]] where
  vector := ⟨[0x2000, 0x2003],
    ⟨⟨by decide, by decide⟩, ⟨by decide, by decide⟩,
      show load32 twoArguments 0x1008 = 0 by decide⟩,
    .cons ⟨⟨by decide, by decide⟩, ⟨by decide, by decide⟩,
      show twoArguments 0x2002 = 0#8 by decide⟩
      (.cons ⟨⟨by decide, by decide⟩, show twoArguments 0x2004 = 0#8 by decide⟩ .nil)⟩
  few := by decide
  short := by decide

theorem strings_environment : Strings twoArguments 0x1100 [[0x64#8, 0x3D#8, 0x65#8]] where
  vector := ⟨[0x2005],
    ⟨⟨by decide, by decide⟩, show load32 twoArguments 0x1104 = 0 by decide⟩,
    .cons ⟨⟨by decide, by decide⟩, ⟨by decide, by decide⟩, ⟨by decide, by decide⟩,
      show twoArguments 0x2008 = 0#8 by decide⟩ .nil⟩
  few := by decide
  short := by decide

theorem decodes_twoArguments : ∃ b,
    execSetUpStack noRegions twoArguments pageHeap 0x1000 0x1100 = .ok b ∧
      Decodes (placed (fun _ => 0#8) b) (kernelVirtBase - b.stackGap) kernelVirtBase
        [[0x61#8, 0x62#8], [0x63#8]] [[0x64#8, 0x3D#8, 0x65#8]] := by
  obtain ⟨⟨block, h'⟩, halloc, hblock⟩ := exists_of_map_decide
    (x := pageHeap.kvmalloc noRegions 41) (P := fun r => r.1 = 0xC0400FD7) (by decide)
  obtain rfl : block = 0xC0400FD7 := hblock
  exact decodes_of_execSetUpStack (fun _ => 0#8) strings_twoArguments strings_environment
    (by decide) halloc (by decide) (by decide)

/-- A vector at 0x1000 with a pointer to the string at 0x2000, and an empty one at
0x1100. -/
def oneArgument : Bytes := fun a =>
  if a = 0x1001 then 0x20#8 else if a = 0x2000 then 0x61#8 else 0#8

theorem strings_oneArgument : Strings oneArgument 0x1000 [[0x61#8]] where
  vector := ⟨[0x2000],
    ⟨⟨by decide, by decide⟩, show load32 oneArgument 0x1004 = 0 by decide⟩,
    .cons ⟨⟨by decide, by decide⟩, show oneArgument 0x2001 = 0#8 by decide⟩ .nil⟩
  few := by decide
  short := by decide

theorem strings_noArgument : Strings oneArgument 0x1100 [] :=
  ⟨⟨[], show load32 oneArgument 0x1100 = 0 by decide, .nil⟩, by decide, nofun⟩

theorem kvmalloc_pageHeap : ∃ h', pageHeap.kvmalloc noRegions 26 = .ok (0xC0400FE6, h') := by
  obtain ⟨⟨block, h'⟩, halloc, hblock⟩ := exists_of_map_decide
    (x := pageHeap.kvmalloc noRegions 26) (P := fun r => r.1 = 0xC0400FE6) (by decide)
  obtain rfl : block = 0xC0400FE6 := hblock
  exact ⟨h', halloc⟩

theorem inside_iff_no_block_oneArgument :
    ¬∀ b, execSetUpStack noRegions oneArgument pageHeap 0x1000 0x1100 = .ok b → b.Inside := by
  obtain ⟨h', halloc⟩ := kvmalloc_pageHeap
  intro hinside
  refine (inside_iff_no_block strings_oneArgument strings_noArgument ?_).mp hinside _ h' halloc
  intro block h'' halloc'
  obtain ⟨rfl, _⟩ := Prod.mk.inj (Except.ok.inj (halloc.symm.trans halloc'))
  decide

/-- The count of the arguments is written over the header of the block. -/
theorem not_inside_oneArgument : ∃ b,
    execSetUpStack noRegions oneArgument pageHeap 0x1000 0x1100 = .ok b ∧
      b.block = 0xC0400FE6 ∧ b.block - 12 ∈ b.written ∧ ¬b.Inside := by
  obtain ⟨b, hb, hblock, hwritten⟩ := exists_of_map_decide
    (x := execSetUpStack noRegions oneArgument pageHeap 0x1000 0x1100)
    (P := fun b => b.block = 0xC0400FE6 ∧ b.block - 12 ∈ b.written) (by decide +kernel)
  refine ⟨b, hb, hblock, hwritten, fun hinside => ?_⟩
  have hfirst := (hinside.writes _ hwritten).1
  omega

end Yak.ExecStack
