import Mathlib

/-!
# Words in a 32-bit address space

Addresses wrap around, and a word is four bytes with the lowest first.  `Words`
says which words stand one after the other from an address on: on a machine
whose stack grows down it describes the stack from its top.
-/

namespace Machine32

abbrev Word := BitVec 32

abbrev Memory := Word → BitVec 8

/-- The `n` bytes from `a` on. -/
def block (a : Word) (n : ℕ) : Set Word := {x | (x - a).toNat < n}

def load (m : Memory) (a : Word) : Word := m (a + 3#32) ++ m (a + 2#32) ++ m (a + 1#32) ++ m a

def store (m : Memory) (a v : Word) : Memory := fun x =>
  if x = a then v.extractLsb' 0 8
  else if x = a + 1#32 then v.extractLsb' 8 8
  else if x = a + 2#32 then v.extractLsb' 16 8
  else if x = a + 3#32 then v.extractLsb' 24 8
  else m x

variable {m m' : Memory} {a b v w x : Word} {ws : List Word} {n k : ℕ}

/-! ## Blocks -/

theorem mem_block : x ∈ block a n ↔ (x - a).toNat < n := Iff.rfl

theorem block_subset {d : Word} (h : d.toNat + k ≤ n) : block (a + d) k ⊆ block a n := by
  intro x hx
  rw [mem_block] at hx ⊢
  have hsplit : x - a = x - (a + d) + d := by bv_omega
  rw [hsplit, BitVec.toNat_add]
  have hle := Nat.mod_le ((x - (a + d)).toNat + d.toNat) (2 ^ 32)
  omega

theorem block_mono (h : k ≤ n) : block a k ⊆ block a n :=
  fun _ hx => lt_of_lt_of_le hx h

theorem block_below {j : ℕ} (hjk : j ≤ k) (hkn : k ≤ n) :
    block (a - BitVec.ofNat 32 k) j ⊆ block (a - BitVec.ofNat 32 n) n := by
  have hsub : BitVec.ofNat 32 (n - k) + BitVec.ofNat 32 k = BitVec.ofNat 32 n := by
    rw [← BitVec.ofNat_add, Nat.sub_add_cancel hkn]
  have hsplit : a - BitVec.ofNat 32 k = a - BitVec.ofNat 32 n + BitVec.ofNat 32 (n - k) := by
    rw [← hsub]
    bv_omega
  rw [hsplit]
  apply block_subset
  have hle := Nat.mod_le (n - k) (2 ^ 32)
  rw [BitVec.toNat_ofNat]
  omega

/-- Two parts of the address space which follow each other without going around. -/
theorem block_disjoint {c d : Word} (hle : c.toNat + k ≤ d.toNat) (hfit : d.toNat + n ≤ 2 ^ 32) :
    Disjoint (block (a + c) k) (block (a + d) n) := by
  rw [Set.disjoint_left]
  intro x hc hd
  rw [mem_block] at hc hd
  have hsplit : x - (a + c) = x - (a + d) + (d - c) := by bv_omega
  have hdc : (d - c).toNat = d.toNat - c.toNat := BitVec.toNat_sub_of_le (by
    rw [BitVec.le_def]
    omega)
  have hsmall : (x - (a + d)).toNat + (d.toNat - c.toNat) < 2 ^ 32 := by omega
  rw [hsplit, BitVec.toNat_add, hdc, Nat.mod_eq_of_lt hsmall] at hc
  omega

theorem offset_sub (a c d : Word) : a + c - d = a + (c - d) := by bv_omega

/-! ## One word -/

theorem add_mem_block {d : Word} (hd : d.toNat < n) : a + d ∈ block a n := by
  have hsub : a + d - a = d := by bv_omega
  rw [mem_block, hsub]
  exact hd

theorem self_mem_block (hn : 0 < n) : a ∈ block a n := by
  have hsub : a - a = 0#32 := by bv_omega
  rw [mem_block, hsub]
  exact hn

theorem store_of_notMem (h : x ∉ block a 4) : store m a v x = m x := by
  have hne : ∀ d : Word, d.toNat < 4 → x ≠ a + d := by
    rintro d hd rfl
    exact h (add_mem_block hd)
  have hself : x ≠ a := by
    rintro rfl
    exact h (self_mem_block (by decide))
  simp only [store, hself, hne 1#32 (by decide), hne 2#32 (by decide), hne 3#32 (by decide),
    if_false]

theorem load_congr (h : ∀ x ∈ block a 4, m' x = m x) : load m' a = load m a := by
  have hbyte : ∀ d : Word, d.toNat < 4 → m' (a + d) = m (a + d) :=
    fun d hd => h _ (add_mem_block hd)
  simp only [load, h a (self_mem_block (by decide)), hbyte 1#32 (by decide),
    hbyte 2#32 (by decide), hbyte 3#32 (by decide)]

theorem extract_append (v : Word) : v.extractLsb' 24 8 ++ v.extractLsb' 16 8 ++
    v.extractLsb' 8 8 ++ v.extractLsb' 0 8 = v := by
  rw [BitVec.extractLsb'_append_extractLsb'_eq_extractLsb' (by rfl),
    BitVec.extractLsb'_append_extractLsb'_eq_extractLsb' (by rfl),
    BitVec.extractLsb'_append_extractLsb'_eq_extractLsb' (by rfl)]
  simp

@[simp] theorem load_store : load (store m a v) a = v := by
  have h1 : a + 1#32 ≠ a := by bv_omega
  have h2 : a + 2#32 ≠ a ∧ a + 2#32 ≠ a + 1#32 := by constructor <;> bv_omega
  have h3 : a + 3#32 ≠ a ∧ a + 3#32 ≠ a + 1#32 ∧ a + 3#32 ≠ a + 2#32 := by
    refine ⟨?_, ?_, ?_⟩ <;> bv_omega
  simp only [load, store, h1, h2, h3, if_true, if_false]
  exact extract_append v

theorem load_store_of_disjoint (h : Disjoint (block a 4) (block b 4)) :
    load (store m b v) a = load m a :=
  load_congr fun _ hx => store_of_notMem (Set.disjoint_left.mp h hx)

theorem ofNat_four_mul_succ (n : ℕ) :
    BitVec.ofNat 32 (4 * (n + 1)) = BitVec.ofNat 32 (4 * n) + 4#32 := by
  rw [← BitVec.ofNat_add]
  congr 1

/-! ## Words one after the other -/

def Words (m : Memory) : Word → List Word → Prop
  | _, [] => True
  | a, w :: ws => load m a = w ∧ Words m (a + 4#32) ws

def decidableWords (m : Memory) : (a : Word) → (ws : List Word) → Decidable (Words m a ws)
  | _, [] => .isTrue trivial
  | a, w :: ws =>
      have := decidableWords m (a + 4#32) ws
      inferInstanceAs (Decidable (load m a = w ∧ Words m (a + 4#32) ws))

instance : Decidable (Words m a ws) := decidableWords m a ws

/-- The words are stored from an address on. -/
def putWords (m : Memory) : Word → List Word → Memory
  | _, [] => m
  | a, w :: ws => putWords (store m a w) (a + 4#32) ws

@[simp] theorem words_nil : Words m a [] := trivial

@[simp] theorem words_cons : Words m a (w :: ws) ↔ load m a = w ∧ Words m (a + 4#32) ws := Iff.rfl

theorem Words.congr (hm : ∀ x ∈ block a (4 * ws.length), m' x = m x) (h : Words m a ws) :
    Words m' a ws := by
  induction ws generalizing a with
  | nil => trivial
  | cons w ws ih =>
      constructor
      · rw [load_congr fun x hx => hm x (block_mono (by simp) hx)]
        exact h.1
      · apply ih _ h.2
        intro x hx
        apply hm x
        apply block_subset _ hx
        simp only [BitVec.toNat_ofNat, List.length_cons]
        omega

theorem Words.store (h : Words m a ws) (hdis : Disjoint (block a (4 * ws.length)) (block b 4)) :
    Words (store m b v) a ws :=
  h.congr fun _ hx => store_of_notMem (Set.disjoint_left.mp hdis hx)

theorem Words.push (h : Words m a ws) (hfit : 4 * ws.length + 4 ≤ 2 ^ 32) :
    Words (Machine32.store m (a - 4#32) v) (a - 4#32) (v :: ws) := by
  have hback : a - 4#32 + 4#32 = a := by bv_omega
  constructor
  · exact load_store
  · rw [hback]
    apply h.store
    have hdis := block_disjoint (a := a - 4#32) (c := 0#32) (d := 4#32) (k := 4)
      (n := 4 * ws.length) (by decide) (by simp only [BitVec.toNat_ofNat]; omega)
    rw [hback, BitVec.add_zero] at hdis
    exact hdis.symm

theorem Words.set (h : Words m a ws) (hfit : 4 * ws.length ≤ 2 ^ 32) {i : ℕ}
    (hi : i < ws.length) :
    Words (Machine32.store m (a + BitVec.ofNat 32 (4 * i)) v) a (ws.set i v) := by
  induction ws generalizing a i with
  | nil => simp at hi
  | cons w ws ih =>
      rw [List.length_cons] at hfit hi
      cases i with
      | zero =>
          have hself : a + BitVec.ofNat 32 (4 * 0) = a := by simp
          have hdis := block_disjoint (a := a) (c := 0#32) (d := 4#32) (k := 4)
            (n := 4 * ws.length) (by decide) (by simp only [BitVec.toNat_ofNat]; omega)
          rw [BitVec.add_zero] at hdis
          rw [hself]
          exact ⟨load_store, h.2.store hdis.symm⟩
      | succ i =>
          have hnext : a + BitVec.ofNat 32 (4 * (i + 1)) =
              a + 4#32 + BitVec.ofNat 32 (4 * i) := by
            rw [ofNat_four_mul_succ]
            bv_omega
          have hdis := block_disjoint (a := a) (c := 0#32) (d := BitVec.ofNat 32 (4 * (i + 1)))
            (k := 4) (n := 4) (by simp only [BitVec.toNat_ofNat]; omega)
            (by simp only [BitVec.toNat_ofNat]; omega)
          rw [BitVec.add_zero] at hdis
          constructor
          · rw [load_store_of_disjoint hdis]
            exact h.1
          · rw [hnext]
            exact ih h.2 (by omega) (by omega)

theorem words_append {vs : List Word} : Words m a (ws ++ vs) ↔
    Words m a ws ∧ Words m (a + BitVec.ofNat 32 (4 * ws.length)) vs := by
  induction ws generalizing a with
  | nil => simp
  | cons w ws ih =>
      have haddr : a + 4#32 + BitVec.ofNat 32 (4 * ws.length) =
          a + BitVec.ofNat 32 (4 * (w :: ws).length) := by
        rw [List.length_cons, ofNat_four_mul_succ]
        bv_omega
      rw [List.cons_append, words_cons, words_cons, ih, haddr, and_assoc]

/-! ## Copies -/

def memmove (m : Memory) (dst src : Word) (n : ℕ) : Memory := fun x =>
  if (x - dst).toNat < n then m (src + (x - dst)) else m x

theorem load_memmove {dst src d : Word} (hd : d.toNat + 4 ≤ n) :
    load (memmove m dst src n) (dst + d) = load m (src + d) := by
  have hbyte : ∀ i : Word, i.toNat < 4 →
      memmove m dst src n (dst + d + i) = m (src + d + i) := by
    intro i hi
    have hoff : dst + d + i - dst = d + i := by bv_omega
    have hin : (d + i).toNat < n := by
      have hle := Nat.mod_le (d.toNat + i.toNat) (2 ^ 32)
      rw [BitVec.toNat_add]
      omega
    simp only [memmove, hoff, hin, if_true]
    rw [BitVec.add_assoc]
  have hzero := hbyte 0#32 (by decide)
  simp only [BitVec.add_zero] at hzero
  simp only [load, hzero, hbyte 1#32 (by decide), hbyte 2#32 (by decide), hbyte 3#32 (by decide)]

theorem words_memmove (dst : Word) {src d : Word} (h : Words m (src + d) ws)
    (hn : n ≤ 2 ^ 32) (hd : d.toNat + 4 * ws.length ≤ n) :
    Words (memmove m dst src n) (dst + d) ws := by
  induction ws generalizing d with
  | nil => trivial
  | cons w ws ih =>
      rw [List.length_cons] at hd
      constructor
      · rw [load_memmove (by omega)]
        exact h.1
      · rw [BitVec.add_assoc]
        cases ws with
        | nil => trivial
        | cons w' ws =>
            rw [List.length_cons] at hd
            apply ih
            · rw [← BitVec.add_assoc]
              exact h.2
            · have hnext : (d + 4#32).toNat = d.toNat + 4 := by
                rw [BitVec.toNat_add_of_lt]
                · rfl
                · simp only [BitVec.toNat_ofNat]
                  omega
              rw [hnext, List.length_cons]
              omega

end Machine32
