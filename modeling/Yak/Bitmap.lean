import Mathlib.Algebra.BigOperators.Group.Finset.Basic
import Mathlib.Algebra.Order.BigOperators.Group.Finset
import Mathlib.Data.Finset.Card
import Mathlib.Tactic

/-!
# Bitmaps kept in bytes

A bitmap is a sequence of bytes, and bit `k` is bit `k % 8` of byte `k / 8`.
The module has the tests and edits of single bits, the search for the first
clear bit, and the number of clear bits in an initial part.  The last section is
about families of bitmaps, each with a counter of its clear bits, and a counter
of the total.
-/

namespace ByteBitmap

/-- The bytes of a bitmap, or of any other piece of memory. -/
abbrev Bytes := ℕ → BitVec 8

def getBit (b : Bytes) (k : ℕ) : Bool := (b (k / 8)).getLsbD (k % 8)

def setBit (b : Bytes) (k : ℕ) : Bytes :=
  Function.update b (k / 8) (b (k / 8) ||| 1#8 <<< (k % 8))

def clearBit (b : Bytes) (k : ℕ) : Bytes :=
  Function.update b (k / 8) (b (k / 8) &&& ~~~(1#8 <<< (k % 8)))

variable {b : Bytes} {j k n : ℕ}

theorem getLsbD_one_shiftLeft {i j : ℕ} (hi : i < 8) (hj : j < 8) :
    (1#8 <<< i).getLsbD j = decide (j = i) := by
  interval_cases i <;> interval_cases j <;> rfl

theorem getBit_setBit (b : Bytes) (j k : ℕ) :
    getBit (setBit b k) j = (decide (j = k) || getBit b j) := by
  unfold getBit setBit
  have hj : j % 8 < 8 := Nat.mod_lt _ (by omega)
  have hk : k % 8 < 8 := Nat.mod_lt _ (by omega)
  by_cases hdiv : j / 8 = k / 8
  · rw [hdiv, Function.update_self, BitVec.getLsbD_or, getLsbD_one_shiftLeft hk hj, Bool.or_comm]
    have hiff : j % 8 = k % 8 ↔ j = k := by omega
    simp only [hiff]
  · have hne : j ≠ k := fun heq => hdiv (by rw [heq])
    rw [Function.update_of_ne hdiv]
    simp [hne]

theorem getBit_clearBit (b : Bytes) (j k : ℕ) :
    getBit (clearBit b k) j = (decide (j ≠ k) && getBit b j) := by
  unfold getBit clearBit
  have hj : j % 8 < 8 := Nat.mod_lt _ (by omega)
  have hk : k % 8 < 8 := Nat.mod_lt _ (by omega)
  by_cases hdiv : j / 8 = k / 8
  · rw [hdiv, Function.update_self, BitVec.getLsbD_and, BitVec.getLsbD_not,
      getLsbD_one_shiftLeft hk hj, Bool.and_comm]
    have hiff : j % 8 = k % 8 ↔ j = k := by omega
    simp [hiff, hj]
  · have hne : j ≠ k := fun heq => hdiv (by rw [heq])
    rw [Function.update_of_ne hdiv]
    simp [hne]

/-! ## Searching -/

/-- The first clear bit at `k` or behind it, among the next `fuel` bits. -/
def scan (b : Bytes) : ℕ → ℕ → Option ℕ
  | 0, _ => none
  | fuel + 1, k => if getBit b k then scan b fuel (k + 1) else some k

theorem scan_eq_some {fuel : ℕ} (h : scan b fuel k = some j) :
    getBit b j = false ∧ k ≤ j ∧ j < k + fuel ∧ ∀ i, k ≤ i → i < j → getBit b i = true := by
  induction fuel generalizing k with
  | zero => simp [scan] at h
  | succ fuel ih =>
      rw [scan] at h
      split at h
      next hset =>
        obtain ⟨hclear, hle, hlt, hall⟩ := ih h
        refine ⟨hclear, by omega, by omega, ?_⟩
        intro i hki hij
        rcases Nat.eq_or_lt_of_le hki with rfl | hlt'
        · exact hset
        · exact hall i hlt' hij
      next hset =>
        obtain rfl := Option.some.inj h
        refine ⟨by simpa using hset, le_rfl, by omega, ?_⟩
        intro i hki hij
        omega

/-- A clear bit is found, or an earlier one. -/
theorem scan_of_clear {fuel : ℕ} (hk : k ≤ j) (hj : j < k + fuel) (hclear : getBit b j = false) :
    ∃ i, scan b fuel k = some i ∧ i ≤ j := by
  induction fuel generalizing k with
  | zero => omega
  | succ fuel ih =>
      rw [scan]
      cases hbit : getBit b k with
      | false => exact ⟨k, rfl, hk⟩
      | true =>
          have hne : k ≠ j := by
            rintro rfl
            rw [hbit] at hclear
            cases hclear
          exact ih (by omega) (by omega)

/-! ## Counting -/

/-- The clear bits among the first `n`. -/
def clearBits (b : Bytes) (n : ℕ) : Finset ℕ := {k ∈ Finset.range n | getBit b k = false}

def clearCount (b : Bytes) (n : ℕ) : ℕ := (clearBits b n).card

theorem mem_clearBits : k ∈ clearBits b n ↔ k < n ∧ getBit b k = false := by
  simp [clearBits]

theorem exists_clear (h : clearCount b n ≠ 0) : ∃ k, k < n ∧ getBit b k = false := by
  obtain ⟨k, hk⟩ := Finset.card_ne_zero.mp h
  exact ⟨k, mem_clearBits.mp hk⟩

theorem clearCount_setBit (hk : k < n) (hclear : getBit b k = false) :
    clearCount (setBit b k) n + 1 = clearCount b n := by
  have hset : clearBits (setBit b k) n = (clearBits b n).erase k := by
    ext j
    rw [Finset.mem_erase, mem_clearBits, mem_clearBits, getBit_setBit]
    simp only [Bool.or_eq_false_iff, decide_eq_false_iff_not]
    tauto
  unfold clearCount
  rw [hset]
  exact Finset.card_erase_add_one (mem_clearBits.mpr ⟨hk, hclear⟩)

theorem clearCount_clearBit (hk : k < n) (hset : getBit b k = true) :
    clearCount (clearBit b k) n = clearCount b n + 1 := by
  have hnot : k ∉ clearBits b n := by
    rw [mem_clearBits, hset]
    simp
  have hinsert : clearBits (clearBit b k) n = insert k (clearBits b n) := by
    ext j
    rw [Finset.mem_insert, mem_clearBits, mem_clearBits, getBit_clearBit]
    by_cases hjk : j = k
    · simp [hjk, hk]
    · simp [hjk]
  unfold clearCount
  rw [hinsert, Finset.card_insert_of_notMem hnot]

theorem clearCount_le (b : Bytes) (n : ℕ) : clearCount b n ≤ n := by
  have hle := Finset.card_filter_le (Finset.range n) fun k => getBit b k = false
  rw [Finset.card_range] at hle
  exact hle

theorem clearCount_lt (hk : k < n) (hset : getBit b k = true) : clearCount b n < n := by
  have hsucc := clearCount_clearBit hk hset
  have hle := clearCount_le (clearBit b k) n
  omega

/-! ## Families of bitmaps -/

/-- Each of the first `nr` bitmaps has its number of clear bits in its counter,
and the total is their sum. -/
structure Tallied (nr : ℕ) (size : ℕ → ℕ) (maps : ℕ → Bytes) (counts : ℕ → ℕ) (total : ℕ) :
    Prop where
  count : ∀ g < nr, counts g = clearCount (maps g) (size g)
  total : total = ∑ g ∈ Finset.range nr, counts g

variable {nr g : ℕ} {size : ℕ → ℕ} {maps maps' : ℕ → Bytes} {counts counts' : ℕ → ℕ}
  {total total' : ℕ}

theorem Tallied.congr (h : Tallied nr size maps counts total)
    (hmaps : ∀ g < nr, maps' g = maps g) (hcounts : ∀ g < nr, counts' g = counts g) :
    Tallied nr size maps' counts' total where
  count g hg := by
    rw [hmaps g hg, hcounts g hg]
    exact h.count g hg
  total := by
    rw [h.total]
    apply Finset.sum_congr rfl
    intro g hg
    exact (hcounts g (Finset.mem_range.mp hg)).symm

theorem Tallied.count_le (h : Tallied nr size maps counts total) (hg : g < nr) :
    counts g ≤ total := by
  rw [h.total]
  exact Finset.single_le_sum (fun _ _ => Nat.zero_le _) (Finset.mem_range.mpr hg)

/-- A total which is not zero has a bitmap with a clear bit. -/
theorem Tallied.exists_count (h : Tallied nr size maps counts total) (htotal : total ≠ 0) :
    ∃ g < nr, counts g ≠ 0 := by
  rw [h.total] at htotal
  obtain ⟨g, hg, hne⟩ := Finset.exists_ne_zero_of_sum_ne_zero htotal
  exact ⟨g, Finset.mem_range.mp hg, hne⟩

/-- One bitmap and its counter change, and the total moves with the counter. -/
theorem Tallied.change (h : Tallied nr size maps counts total) (hg : g < nr)
    (hmaps : ∀ g' < nr, g' ≠ g → maps' g' = maps g')
    (hcounts : ∀ g' < nr, g' ≠ g → counts' g' = counts g')
    (hcount : counts' g = clearCount (maps' g) (size g))
    (htotal : total' + counts g = total + counts' g) :
    Tallied nr size maps' counts' total' where
  count g' hg' := by
    by_cases hgg : g' = g
    · rw [hgg]
      exact hcount
    · rw [hmaps g' hg' hgg, hcounts g' hg' hgg]
      exact h.count g' hg'
  total := by
    have hmem : g ∈ Finset.range nr := Finset.mem_range.mpr hg
    have hold := h.total
    rw [← Finset.add_sum_erase _ _ hmem] at hold
    rw [← Finset.add_sum_erase _ _ hmem]
    have hrest : ∑ g' ∈ (Finset.range nr).erase g, counts' g' =
        ∑ g' ∈ (Finset.range nr).erase g, counts g' := by
      apply Finset.sum_congr rfl
      intro g' hg'
      rw [Finset.mem_erase, Finset.mem_range] at hg'
      exact hcounts g' hg'.2 hg'.1
    omega

theorem Tallied.set (h : Tallied nr size maps counts total) (hg : g < nr) (hk : k < size g)
    (hclear : getBit (maps g) k = false)
    (hmap : maps' g = setBit (maps g) k) (hmaps : ∀ g' < nr, g' ≠ g → maps' g' = maps g')
    (hcount : counts' g + 1 = counts g) (hcounts : ∀ g' < nr, g' ≠ g → counts' g' = counts g')
    (htotal : total' + 1 = total) : Tallied nr size maps' counts' total' := by
  have hbits := clearCount_setBit hk hclear
  have hold := h.count g hg
  refine h.change hg hmaps hcounts ?_ ?_
  · rw [hmap]
    omega
  · omega

theorem Tallied.clear (h : Tallied nr size maps counts total) (hg : g < nr) (hk : k < size g)
    (hset : getBit (maps g) k = true)
    (hmap : maps' g = clearBit (maps g) k) (hmaps : ∀ g' < nr, g' ≠ g → maps' g' = maps g')
    (hcount : counts' g = counts g + 1) (hcounts : ∀ g' < nr, g' ≠ g → counts' g' = counts g')
    (htotal : total' = total + 1) : Tallied nr size maps' counts' total' := by
  have hbits := clearCount_clearBit hk hset
  have hold := h.count g hg
  refine h.change hg hmaps hcounts ?_ ?_
  · rw [hmap]
    omega
  · omega

/-- With a set bit somewhere, the total is below the number of all bits. -/
theorem Tallied.total_lt (h : Tallied nr size maps counts total) (hg : g < nr) (hk : k < size g)
    (hset : getBit (maps g) k = true) : total < ∑ g ∈ Finset.range nr, size g := by
  rw [h.total]
  apply Finset.sum_lt_sum
  · intro g' hg'
    rw [h.count g' (Finset.mem_range.mp hg')]
    exact clearCount_le _ _
  · refine ⟨g, Finset.mem_range.mpr hg, ?_⟩
    rw [h.count g hg]
    exact clearCount_lt hk hset

end ByteBitmap
