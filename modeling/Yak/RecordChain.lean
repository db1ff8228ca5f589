import Mathlib.Data.List.Basic
import Mathlib.Tactic

/-!
# Chains of records

Records of different lengths, one behind the other without a gap.  A record is known by its
offset, and the length of the record at an offset is given by a function, so that two states
of a buffer are compared by comparing their functions on the records.
-/

namespace RecordChain

/-- The records from the first offset up to `stop`. -/
def Chain (len : ℕ → ℕ) (stop : ℕ) : ℕ → List ℕ → Prop
  | p, [] => p = stop
  | p, q :: qs => q = p ∧ 0 < len p ∧ p < stop ∧ Chain len stop (p + len p) qs

/-- The offsets which a walk from `p` on comes to. -/
def offsets (len : ℕ → ℕ) (stop : ℕ) : (fuel : ℕ) → ℕ → List ℕ
  | 0, _ => []
  | fuel + 1, p => if p < stop then p :: offsets len stop fuel (p + len p) else []

variable {len len' : ℕ → ℕ} {stop mid p q r fuel : ℕ} {ps qs : List ℕ}

instance decidableChain (len : ℕ → ℕ) (stop : ℕ) :
    (p : ℕ) → (ps : List ℕ) → Decidable (Chain len stop p ps)
  | p, [] => inferInstanceAs (Decidable (p = stop))
  | p, q :: qs =>
      have : Decidable (Chain len stop (p + len p) qs) := decidableChain len stop (p + len p) qs
      inferInstanceAs (Decidable (q = p ∧ 0 < len p ∧ p < stop ∧ Chain len stop (p + len p) qs))

theorem Chain.head (h : Chain len stop p (q :: qs)) : q = p := h.1

theorem Chain.pos (h : Chain len stop p (q :: qs)) : 0 < len q := by
  rw [h.1]
  exact h.2.1

theorem Chain.lt (h : Chain len stop p (q :: qs)) : p < stop := h.2.2.1

theorem Chain.tail (h : Chain len stop p (q :: qs)) : Chain len stop (q + len q) qs := by
  rw [h.1]
  exact h.2.2.2

theorem chain_cons (hlt : p < stop) (hpos : 0 < len p) (h : Chain len stop (p + len p) qs) :
    Chain len stop p (p :: qs) := ⟨rfl, hpos, hlt, h⟩

theorem Chain.le (h : Chain len stop p ps) : p ≤ stop := by
  cases ps with
  | nil => exact Nat.le_of_eq h
  | cons q qs => exact h.lt.le

theorem Chain.bounds (h : Chain len stop p ps) (hq : q ∈ ps) :
    p ≤ q ∧ 0 < len q ∧ q + len q ≤ stop := by
  induction ps generalizing p with
  | nil => cases hq
  | cons r rs ih =>
      obtain rfl := h.head
      have hle := h.tail.le
      rcases List.mem_cons.mp hq with rfl | hq
      · exact ⟨le_rfl, h.pos, hle⟩
      · obtain ⟨hfirst, hpos, hlast⟩ := ih h.tail hq
        exact ⟨by omega, hpos, hlast⟩

theorem Chain.congr (h : Chain len stop p ps) (hsame : ∀ q ∈ ps, len' q = len q) :
    Chain len' stop p ps := by
  induction ps generalizing p with
  | nil => exact h
  | cons q qs ih =>
      obtain rfl := h.head
      have hq := hsame q List.mem_cons_self
      apply chain_cons h.lt
      · rw [hq]
        exact h.pos
      · rw [hq]
        exact ih h.tail fun r hr => hsame r (List.mem_cons_of_mem q hr)

theorem Chain.append (h : Chain len mid p ps) (h' : Chain len stop mid qs) :
    Chain len stop p (ps ++ qs) := by
  induction ps generalizing p with
  | nil =>
      obtain rfl : p = mid := h
      exact h'
  | cons q ps ih =>
      obtain rfl := h.head
      exact chain_cons (h.lt.trans_le h'.le) h.pos (ih h.tail)

theorem Chain.split (h : Chain len stop p (ps ++ q :: qs)) :
    Chain len q p ps ∧ Chain len stop q (q :: qs) := by
  induction ps generalizing p with
  | nil =>
      obtain rfl := h.head
      exact ⟨rfl, h⟩
  | cons r ps ih =>
      obtain rfl := h.head
      obtain ⟨hfirst, hrest⟩ := ih h.tail
      refine ⟨chain_cons ?_ h.pos hfirst, hrest⟩
      have hpos := h.pos
      have hle := hfirst.le
      omega

theorem Chain.cancel (h : Chain len mid p ps) (h' : Chain len stop p qs) (hle : mid ≤ stop) :
    ∃ rs, qs = ps ++ rs ∧ Chain len stop mid rs := by
  induction ps generalizing p qs with
  | nil =>
      obtain rfl : p = mid := h
      exact ⟨qs, rfl, h'⟩
  | cons q ps ih =>
      obtain rfl := h.head
      cases qs with
      | nil =>
          obtain rfl : q = stop := h'
          exact absurd h.lt (Nat.not_lt.mpr hle)
      | cons r qs =>
          obtain rfl := h'.head
          obtain ⟨rs, rfl, hrs⟩ := ih h.tail h'.tail
          exact ⟨rs, rfl, hrs⟩

theorem chain_singleton (hpos : 0 < len p) (hstop : p + len p = stop) : Chain len stop p [p] :=
  chain_cons (by omega) hpos hstop

theorem Chain.eq_singleton (h : Chain len stop p [q]) : q = p ∧ p + len p = stop := by
  obtain rfl := h.head
  exact ⟨rfl, h.tail⟩

theorem Chain.before (h : Chain len stop p (ps ++ q :: qs)) (hr : r ∈ ps) :
    p ≤ r ∧ 0 < len r ∧ r + len r ≤ q := h.split.1.bounds hr

theorem Chain.length_le (h : Chain len stop p ps) : ps.length ≤ stop - p := by
  induction ps generalizing p with
  | nil => exact Nat.zero_le _
  | cons q qs ih =>
      obtain rfl := h.head
      have hlen := ih h.tail
      have hpos := h.pos
      have hlt := h.lt
      rw [List.length_cons]
      omega

theorem Chain.offsets_eq (h : Chain len stop p ps) (hfuel : ps.length ≤ fuel) :
    offsets len stop fuel p = ps := by
  induction ps generalizing p fuel with
  | nil =>
      obtain rfl : p = stop := h
      cases fuel with
      | zero => rfl
      | succ fuel => exact if_neg (lt_irrefl p)
  | cons q qs ih =>
      obtain rfl := h.head
      cases fuel with
      | zero => cases hfuel
      | succ fuel => rw [offsets, if_pos h.lt, ih h.tail (Nat.le_of_succ_le_succ hfuel)]

/-! ## Changing a chain -/

theorem Chain.cut_last (h : Chain len stop p (ps ++ [q])) (hsame : ∀ r ∈ ps, len' r = len r)
    (hfirst : 0 < len' q) (hsecond : 0 < len' (q + len' q))
    (hend : q + len' q + len' (q + len' q) = stop) :
    Chain len' stop p (ps ++ [q, q + len' q]) :=
  (h.split.1.congr hsame).append
    (chain_cons (by omega) hfirst (chain_singleton hsecond hend))

end RecordChain
