import Yak.WordMemory

/-!
# Records and strings in byte memory

The fields of a record lie at fixed addresses, and a store to one of them leaves the others.  A
string ends in front of its first zero byte.
-/

namespace WordMemory

open ByteBitmap (Bytes)

variable {mem : Bytes} {a b v x k n : ℕ} {s : List (BitVec 8)}

/-! ## Fields -/

theorem load32_store16_of_ne (h : a + 2 ≤ b ∨ b + 4 ≤ a) :
    load32 (store16 mem a v) b = load32 mem b := by
  apply load32_congr
  intro x _ _
  apply store16_apply
  omega

theorem load16_store32_of_ne (h : a + 4 ≤ b ∨ b + 2 ≤ a) :
    load16 (store32 mem a v) b = load16 mem b := by
  apply load16_congr
  intro x _ _
  apply store32_apply
  omega

theorem load16_store16_of_ne (h : a + 2 ≤ b ∨ b + 2 ≤ a) :
    load16 (store16 mem a v) b = load16 mem b := by
  apply load16_congr
  intro x _ _
  apply store16_apply
  omega

theorem load16_storeBytes_of_ne (h : a + s.length ≤ b ∨ b + 2 ≤ a) :
    load16 (storeBytes mem a s) b = load16 mem b := by
  apply load16_congr
  intro x _ _
  apply storeBytes_apply
  omega

/-- A byte of the word which is loaded. -/
theorem ofNat_load32 (hk : k < 4) : BitVec.ofNat 8 (load32 mem a / 2 ^ (8 * k)) = mem (a + k) := by
  have h0 := (mem a).isLt
  have h1 := (mem (a + 1)).isLt
  have h2 := (mem (a + 2)).isLt
  have h3 := (mem (a + 3)).isLt
  apply BitVec.eq_of_toNat_eq
  rw [BitVec.toNat_ofNat]
  unfold load32
  interval_cases k
  · rw [Nat.mul_zero, pow_zero, Nat.div_one, Nat.add_zero a]
    omega
  · omega
  · omega
  · omega

/-! ## Runs of zero bytes -/

def clearBytes (mem : Bytes) (a n : ℕ) : Bytes := fun x =>
  if a ≤ x ∧ x < a + n then 0#8 else mem x

theorem clearBytes_inside (hlo : a ≤ x) (hhi : x < a + n) : clearBytes mem a n x = 0#8 :=
  if_pos ⟨hlo, hhi⟩

theorem clearBytes_apply (h : x < a ∨ a + n ≤ x) : clearBytes mem a n x = mem x := if_neg (by omega)

theorem load16_clearBytes_of_ne (h : a + n ≤ b ∨ b + 2 ≤ a) :
    load16 (clearBytes mem a n) b = load16 mem b := by
  apply load16_congr
  intro x _ _
  apply clearBytes_apply
  omega

theorem load32_of_zero (h : ∀ x, a ≤ x → x < a + 4 → mem x = 0#8) : load32 mem a = 0 := by
  unfold load32
  rw [h a (by omega) (by omega), h (a + 1) (by omega) (by omega), h (a + 2) (by omega) (by omega),
    h (a + 3) (by omega) (by omega)]
  rfl

/-! ## Strings -/

/-- The bytes lie at the address. -/
def HoldsAt (mem : Bytes) (a : ℕ) (s : List (BitVec 8)) : Prop :=
  ∀ i (hi : i < s.length), mem (a + i) = s[i]

theorem holdsAt_nil : HoldsAt mem a [] := fun _ hi => (Nat.not_lt_zero _ hi).elim

theorem holdsAt_cons {c : BitVec 8} :
    HoldsAt mem a (c :: s) ↔ mem a = c ∧ HoldsAt mem (a + 1) s := by
  constructor
  · intro h
    refine ⟨h 0 (Nat.succ_pos _), ?_⟩
    intro i hi
    have hsum : a + 1 + i = a + (i + 1) := by omega
    rw [hsum]
    exact h (i + 1) (Nat.succ_lt_succ hi)
  · rintro ⟨hhead, htail⟩ i hi
    cases i with
    | zero => exact hhead
    | succ i =>
        have hsum : a + (i + 1) = a + 1 + i := by omega
        rw [hsum]
        exact htail i (Nat.lt_of_succ_lt_succ hi)

theorem holdsAt_storeBytes : HoldsAt (storeBytes mem a s) a s := fun _ hi => storeBytes_getElem hi

/-- A store of bytes which are there changes nothing. -/
theorem HoldsAt.storeBytes_eq (h : HoldsAt mem a s) : storeBytes mem a s = mem := by
  funext x
  by_cases hx : a ≤ x ∧ x < a + s.length
  · obtain ⟨i, rfl⟩ := Nat.exists_eq_add_of_le hx.1
    rw [storeBytes_getElem (by omega), h i (by omega)]
  · exact storeBytes_apply (by omega)

/-- The string at an address.  It ends within the next `n` bytes. -/
def stringAt (mem : Bytes) : (n a : ℕ) → Option (List (BitVec 8))
  | 0, _ => none
  | n + 1, a => if mem a = 0#8 then some [] else (stringAt mem n (a + 1)).map (mem a :: ·)

theorem stringAt_eq_some : stringAt mem n a = some s ↔
    0#8 ∉ s ∧ s.length < n ∧ HoldsAt mem a s ∧ mem (a + s.length) = 0#8 := by
  induction n generalizing a s with
  | zero => simp [stringAt]
  | succ n ih =>
      rw [stringAt]
      by_cases hend : mem a = 0#8
      · rw [if_pos hend]
        cases s with
        | nil => simp [holdsAt_nil, hend]
        | cons c s =>
            rw [holdsAt_cons, hend]
            constructor
            · intro h
              cases h
            · rintro ⟨hzero, -, ⟨rfl, -⟩, -⟩
              exact (hzero List.mem_cons_self).elim
      · rw [if_neg hend, Option.map_eq_some_iff]
        cases s with
        | nil => simp [hend]
        | cons c s =>
            have hsum : a + (c :: s).length = a + 1 + s.length := by
              rw [List.length_cons]
              omega
            rw [holdsAt_cons, hsum, List.mem_cons, not_or, List.length_cons, Nat.succ_lt_succ_iff]
            constructor
            · rintro ⟨s', hs', heq⟩
              obtain ⟨rfl, rfl⟩ := List.cons_eq_cons.mp heq
              obtain ⟨hzero, hlt, hholds, hlast⟩ := ih.mp hs'
              exact ⟨⟨fun h => hend h.symm, hzero⟩, hlt, ⟨rfl, hholds⟩, hlast⟩
            · rintro ⟨⟨-, hzero⟩, hlt, ⟨rfl, hholds⟩, hlast⟩
              exact ⟨s, ih.mpr ⟨hzero, hlt, hholds, hlast⟩, rfl⟩

end WordMemory
