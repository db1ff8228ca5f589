import Yak.Bitmap

/-!
# Words in byte memory

Memory is a sequence of bytes, and a word of 32 bits is kept in four of them, the
lowest byte first.  The second part is about spans of addresses and families of
spans of which no two meet.
-/

namespace WordMemory

open ByteBitmap (Bytes)

def load32 (mem : Bytes) (a : ℕ) : ℕ :=
  (mem a).toNat + 2 ^ 8 * (mem (a + 1)).toNat + 2 ^ 16 * (mem (a + 2)).toNat +
    2 ^ 24 * (mem (a + 3)).toNat

def store32 (mem : Bytes) (a v : ℕ) : Bytes := fun x =>
  if x = a then BitVec.ofNat 8 v
  else if x = a + 1 then BitVec.ofNat 8 (v / 2 ^ 8)
  else if x = a + 2 then BitVec.ofNat 8 (v / 2 ^ 16)
  else if x = a + 3 then BitVec.ofNat 8 (v / 2 ^ 24)
  else mem x

/-- The difference of two unsigned integers. -/
def sub32 (a b : ℕ) : ℕ := if b ≤ a then a - b else 2 ^ 32 + a - b

variable {mem mem' : Bytes} {a b v : ℕ}

theorem sub32_of_le (h : b ≤ a) : sub32 a b = a - b := if_pos h

theorem load32_lt (mem : Bytes) (a : ℕ) : load32 mem a < 2 ^ 32 := by
  have h0 := (mem a).isLt
  have h1 := (mem (a + 1)).isLt
  have h2 := (mem (a + 2)).isLt
  have h3 := (mem (a + 3)).isLt
  unfold load32
  omega

theorem store32_apply {x : ℕ} (h : x < a ∨ a + 4 ≤ x) : store32 mem a v x = mem x := by
  unfold store32
  rw [if_neg (by omega), if_neg (by omega), if_neg (by omega), if_neg (by omega)]

theorem load32_congr (h : ∀ x, a ≤ x → x < a + 4 → mem' x = mem x) :
    load32 mem' a = load32 mem a := by
  unfold load32
  rw [h a (by omega) (by omega), h (a + 1) (by omega) (by omega), h (a + 2) (by omega) (by omega),
    h (a + 3) (by omega) (by omega)]

theorem load32_store32 (hv : v < 2 ^ 32) : load32 (store32 mem a v) a = v := by
  unfold load32 store32
  rw [if_pos rfl, if_neg (by omega), if_pos rfl, if_neg (by omega), if_neg (by omega), if_pos rfl,
    if_neg (by omega), if_neg (by omega), if_neg (by omega), if_pos rfl, BitVec.toNat_ofNat,
    BitVec.toNat_ofNat, BitVec.toNat_ofNat, BitVec.toNat_ofNat]
  omega

theorem load32_store32_of_ne (h : a + 4 ≤ b ∨ b + 4 ≤ a) :
    load32 (store32 mem a v) b = load32 mem b := by
  apply load32_congr
  intro x _ _
  apply store32_apply
  omega

/-! ## Half words and runs of bytes -/

def load16 (mem : Bytes) (a : ℕ) : ℕ := (mem a).toNat + 2 ^ 8 * (mem (a + 1)).toNat

def store16 (mem : Bytes) (a v : ℕ) : Bytes := fun x =>
  if x = a then BitVec.ofNat 8 v
  else if x = a + 1 then BitVec.ofNat 8 (v / 2 ^ 8)
  else mem x

/-- Bytes are copied to an address. -/
def storeBytes (mem : Bytes) (a : ℕ) (bs : List (BitVec 8)) : Bytes := fun x =>
  if a ≤ x ∧ x < a + bs.length then bs.getD (x - a) 0#8 else mem x

theorem load16_lt (mem : Bytes) (a : ℕ) : load16 mem a < 2 ^ 16 := by
  have h0 := (mem a).isLt
  have h1 := (mem (a + 1)).isLt
  unfold load16
  omega

theorem store16_apply {x : ℕ} (h : x < a ∨ a + 2 ≤ x) : store16 mem a v x = mem x := by
  unfold store16
  rw [if_neg (by omega), if_neg (by omega)]

theorem load16_congr (h : ∀ x, a ≤ x → x < a + 2 → mem' x = mem x) :
    load16 mem' a = load16 mem a := by
  unfold load16
  rw [h a (by omega) (by omega), h (a + 1) (by omega) (by omega)]

/-- A half word keeps the low 16 bits. -/
theorem load16_store16 : load16 (store16 mem a v) a = v % 2 ^ 16 := by
  unfold load16 store16
  rw [if_pos rfl, if_neg (by omega), if_pos rfl, BitVec.toNat_ofNat, BitVec.toNat_ofNat]
  omega

theorem storeBytes_apply {x : ℕ} {bs : List (BitVec 8)} (h : x < a ∨ a + bs.length ≤ x) :
    storeBytes mem a bs x = mem x := if_neg (by omega)

theorem storeBytes_getElem {bs : List (BitVec 8)} {i : ℕ} (hi : i < bs.length) :
    storeBytes mem a bs (a + i) = bs[i] := by
  unfold storeBytes
  rw [if_pos (by omega), Nat.add_sub_cancel_left, List.getD_eq_getElem?_getD,
    List.getElem?_eq_getElem hi, Option.getD_some]

/-! ## Spans -/

/-- The addresses from the first on and below the second. -/
abbrev Span := ℕ × ℕ

/-- The spans have no address in common. -/
def Span.Apart (s t : Span) : Prop := s.2 ≤ t.1 ∨ t.2 ≤ s.1

theorem Span.Apart.symm {s t : Span} (h : s.Apart t) : t.Apart s := Or.symm h

instance (s t : Span) : Decidable (s.Apart t) := inferInstanceAs (Decidable (_ ∨ _))

/-- No two of the spans meet. -/
def AllApart (spans : List Span) : Prop := spans.Pairwise Span.Apart

variable {spans spans' : List Span} {lo mid hi : ℕ}

theorem AllApart.perm (h : AllApart spans) (hp : spans.Perm spans') : AllApart spans' :=
  (hp.pairwise_iff Span.Apart.symm).mp h

theorem AllApart.cons {s : Span} (h : AllApart spans) (hs : ∀ t ∈ spans, s.Apart t) :
    AllApart (s :: spans) := List.Pairwise.cons hs h

theorem AllApart.split (h : AllApart ((lo, hi) :: spans)) (hlo : lo ≤ mid) (hhi : mid ≤ hi) :
    AllApart ((lo, mid) :: (mid, hi) :: spans) := by
  obtain ⟨hhead, htail⟩ := List.pairwise_cons.mp h
  refine (htail.cons ?_).cons ?_
  · intro t ht
    have := hhead t ht
    unfold Span.Apart at *
    omega
  · intro t ht
    rcases List.mem_cons.mp ht with rfl | ht
    · exact Or.inl le_rfl
    · have := hhead t ht
      unfold Span.Apart at *
      omega

theorem AllApart.join (h : AllApart ((lo, mid) :: (mid, hi) :: spans))
    (hspans : ∀ t ∈ spans, t.1 < t.2) : AllApart ((lo, hi) :: spans) := by
  obtain ⟨hfirst, htail⟩ := List.pairwise_cons.mp h
  obtain ⟨hsecond, hrest⟩ := List.pairwise_cons.mp htail
  refine hrest.cons ?_
  intro t ht
  have h1 := hfirst t (List.mem_cons_of_mem _ ht)
  have h2 := hsecond t ht
  have h3 := hspans t ht
  unfold Span.Apart at *
  omega

end WordMemory
