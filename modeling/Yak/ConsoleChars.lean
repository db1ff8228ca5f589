import Yak.ConsoleLines

/-!
# The characters of a line

`vc_insert_blanks` moves the cells of the cursor's row from the cursor on to the right, and
`vc_delete_chars` moves them to the left, by their count or up to the end of the row.  A count
which wraps around with the column is not cut off, and what `vc_delete_chars` blanks starts behind
the cells deleted, where the cells that became free are at the end of the row.
-/

namespace Yak.Console

open ByteBitmap (Bytes)
open WordMemory (sub32 sub32_of_le)

theorem place_mem_iff {width cy r c a b : ℕ} (hc : c < width) (hb : b ≤ width) :
    (cy * width + a ≤ r * width + c ∧ r * width + c < cy * width + b) ↔
      r = cy ∧ a ≤ c ∧ c < b := by
  constructor
  · rintro ⟨hle, hlt⟩
    have hrow : cy ≤ r := (le_place_iff hc cy).mp (by omega)
    have hrow' : r < cy + 1 := by
      rw [← place_lt_iff hc, Nat.succ_mul]
      omega
    have heq : r = cy := by omega
    subst heq
    exact ⟨rfl, by omega, by omega⟩
  · rintro ⟨rfl, hle, hlt⟩
    omega

namespace Vc

variable {vc vc' vc'' : Vc} {k n : ℕ}

/-- How far a count moves the cells of the cursor's row. -/
def shift (vc : Vc) (n : ℕ) : ℕ := min n (vc.width - vc.cx)

/-- The cells of the cursor's row from the cursor on have moved to the right. -/
structure CharsInserted (n : ℕ) (vc vc' : Vc) : Prop where
  redrawn : vc.Redrawn vc'
  moved : ∀ c, vc.cx ≤ c → c + vc.shift n < vc.width →
    vc'.cell vc.cy (c + vc.shift n) = vc.cell vc.cy c
  blank : ∀ c, vc.cx ≤ c → c < vc.cx + vc.shift n → vc'.cell vc.cy c = 0#8
  other : ∀ r, ∀ c < vc.width, r ≠ vc.cy ∨ c < vc.cx → vc'.cell r c = vc.cell r c

/-- The cells of the cursor's row have moved to the left, down to the cursor. -/
structure CharsDeleted (n : ℕ) (vc vc' : Vc) : Prop where
  redrawn : vc.Redrawn vc'
  moved : ∀ c, vc.cx ≤ c → c + vc.shift n < vc.width →
    vc'.cell vc.cy c = vc.cell vc.cy (c + vc.shift n)
  blank : ∀ c < vc.width, vc.width - vc.shift n ≤ c → vc'.cell vc.cy c = 0#8
  other : ∀ r, ∀ c < vc.width, r ≠ vc.cy ∨ c < vc.cx → vc'.cell r c = vc.cell r c

/-- The cells which have stayed on the screen are back. -/
structure CharsRestored (n : ℕ) (vc vc' : Vc) : Prop where
  redrawn : vc.Redrawn vc'
  kept : ∀ c, vc.cx ≤ c → c + vc.shift n < vc.width → vc'.cell vc.cy c = vc.cell vc.cy c

def InsertsChars (n : ℕ) (vc : Vc) : Prop :=
  ∃ vc', vc.insertBlanks n = .ok vc' ∧ CharsInserted n vc vc'

def DeletesChars (n : ℕ) (vc : Vc) : Prop :=
  ∃ vc', vc.deleteChars n = .ok vc' ∧ CharsDeleted n vc vc'

def RestoresChars (n : ℕ) (vc : Vc) : Prop :=
  ∃ vc₁ vc₂, vc.insertBlanks n = .ok vc₁ ∧ vc₁.deleteChars n = .ok vc₂ ∧ CharsRestored n vc vc₂

/-- These cells of the cursor's row are blank. -/
def BlankFrom (vc : Vc) (a b : ℕ) : Prop := ∀ c, a ≤ c → c < b → vc.cell vc.cy c = 0#8

/-! ## What the routines do -/

/-- The cursor is on the screen. -/
structure OnScreen (vc : Vc) : Prop extends Whole vc where
  column : vc.cx < vc.width
  row : vc.cy < vc.height

theorem OnScreen.fits (h : vc.OnScreen) : vc.cy * vc.width + vc.width ≤ vc.scrSize := by
  rw [← Nat.succ_mul, h.size, Nat.mul_comm vc.width]
  exact Nat.mul_le_mul_right _ h.row

theorem OnScreen.scrPos (h : vc.OnScreen) : vc.scrPos = vc.cy * vc.width + vc.cx := by
  have hfits := h.fits
  have hsmall := h.small
  have hcolumn := h.column
  rw [← h.size] at hsmall
  exact Nat.mod_eq_of_lt (by omega)

theorem OnScreen.redrawn (h : vc.OnScreen) (hr : vc.Redrawn vc') : vc'.OnScreen := by
  obtain ⟨buf, rfl⟩ := hr
  exact ⟨⟨h.size, h.small⟩, h.column, h.row⟩

theorem Redrawn.cursor (h : vc.Redrawn vc') (n : ℕ) :
    vc'.cx = vc.cx ∧ vc'.cy = vc.cy ∧ vc'.shift n = vc.shift n := by
  obtain ⟨buf, rfl⟩ := h
  exact ⟨rfl, rfl, rfl⟩

/-- With a count that does not wrap around `vc_insert_blanks` does what it should. -/
theorem OnScreen.insertBlanks (h : vc.OnScreen) (hn : vc.cx + n < 2 ^ 32) :
    ∃ vc', vc.insertBlanks n = .ok vc' ∧ vc.Redrawn vc' ∧ ∀ r, ∀ c < vc.width,
      vc'.cell r c =
        if r = vc.cy ∧ vc.cx ≤ c then
          if c < vc.cx + vc.shift n then 0#8 else vc.cell r (c - vc.shift n)
        else vc.cell r c := by
  have hfits := h.fits
  have hsmall := h.small
  have hcolumn := h.column
  rw [← h.size] at hsmall
  unfold Vc.insertBlanks memset memmove
  dsimp only
  rw [h.scrPos, Nat.mod_eq_of_lt hn, sub32_of_le hcolumn.le]
  by_cases hlong : vc.width ≤ vc.cx + n
  · have hshift : vc.shift n = vc.width - vc.cx := Nat.min_eq_right (by omega)
    rw [if_pos hlong, if_pos (by omega), ok_bind, hshift]
    refine ⟨_, rfl, ⟨_, rfl⟩, fun r c hc => ?_⟩
    dsimp only [cell]
    rw [Nat.add_assoc, Nat.add_sub_cancel' hcolumn.le]
    simp only [place_mem_iff hc le_rfl]
    by_cases hin : r = vc.cy ∧ vc.cx ≤ c
    · rw [if_pos ⟨hin.1, hin.2, hc⟩, if_pos hin, if_pos hc]
    · rw [if_neg (fun h => hin ⟨h.1, h.2.1⟩), if_neg hin]
  · have hshift : vc.shift n = n := Nat.min_eq_left (by omega)
    rw [if_neg hlong, sub32_of_le (a := vc.width - vc.cx) (by omega), Nat.mod_eq_of_lt (by omega),
      if_pos (by omega), ok_bind, if_pos (by omega), ok_bind, hshift]
    refine ⟨_, rfl, ⟨_, rfl⟩, fun r c hc => ?_⟩
    dsimp only [cell]
    have hend : vc.cy * vc.width + vc.cx + n + (vc.width - vc.cx - n) =
        vc.cy * vc.width + vc.width := by omega
    rw [hend]
    simp only [Nat.add_assoc (vc.cy * vc.width)]
    simp only [place_mem_iff hc (le_refl vc.width),
      place_mem_iff hc (show vc.cx + n ≤ vc.width by omega)]
    by_cases hin : r = vc.cy ∧ vc.cx ≤ c
    · obtain ⟨rfl, hcx⟩ := hin
      by_cases hfree : c < vc.cx + n
      · rw [if_pos ⟨rfl, hcx, hfree⟩, if_pos ⟨rfl, hcx⟩, if_pos hfree]
      · rw [if_neg (fun h => hfree h.2.2), if_pos ⟨rfl, by omega, hc⟩, if_pos ⟨rfl, hcx⟩,
          if_neg hfree]
        congr 1
        omega
    · rw [if_neg (fun h => hin ⟨h.1, h.2.1⟩), if_neg (fun h => hin ⟨h.1, by omega⟩), if_neg hin]

/-- A count that wraps around is taken for a small one at first, and then for a size. -/
theorem OnScreen.insertBlanks_wrap (h : vc.OnScreen) (hn : n < 2 ^ 32)
    (hwrap : 2 ^ 32 ≤ vc.cx + n) : ∃ e, vc.insertBlanks n = .error e := by
  have hfits := h.fits
  have hsmall := h.small
  have hcolumn := h.column
  have hheight : vc.width ≤ vc.width * vc.height :=
    Nat.le_mul_of_pos_right vc.width (Nat.zero_lt_of_lt h.row)
  rw [← h.size] at hsmall hheight
  have hsum : (vc.cx + n) % 2 ^ 32 = vc.cx + n - 2 ^ 32 := by
    rw [Nat.mod_eq_sub_mod hwrap, Nat.mod_eq_of_lt (by omega)]
  unfold Vc.insertBlanks
  dsimp only
  rw [h.scrPos, hsum, if_neg (by omega)]
  cases hmove : memmove vc.scrSize vc.scrBuf ((vc.cy * vc.width + vc.cx + n) % 2 ^ 32)
    (vc.cy * vc.width + vc.cx) (sub32 (sub32 vc.width vc.cx) n) with
  | error e => exact ⟨e, rfl⟩
  | ok buf =>
      refine ⟨.outOfBounds, ?_⟩
      unfold memset
      rw [ok_bind, if_neg (by omega)]
      rfl

/-- `vc_delete_chars` moves the cells, and blanks those behind the ones deleted. -/
theorem OnScreen.deleteChars (h : vc.OnScreen) (n : ℕ) :
    ∃ vc', vc.deleteChars n = .ok vc' ∧ vc.Redrawn vc' ∧ ∀ r, ∀ c < vc.width,
      vc'.cell r c =
        if r = vc.cy ∧ vc.cx ≤ c then
          if vc.cx + vc.shift n ≤ c then 0#8
          else if c + vc.shift n < vc.width then vc.cell r (c + vc.shift n) else vc.cell r c
        else vc.cell r c := by
  have hfits := h.fits
  have hsmall := h.small
  have hcolumn := h.column
  rw [← h.size] at hsmall
  have hclipped : vc.clipped n = vc.shift n := by
    unfold clipped shift
    rw [sub32_of_le hcolumn.le]
  have hshift : vc.shift n ≤ vc.width - vc.cx := Nat.min_le_right _ _
  unfold Vc.deleteChars memset memmove
  dsimp only
  rw [h.scrPos, hclipped, sub32_of_le hcolumn.le, sub32_of_le hshift,
    Nat.mod_eq_of_lt (by omega), if_pos (by omega), ok_bind, if_pos (by omega), ok_bind]
  refine ⟨_, rfl, ⟨_, rfl⟩, fun r c hc => ?_⟩
  dsimp only [cell]
  have hmoved : vc.cy * vc.width + vc.cx + (vc.width - vc.cx - vc.shift n) =
      vc.cy * vc.width + (vc.width - vc.shift n) := by omega
  have hblank : vc.cy * vc.width + vc.cx + vc.shift n + (vc.width - vc.cx - vc.shift n) =
      vc.cy * vc.width + vc.width := by omega
  rw [hmoved, hblank, Nat.add_assoc _ vc.cx]
  simp only [place_mem_iff hc (le_refl vc.width),
    place_mem_iff hc (Nat.sub_le vc.width (vc.shift n))]
  by_cases hin : r = vc.cy ∧ vc.cx ≤ c
  · obtain ⟨rfl, hcx⟩ := hin
    by_cases hbehind : vc.cx + vc.shift n ≤ c
    · rw [if_pos ⟨rfl, hbehind, hc⟩, if_pos ⟨rfl, hcx⟩, if_pos hbehind]
    · rw [if_neg (fun h => hbehind h.2.1)]
      by_cases hstays : c + vc.shift n < vc.width
      · rw [if_pos ⟨rfl, hcx, by omega⟩, if_pos ⟨rfl, hcx⟩, if_neg hbehind, if_pos hstays]
        congr 1
        omega
      · rw [if_neg (fun h => hstays (by omega)), if_pos ⟨rfl, hcx⟩, if_neg hbehind,
          if_neg hstays]
  · rw [if_neg (fun h => hin ⟨h.1, by omega⟩), if_neg (fun h => hin ⟨h.1, h.2.1⟩), if_neg hin]

/-! ## What they should do -/

theorem OnScreen.insertsChars_iff (h : vc.OnScreen) (hn : n < 2 ^ 32) :
    InsertsChars n vc ↔ vc.cx + n < 2 ^ 32 := by
  constructor
  · rintro ⟨vc', hcall, -⟩
    by_contra hwrap
    obtain ⟨e, herror⟩ := h.insertBlanks_wrap hn (Nat.le_of_not_lt hwrap)
    rw [herror] at hcall
    cases hcall
  · intro hsmall
    obtain ⟨vc', hcall, hredrawn, hcell⟩ := h.insertBlanks hsmall
    have hshift : vc.shift n ≤ vc.width - vc.cx := Nat.min_le_right _ _
    have hcolumn := h.column
    refine ⟨vc', hcall, hredrawn, fun c hcx hc => ?_, fun c hcx hfree => ?_,
      fun r c hc hother => ?_⟩
    · rw [hcell _ _ hc, if_pos ⟨rfl, by omega⟩, if_neg (by omega), Nat.add_sub_cancel]
    · rw [hcell _ _ (by omega), if_pos ⟨rfl, hcx⟩, if_pos hfree]
    · rw [hcell r c hc, if_neg (by omega)]

theorem OnScreen.deletesChars_iff (h : vc.OnScreen) (n : ℕ) :
    DeletesChars n vc ↔ vc.BlankFrom (vc.cx + 2 * vc.shift n) vc.width ∧
      vc.BlankFrom (vc.width - vc.shift n) (vc.cx + vc.shift n) := by
  obtain ⟨vc', hcall, hredrawn, hcell⟩ := h.deleteChars n
  have hshift : vc.shift n ≤ vc.width - vc.cx := Nat.min_le_right _ _
  have hcolumn := h.column
  have hdeletes : DeletesChars n vc ↔ CharsDeleted n vc vc' := by
    constructor
    · rintro ⟨vc₁, hcall₁, hdeleted⟩
      rw [hcall] at hcall₁
      cases hcall₁
      exact hdeleted
    · exact fun hdeleted => ⟨vc', hcall, hdeleted⟩
  rw [hdeletes]
  constructor
  · intro hdeleted
    constructor
    · intro c hc hlt
      have hmoved := hdeleted.moved (c - vc.shift n) (by omega) (by omega)
      rw [hcell _ _ (by omega), if_pos ⟨rfl, by omega⟩, if_pos (by omega),
        Nat.sub_add_cancel (by omega)] at hmoved
      exact hmoved.symm
    · intro c hc hlt
      have hblank := hdeleted.blank c (by omega) hc
      rwa [hcell _ _ (by omega), if_pos ⟨rfl, by omega⟩, if_neg (by omega),
        if_neg (by omega)] at hblank
  · rintro ⟨hbehind, hend⟩
    refine ⟨hredrawn, fun c hcx hc => ?_, fun c hc hlate => ?_, fun r c hc hother => ?_⟩
    · rw [hcell _ _ (by omega), if_pos ⟨rfl, hcx⟩]
      split
      next hlater => exact (hbehind _ (by omega) hc).symm
      next => rfl
    · rw [hcell _ _ hc, if_pos ⟨rfl, by omega⟩]
      split
      next => rfl
      next hearly =>
        rw [if_neg (by omega)]
        exact hend c hlate (by omega)
    · rw [hcell r c hc, if_neg (by omega)]

theorem OnScreen.restoresChars_iff (h : vc.OnScreen) (hn : n < 2 ^ 32) :
    RestoresChars n vc ↔ vc.cx + n < 2 ^ 32 ∧
      vc.BlankFrom (vc.cx + vc.shift n) (vc.width - vc.shift n) := by
  have hshift : vc.shift n ≤ vc.width - vc.cx := Nat.min_le_right _ _
  have hcolumn := h.column
  by_cases hsmall : vc.cx + n < 2 ^ 32
  · obtain ⟨vc₁, hinsert, hredrawn₁, hcell₁⟩ := h.insertBlanks hsmall
    obtain ⟨vc₂, hdelete, hredrawn₂, hcell₂⟩ := (h.redrawn hredrawn₁).deleteChars n
    obtain ⟨hcx₁, hcy₁, hshift₁⟩ := hredrawn₁.cursor n
    rw [hcx₁, hcy₁, hshift₁, hredrawn₁.width] at hcell₂
    have hback : ∀ c, vc.cx ≤ c → c + vc.shift n < vc.width → vc₂.cell vc.cy c =
        if vc.cx + vc.shift n ≤ c then 0#8 else vc.cell vc.cy c := by
      intro c hcx hc
      rw [hcell₂ vc.cy c (by omega), if_pos ⟨rfl, hcx⟩]
      split
      next => rfl
      next hearly =>
        rw [hcell₁ _ _ hc, if_pos ⟨rfl, by omega⟩, if_neg (by omega), Nat.add_sub_cancel]
    rw [and_iff_right hsmall]
    constructor
    · rintro ⟨vc₁', vc₂', hinsert', hdelete', hrestored⟩ c hc hlt
      rw [hinsert] at hinsert'
      cases hinsert'
      rw [hdelete] at hdelete'
      cases hdelete'
      rw [← hrestored.kept c (by omega) (by omega), hback c (by omega) (by omega), if_pos hc]
    · intro hblank
      refine ⟨vc₁, vc₂, hinsert, hdelete, hredrawn₁.trans hredrawn₂, fun c hcx hc => ?_⟩
      rw [hback c hcx hc]
      split
      next hlate => exact (hblank c hlate (by omega)).symm
      next => rfl
  · refine iff_of_false ?_ fun h => hsmall h.1
    rintro ⟨vc₁, vc₂, hinsert, -⟩
    obtain ⟨e, herror⟩ := h.insertBlanks_wrap hn (Nat.le_of_not_lt hsmall)
    rw [herror] at hinsert
    cases hinsert

/-- When inserting characters, deleting them, and deleting what was inserted do what they should:
the count must not wrap around with the column, what is blanked behind the cells deleted must be
blank or free, and what becomes free must be blanked or blank. -/
theorem insertsChars_deletesChars_iff (vc : Vc) (h : vc.OnScreen) (n : ℕ) (hn : n < 2 ^ 32) :
    (InsertsChars n vc ↔ vc.cx + n < 2 ^ 32) ∧
      (DeletesChars n vc ↔ vc.BlankFrom (vc.cx + 2 * vc.shift n) vc.width ∧
        vc.BlankFrom (vc.width - vc.shift n) (vc.cx + vc.shift n)) ∧
      (RestoresChars n vc ↔ vc.cx + n < 2 ^ 32 ∧
        vc.BlankFrom (vc.cx + vc.shift n) (vc.width - vc.shift n)) :=
  ⟨h.insertsChars_iff hn, h.deletesChars_iff n, h.restoresChars_iff hn⟩

/-- A console of 80 columns and 25 rows, full of one character, with the cursor at the start. -/
def fullOf (b : BitVec 8) : Vc := { init 80 25 fun _ => 0#8 with scrBuf := fun _ => b }

theorem onScreen_fullOf (b : BitVec 8) : (fullOf b).OnScreen :=
  ⟨⟨rfl, (by decide : 80 * 25 < 2 ^ 32)⟩, (by decide : 0 < 80), (by decide : 0 < 25)⟩

theorem insertsChars_deletesChars_iff_fullOf :
    (InsertsChars 3 (fullOf 0#8) ↔ (fullOf 0#8).cx + 3 < 2 ^ 32) ∧
      (DeletesChars 3 (fullOf 0#8) ↔
        (fullOf 0#8).BlankFrom ((fullOf 0#8).cx + 2 * (fullOf 0#8).shift 3) (fullOf 0#8).width ∧
          (fullOf 0#8).BlankFrom ((fullOf 0#8).width - (fullOf 0#8).shift 3)
            ((fullOf 0#8).cx + (fullOf 0#8).shift 3)) ∧
      (RestoresChars 3 (fullOf 0#8) ↔ (fullOf 0#8).cx + 3 < 2 ^ 32 ∧
        (fullOf 0#8).BlankFrom ((fullOf 0#8).cx + (fullOf 0#8).shift 3)
          ((fullOf 0#8).width - (fullOf 0#8).shift 3)) :=
  insertsChars_deletesChars_iff (fullOf 0#8) (onScreen_fullOf 0#8) 3 (by decide)

/-- In a row of letters the deletion of one blanks all behind it. -/
theorem not_deletesChars_fullOf :
    ¬ DeletesChars 1 (fullOf 0x41#8) ∧ ¬ RestoresChars 1 (fullOf 0x41#8) := by
  constructor
  · rw [(onScreen_fullOf 0x41#8).deletesChars_iff]
    rintro ⟨hbehind, -⟩
    exact absurd (hbehind 2 (by decide) (by decide)) (by decide)
  · rw [(onScreen_fullOf 0x41#8).restoresChars_iff (by decide)]
    rintro ⟨-, hblank⟩
    exact absurd (hblank 1 (by decide) (by decide)) (by decide)

end Vc

end Yak.Console
