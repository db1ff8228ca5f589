import Yak.ConsoleSafety

/-!
# The lines of the console

The screen as lines of cells.  `vc_scroll_up` and `vc_scroll_down` move the lines between the
margins by one, so that `vc_insert_lines` and `vc_delete_lines` move those from the cursor on
by their count, and blank the lines which become free.
-/

namespace Yak.Console

open ByteBitmap (Bytes)
open WordMemory (sub32 sub32_of_le)

/-! ## Places in a grid -/

section Grid

variable {width r c : ℕ}

theorem le_place_iff (hc : c < width) (a : ℕ) : a * width ≤ r * width + c ↔ a ≤ r := by
  constructor
  · intro h
    by_contra hlt
    have hle : (r + 1) * width ≤ a * width := Nat.mul_le_mul_right width (by omega)
    rw [Nat.succ_mul] at hle
    omega
  · intro h
    have hle : a * width ≤ r * width := Nat.mul_le_mul_right width h
    omega

theorem place_lt_iff (hc : c < width) (a : ℕ) : r * width + c < a * width ↔ r < a := by
  rw [← not_le, le_place_iff hc, not_le]

theorem place_inj {r' c' : ℕ} (hc : c < width) (hc' : c' < width)
    (h : r * width + c = r' * width + c') : r = r' ∧ c = c' := by
  have hrow : r = r' :=
    le_antisymm ((le_place_iff hc' r).mp (by omega)) ((le_place_iff hc r').mp (by omega))
  subst hrow
  exact ⟨rfl, by omega⟩

end Grid

/-- The copy from the line above, which starts at the last byte. -/
theorem copyBackward_eq {size count dst width : ℕ} (buf : Bytes) (hwidth : 0 < width)
    (hdst : count = 0 ∨ dst < size ∧ count + width ≤ dst + 1) :
    copyBackward size buf count dst (sub32 dst width) =
      .ok fun i => if dst + 1 ≤ i + count ∧ i ≤ dst then buf (i - width) else buf i := by
  induction count generalizing buf dst with
  | zero =>
      rw [copyBackward]
      congr 1
      funext i
      rw [if_neg (by omega)]
  | succ count ih =>
      obtain ⟨hlt, hle⟩ := hdst.resolve_left (Nat.succ_ne_zero _)
      have hsrc : sub32 dst width = dst - width := sub32_of_le (by omega)
      rw [copyBackward, if_pos ⟨hlt, by omega⟩]
      cases count with
      | zero =>
          rw [copyBackward, hsrc]
          congr 1
          funext i
          by_cases hi : i = dst
          · subst hi
            simp
          · rw [Function.update_of_ne hi, if_neg (by omega)]
      | succ count =>
          have hnext : sub32 (sub32 dst width) 1 = sub32 (sub32 dst 1) width := by
            rw [hsrc, sub32_of_le (by omega), sub32_of_le (a := dst) (by omega),
              sub32_of_le (by omega)]
            omega
          have hprev : sub32 dst 1 = dst - 1 := sub32_of_le (by omega)
          rw [hnext, hprev, ih _ (Or.inr (by omega)), hsrc]
          congr 1
          funext i
          by_cases hi : i = dst
          · subst hi
            simp
            omega
          · by_cases hin : dst - 1 + 1 ≤ i + (count + 1) ∧ i ≤ dst - 1
            · rw [if_pos hin, if_pos (by omega), Function.update_of_ne (by omega)]
            · rw [if_neg hin, if_neg (by omega), Function.update_of_ne hi]

namespace Vc

variable {vc vc' vc'' : Vc}

/-- The cell in line `r` and column `c`. -/
def cell (vc : Vc) (r c : ℕ) : BitVec 8 := vc.scrBuf (r * vc.width + c)

/-- Line `r` of the screen. -/
def line (vc : Vc) (r : ℕ) : List (BitVec 8) := (List.range vc.width).map (vc.cell r)

/-- A line of zeros. -/
def blankLine (vc : Vc) : List (BitVec 8) := List.replicate vc.width 0#8

/-- The screen buffer has the size of the screen. -/
structure Whole (vc : Vc) : Prop where
  size : vc.scrSize = vc.width * vc.height
  small : vc.width * vc.height < 2 ^ 32

/-- The margins are on the screen. -/
structure Region (vc : Vc) : Prop extends Whole vc where
  margins : vc.scrollTop ≤ vc.scrollBottom
  bottom : vc.scrollBottom < vc.height

theorem Region.setBuf (h : vc.Region) (buf : Bytes) : { vc with scrBuf := buf }.Region :=
  ⟨⟨h.size, h.small⟩, h.margins, h.bottom⟩

theorem line_congr {r r' : ℕ} (hwidth : vc'.width = vc.width)
    (hcell : ∀ c < vc.width, vc'.cell r' c = vc.cell r c) : vc'.line r' = vc.line r := by
  rw [line, line, hwidth]
  exact List.map_congr_left fun c hc => hcell c (List.mem_range.mp hc)

theorem line_blank {r : ℕ} (hwidth : vc'.width = vc.width)
    (hcell : ∀ c < vc.width, vc'.cell r c = 0#8) : vc'.line r = vc.blankLine := by
  rw [line, blankLine, hwidth, List.eq_replicate_iff]
  refine ⟨by simp, ?_⟩
  intro b hb
  obtain ⟨c, hc, rfl⟩ := List.mem_map.mp hb
  exact hcell c (List.mem_range.mp hc)

/-! ## Lines which move -/

/-- The lines between the margins have moved up by `k`. -/
def MovedUp (k : ℕ) (vc vc' : Vc) : Prop :=
  vc.Redrawn vc' ∧ ∀ r, ∀ c < vc.width, vc'.cell r c =
    if vc.scrollTop ≤ r ∧ r ≤ vc.scrollBottom then
      if r + k ≤ vc.scrollBottom then vc.cell (r + k) c else 0#8
    else vc.cell r c

/-- The lines between the margins have moved down by `k`. -/
def MovedDown (k : ℕ) (vc vc' : Vc) : Prop :=
  vc.Redrawn vc' ∧ ∀ r, ∀ c < vc.width, vc'.cell r c =
    if vc.scrollTop ≤ r ∧ r ≤ vc.scrollBottom then
      if vc.scrollTop + k ≤ r then vc.cell (r - k) c else 0#8
    else vc.cell r c

theorem Redrawn.refl (vc : Vc) : vc.Redrawn vc := ⟨vc.scrBuf, rfl⟩

theorem Redrawn.trans (h : vc.Redrawn vc') (h' : vc'.Redrawn vc'') : vc.Redrawn vc'' := by
  obtain ⟨buf, rfl⟩ := h
  obtain ⟨buf', rfl⟩ := h'
  exact ⟨buf', rfl⟩

theorem Redrawn.width (h : vc.Redrawn vc') : vc'.width = vc.width := by
  obtain ⟨buf, rfl⟩ := h
  rfl

theorem Redrawn.region (h : vc.Redrawn vc') (hregion : vc.Region) : vc'.Region := by
  obtain ⟨buf, rfl⟩ := h
  exact hregion.setBuf buf

theorem Redrawn.scroll (h : vc.Redrawn vc') :
    vc'.scrollTop = vc.scrollTop ∧ vc'.scrollBottom = vc.scrollBottom := by
  obtain ⟨buf, rfl⟩ := h
  exact ⟨rfl, rfl⟩

theorem MovedUp.zero (vc : Vc) : MovedUp 0 vc vc := by
  refine ⟨.refl vc, fun r c _ => ?_⟩
  simp +contextual

theorem MovedDown.zero (vc : Vc) : MovedDown 0 vc vc := by
  refine ⟨.refl vc, fun r c _ => ?_⟩
  simp +contextual

theorem MovedUp.succ {k : ℕ} (h : MovedUp 1 vc vc') (h' : MovedUp k vc' vc'') :
    MovedUp (k + 1) vc vc'' := by
  obtain ⟨htop, hbottom⟩ := h.1.scroll
  refine ⟨h.1.trans h'.1, fun r c hc => ?_⟩
  rw [h'.2 r c (by rwa [h.1.width]), htop, hbottom, h.2 r c hc, h.2 (r + k) c hc]
  by_cases hin : vc.scrollTop ≤ r ∧ r ≤ vc.scrollBottom
  · rw [if_pos hin, if_pos hin]
    by_cases hlast : r + (k + 1) ≤ vc.scrollBottom
    · rw [if_pos (by omega), if_pos (by omega), if_pos (by omega), if_pos hlast, Nat.add_assoc]
    · rw [if_neg hlast]
      split
      next => rw [if_pos (by omega), if_neg (by omega)]
      next => rfl
  · rw [if_neg hin, if_neg hin, if_neg hin]

theorem MovedDown.succ {k : ℕ} (h : MovedDown 1 vc vc') (h' : MovedDown k vc' vc'') :
    MovedDown (k + 1) vc vc'' := by
  obtain ⟨htop, hbottom⟩ := h.1.scroll
  refine ⟨h.1.trans h'.1, fun r c hc => ?_⟩
  rw [h'.2 r c (by rwa [h.1.width]), htop, hbottom, h.2 r c hc, h.2 (r - k) c hc]
  by_cases hin : vc.scrollTop ≤ r ∧ r ≤ vc.scrollBottom
  · rw [if_pos hin, if_pos hin]
    by_cases hfirst : vc.scrollTop + (k + 1) ≤ r
    · rw [if_pos (by omega), if_pos (by omega), if_pos (by omega), if_pos hfirst, Nat.sub_sub]
    · rw [if_neg hfirst]
      split
      next => rw [if_pos (by omega), if_neg (by omega)]
      next => rfl
  · rw [if_neg hin, if_neg hin, if_neg hin]

/-! ## One line -/

theorem Region.fits (h : vc.Region) : vc.scrollBottom * vc.width + vc.width ≤ vc.scrSize := by
  have hle : (vc.scrollBottom + 1) * vc.width ≤ vc.height * vc.width :=
    Nat.mul_le_mul_right _ h.bottom
  rw [Nat.succ_mul, Nat.mul_comm vc.height, ← h.size] at hle
  exact hle

theorem Region.scrSize_lt (h : vc.Region) : vc.scrSize < 2 ^ 32 := by
  rw [h.size]
  exact h.small

theorem Region.count_eq (h : vc.Region) :
    sub32 vc.scrollBottom vc.scrollTop * vc.width % 2 ^ 32 + vc.scrollTop * vc.width =
      vc.scrollBottom * vc.width := by
  have hfits := h.fits
  have hsize := h.scrSize_lt
  have hsplit : (vc.scrollBottom - vc.scrollTop) * vc.width + vc.scrollTop * vc.width =
      vc.scrollBottom * vc.width := by
    rw [← Nat.add_mul, Nat.sub_add_cancel h.margins]
  rw [sub32_of_le h.margins, Nat.mod_eq_of_lt (by omega)]
  exact hsplit

theorem Region.scrollUp (h : vc.Region) : ∃ vc', vc.scrollUp = .ok vc' ∧ MovedUp 1 vc vc' := by
  have hfits := h.fits
  have hsize := h.scrSize_lt
  have hcount := h.count_eq
  have htop : vc.scrollTop * vc.width % 2 ^ 32 = vc.scrollTop * vc.width :=
    Nat.mod_eq_of_lt (by omega)
  have hbottom : vc.scrollBottom * vc.width % 2 ^ 32 = vc.scrollBottom * vc.width :=
    Nat.mod_eq_of_lt (by omega)
  have hsrc : (vc.scrollTop * vc.width + vc.width) % 2 ^ 32 =
      vc.scrollTop * vc.width + vc.width := Nat.mod_eq_of_lt (by omega)
  unfold Vc.scrollUp memmove memset
  dsimp only
  rw [htop, hbottom, hsrc, if_pos (by omega), ok_bind, if_pos (by omega), ok_bind]
  refine ⟨_, rfl, ⟨_, rfl⟩, fun r c hc => ?_⟩
  have hend : vc.scrollTop * vc.width +
      sub32 vc.scrollBottom vc.scrollTop * vc.width % 2 ^ 32 = vc.scrollBottom * vc.width := by
    omega
  have hlast : vc.scrollBottom * vc.width + vc.width = (vc.scrollBottom + 1) * vc.width :=
    (Nat.succ_mul _ _).symm
  have hshift : vc.scrollTop * vc.width + vc.width +
      (r * vc.width + c - vc.scrollTop * vc.width) = (r + 1) * vc.width + c ∨
      ¬ vc.scrollTop * vc.width ≤ r * vc.width + c := by
    rw [Nat.succ_mul]
    omega
  dsimp only [cell]
  rw [hend, hlast]
  simp only [le_place_iff hc, place_lt_iff hc] at hshift ⊢
  by_cases hin : vc.scrollTop ≤ r ∧ r ≤ vc.scrollBottom
  · rw [if_pos hin]
    by_cases hmoved : r + 1 ≤ vc.scrollBottom
    · rw [if_neg (by omega), if_pos (by omega), if_pos hmoved, hshift.resolve_right (by omega)]
    · rw [if_pos (by omega), if_neg hmoved]
  · rw [if_neg hin, if_neg (by have := h.margins; omega), if_neg (by omega)]

theorem Region.scrollDown (h : vc.Region) :
    ∃ vc', vc.scrollDown = .ok vc' ∧ MovedDown 1 vc vc' := by
  have hfits := h.fits
  have hsize := h.scrSize_lt
  have hcount := h.count_eq
  have htop : vc.scrollTop * vc.width % 2 ^ 32 = vc.scrollTop * vc.width :=
    Nat.mod_eq_of_lt (by omega)
  have hend : (vc.scrollBottom * vc.width + vc.width) % 2 ^ 32 =
      vc.scrollBottom * vc.width + vc.width := Nat.mod_eq_of_lt (by omega)
  unfold Vc.scrollDown memset
  dsimp only
  rw [htop, hend]
  obtain hzero | hwidth := Nat.eq_zero_or_pos vc.width
  · -- a screen without columns
    have hnone : sub32 vc.scrollBottom vc.scrollTop * vc.width % 2 ^ 32 = 0 := by
      rw [hzero, Nat.mul_zero, Nat.zero_mod]
    rw [hnone, copyBackward, ok_bind, if_pos (by omega), ok_bind]
    exact ⟨_, rfl, ⟨_, rfl⟩, fun r c hc => by omega⟩
  · rw [sub32_of_le (a := vc.scrollBottom * vc.width + vc.width) (by omega),
      copyBackward_eq _ hwidth (Or.inr (by omega)), ok_bind, if_pos (by omega), ok_bind]
    refine ⟨_, rfl, ⟨_, rfl⟩, fun r c hc => ?_⟩
    have hlast : vc.scrollBottom * vc.width + vc.width = (vc.scrollBottom + 1) * vc.width :=
      (Nat.succ_mul _ _).symm
    have hfirst : vc.scrollTop * vc.width + vc.width = (vc.scrollTop + 1) * vc.width :=
      (Nat.succ_mul _ _).symm
    have hcopied : (vc.scrollBottom * vc.width + vc.width - 1 + 1 ≤
        r * vc.width + c + sub32 vc.scrollBottom vc.scrollTop * vc.width % 2 ^ 32 ∧
        r * vc.width + c ≤ vc.scrollBottom * vc.width + vc.width - 1) ↔
        (vc.scrollTop + 1) * vc.width ≤ r * vc.width + c ∧
          r * vc.width + c < (vc.scrollBottom + 1) * vc.width := by
      omega
    dsimp only [cell]
    rw [hfirst]
    simp only [hcopied, le_place_iff hc, place_lt_iff hc]
    by_cases hin : vc.scrollTop ≤ r ∧ r ≤ vc.scrollBottom
    · rw [if_pos hin]
      by_cases hmoved : vc.scrollTop + 1 ≤ r
      · obtain ⟨r, rfl⟩ := Nat.exists_eq_add_of_le' (le_trans (Nat.le_add_left _ _) hmoved)
        have hplace : (r + 1) * vc.width + c - vc.width = (r + 1 - 1) * vc.width + c := by
          rw [Nat.succ_mul, Nat.add_sub_cancel]
          omega
        rw [if_neg (by omega), if_pos (by omega), if_pos hmoved, hplace]
      · rw [if_pos (by omega), if_neg hmoved]
    · rw [if_neg hin, if_neg (by have := h.margins; omega), if_neg (by omega)]

/-! ## Many lines -/

theorem times_movedUp (k : ℕ) (h : vc.Region) :
    ∃ vc', times Vc.scrollUp k vc = .ok vc' ∧ MovedUp k vc vc' := by
  induction k generalizing vc with
  | zero => exact ⟨vc, rfl, .zero vc⟩
  | succ k ih =>
      obtain ⟨vc₁, hfirst, hone⟩ := h.scrollUp
      obtain ⟨vc₂, hrest, hmoved⟩ := ih (hone.1.region h)
      rw [times, hfirst, ok_bind]
      exact ⟨vc₂, hrest, hone.succ hmoved⟩

theorem times_movedDown (k : ℕ) (h : vc.Region) :
    ∃ vc', times Vc.scrollDown k vc = .ok vc' ∧ MovedDown k vc vc' := by
  induction k generalizing vc with
  | zero => exact ⟨vc, rfl, .zero vc⟩
  | succ k ih =>
      obtain ⟨vc₁, hfirst, hone⟩ := h.scrollDown
      obtain ⟨vc₂, hrest, hmoved⟩ := ih (hone.1.region h)
      rw [times, hfirst, ok_bind]
      exact ⟨vc₂, hrest, hone.succ hmoved⟩

/-- The console with the region from the cursor to the last line. -/
def fromCursor (vc : Vc) : Vc := { vc with scrollTop := vc.cy, scrollBottom := vc.height - 1 }

theorem Whole.fromCursor (h : vc.Whole) (hcy : vc.cy < vc.height) : vc.fromCursor.Region := by
  refine ⟨⟨h.size, h.small⟩, ?_, ?_⟩
  · show vc.cy ≤ vc.height - 1
    omega
  · show vc.height - 1 < vc.height
    omega

theorem Whole.redrawn (h : vc.Whole) (hr : vc.Redrawn vc') : vc'.Whole := by
  obtain ⟨buf, rfl⟩ := hr
  exact ⟨h.size, h.small⟩

/-- The lines from the cursor on have moved down by `k`. -/
structure LinesInserted (k : ℕ) (vc vc' : Vc) : Prop where
  redrawn : vc.Redrawn vc'
  moved : ∀ r, vc.cy ≤ r → r + k < vc.height → vc'.line (r + k) = vc.line r
  blank : ∀ r, vc.cy ≤ r → r < min (vc.cy + k) vc.height → vc'.line r = vc.blankLine
  above : ∀ r < vc.cy, vc'.line r = vc.line r

/-- The lines from the `k`-th behind the cursor on have moved up to it. -/
structure LinesDeleted (k : ℕ) (vc vc' : Vc) : Prop where
  redrawn : vc.Redrawn vc'
  moved : ∀ r, vc.cy ≤ r → r + k < vc.height → vc'.line r = vc.line (r + k)
  blank : ∀ r < vc.height, vc.height - min k (vc.height - vc.cy) ≤ r → vc'.line r = vc.blankLine
  above : ∀ r < vc.cy, vc'.line r = vc.line r

/-- All lines are there again but the last ones, which are blank. -/
structure LinesRestored (k : ℕ) (vc vc' : Vc) : Prop where
  redrawn : vc.Redrawn vc'
  kept : ∀ r < vc.height - min k (vc.height - vc.cy), vc'.line r = vc.line r
  blank : ∀ r < vc.height, vc.height - min k (vc.height - vc.cy) ≤ r → vc'.line r = vc.blankLine

theorem Whole.insertLines (h : vc.Whole) (hcy : vc.cy < vc.height) (k : ℕ) :
    ∃ vc', vc.insertLines k = .ok vc' ∧ LinesInserted k vc vc' := by
  obtain ⟨vc₁, htimes, ⟨buf, rfl⟩, hmoved⟩ := times_movedDown k (h.fromCursor hcy)
  have hcell : ∀ r, ∀ c < vc.width, { vc with scrBuf := buf }.cell r c =
      if vc.cy ≤ r ∧ r ≤ vc.height - 1 then
        if vc.cy + k ≤ r then vc.cell (r - k) c else 0#8
      else vc.cell r c := hmoved
  have hlast : sub32 vc.height 1 = vc.height - 1 := sub32_of_le (by omega)
  refine ⟨{ vc with scrBuf := buf }, ?_, ⟨buf, rfl⟩, ?_, ?_, ?_⟩
  · unfold Vc.insertLines linesFromCursor
    rw [hlast]
    exact bind_eq_ok.mpr ⟨_, htimes, rfl⟩
  · intro r hr hk
    refine line_congr rfl fun c hc => (hcell (r + k) c hc).trans ?_
    rw [if_pos (by omega), if_pos (by omega), Nat.add_sub_cancel]
  · intro r hr hk
    refine line_blank rfl fun c hc => (hcell r c hc).trans ?_
    rw [if_pos (by omega), if_neg (by omega)]
  · intro r hr
    refine line_congr rfl fun c hc => (hcell r c hc).trans ?_
    rw [if_neg (by omega)]

theorem Whole.deleteLines (h : vc.Whole) (hcy : vc.cy < vc.height) (k : ℕ) :
    ∃ vc', vc.deleteLines k = .ok vc' ∧ LinesDeleted k vc vc' := by
  obtain ⟨vc₁, htimes, ⟨buf, rfl⟩, hmoved⟩ := times_movedUp k (h.fromCursor hcy)
  have hcell : ∀ r, ∀ c < vc.width, { vc with scrBuf := buf }.cell r c =
      if vc.cy ≤ r ∧ r ≤ vc.height - 1 then
        if r + k ≤ vc.height - 1 then vc.cell (r + k) c else 0#8
      else vc.cell r c := hmoved
  have hlast : sub32 vc.height 1 = vc.height - 1 := sub32_of_le (by omega)
  refine ⟨{ vc with scrBuf := buf }, ?_, ⟨buf, rfl⟩, ?_, ?_, ?_⟩
  · unfold Vc.deleteLines linesFromCursor
    rw [hlast]
    exact bind_eq_ok.mpr ⟨_, htimes, rfl⟩
  · intro r hr hk
    refine line_congr rfl fun c hc => (hcell r c hc).trans ?_
    rw [if_pos (by omega), if_pos (by omega)]
  · intro r hr hk
    refine line_blank rfl fun c hc => (hcell r c hc).trans ?_
    rw [if_pos (by omega), if_neg (by omega)]
  · intro r hr
    refine line_congr rfl fun c hc => (hcell r c hc).trans ?_
    rw [if_neg (by omega)]

theorem LinesInserted.deleted {k : ℕ} (h : LinesInserted k vc vc') (h' : LinesDeleted k vc' vc'') :
    LinesRestored k vc vc'' := by
  obtain ⟨⟨buf, rfl⟩, hmoved, hblank, habove⟩ := h
  refine ⟨.trans ⟨buf, rfl⟩ h'.redrawn, fun r hr => ?_, h'.blank⟩
  by_cases hcy : r < vc.cy
  · exact (h'.above r hcy).trans (habove r hcy)
  · have hfits : r + k < vc.height := by omega
    exact (h'.moved r (Nat.le_of_not_lt hcy) hfits).trans (hmoved r (Nat.le_of_not_lt hcy) hfits)

/-- `vc_insert_lines` and `vc_delete_lines` move the lines from the cursor on by their count,
change nothing else, and undo each other on the lines which stay on the screen. -/
theorem insertLines_deleteLines (vc : Vc) (h : vc.Whole) (hcy : vc.cy < vc.height) (k : ℕ) :
    (∃ vc', vc.deleteLines k = .ok vc' ∧ LinesDeleted k vc vc') ∧
      ∃ vc₁, vc.insertLines k = .ok vc₁ ∧ LinesInserted k vc vc₁ ∧
        ∃ vc₂, vc₁.deleteLines k = .ok vc₂ ∧ LinesRestored k vc vc₂ := by
  obtain ⟨vc₁, hinsert, hinserted⟩ := h.insertLines hcy k
  obtain ⟨buf, rfl⟩ := hinserted.redrawn
  obtain ⟨vc₂, hdelete, hdeleted⟩ := (h.redrawn ⟨buf, rfl⟩).deleteLines hcy k
  exact ⟨h.deleteLines hcy k, _, hinsert, hinserted, vc₂, hdelete, hinserted.deleted hdeleted⟩

theorem insertLines_deleteLines_init :
    (∃ vc', (init 80 25 fun _ => 0#8).deleteLines 3 = .ok vc' ∧
      LinesDeleted 3 (init 80 25 fun _ => 0#8) vc') ∧
      ∃ vc₁, (init 80 25 fun _ => 0#8).insertLines 3 = .ok vc₁ ∧
        LinesInserted 3 (init 80 25 fun _ => 0#8) vc₁ ∧
        ∃ vc₂, vc₁.deleteLines 3 = .ok vc₂ ∧ LinesRestored 3 (init 80 25 fun _ => 0#8) vc₂ :=
  insertLines_deleteLines (init 80 25 fun _ => 0#8) ⟨by decide, by decide⟩ (by decide) 3

end Vc

end Yak.Console
