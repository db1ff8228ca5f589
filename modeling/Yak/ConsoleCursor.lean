import Yak.ConsoleSafety

/-!
# The cursor of the console

The cursor and the saved cursor stay on the screen until a tab stop at or behind the right
edge is taken, whatever the margins and the parameters of the other sequences are.
-/

namespace Yak.Console

open ByteBitmap (Bytes)
open WordMemory (sub32 sub32_of_le)

namespace Vc

structure CursorInside (vc : Vc) : Prop where
  cx : vc.cx < vc.width
  cy : vc.cy < vc.height
  savedCx : vc.savedCx < vc.width
  savedCy : vc.savedCy < vc.height

/-- A tab stop to which the item at `p` moves is on the line. -/
def TabFits (mem : Bytes) (p : ℕ) (vc : Vc) : Prop :=
  mem p = escape → chr (mem (p + 1)) = 'H' → vc.nextTab < vc.width

/-- The cursor is on the screen before and after each item which `vc_write` comes to. -/
def InsideLoop (mem : Bytes) : (fuel : ℕ) → (nr : ℤ) → (p : ℕ) → Vc → Prop
  | 0, _, _, vc => vc.CursorInside
  | fuel + 1, nr, p, vc =>
      vc.CursorInside ∧
        (nr = 0 ∨
          match vc.writeItem fuel mem p with
          | .ok (q, vc) => InsideLoop mem fuel (nr - 1 - (q - p)) (q + 1) vc
          | .error _ => True)

def TabsLoop (mem : Bytes) : (fuel : ℕ) → (nr : ℤ) → (p : ℕ) → Vc → Prop
  | 0, _, _, _ => True
  | fuel + 1, nr, p, vc =>
      nr = 0 ∨
        TabFits mem p vc ∧
          match vc.writeItem fuel mem p with
          | .ok (q, vc) => TabsLoop mem fuel (nr - 1 - (q - p)) (q + 1) vc
          | .error _ => True

/-- The cursor is on the screen in every state of the run. -/
def InsideRun (fuel : ℕ) : List (Bytes × ℕ) → Vc → Prop
  | [], vc => vc.CursorInside
  | (mem, nr) :: strings, vc =>
      InsideLoop mem fuel nr 0 vc ∧
        match vc.write fuel mem nr with
        | .ok vc => InsideRun fuel strings vc
        | .error _ => True

def TabsRun (fuel : ℕ) : List (Bytes × ℕ) → Vc → Prop
  | [], _ => True
  | (mem, nr) :: strings, vc =>
      TabsLoop mem fuel nr 0 vc ∧
        match vc.write fuel mem nr with
        | .ok vc => TabsRun fuel strings vc
        | .error _ => True

/-! ## What does not move the cursor -/

/-- The cursors and the dimensions are the same. -/
def Stays (vc vc' : Vc) : Prop :=
  (vc'.cx, vc'.cy, vc'.savedCx, vc'.savedCy) = (vc.cx, vc.cy, vc.savedCx, vc.savedCy) ∧
    (vc'.width, vc'.height) = (vc.width, vc.height)

variable {vc vc' vc'' : Vc} {mem : Bytes} {fuel p q : ℕ}

theorem Stays.refl (vc : Vc) : vc.Stays vc := ⟨rfl, rfl⟩

theorem Stays.trans (h : vc.Stays vc') (h' : vc'.Stays vc'') : vc.Stays vc'' :=
  ⟨h'.1.trans h.1, h'.2.trans h.2⟩

theorem redraw_stays (x : Except Halt Bytes) :
    Yields vc.Stays (x >>= fun buf => .ok { vc with scrBuf := buf }) :=
  Yields.of_forall fun _ => Yields.ok ⟨rfl, rfl⟩

theorem scrollUp_stays (vc : Vc) : Yields vc.Stays vc.scrollUp :=
  Yields.of_forall fun _ => redraw_stays _

theorem scrollDown_stays (vc : Vc) : Yields vc.Stays vc.scrollDown :=
  Yields.of_forall fun _ => redraw_stays _

theorem times_stays {f : Vc → Except Halt Vc} (hf : ∀ vc : Vc, Yields vc.Stays (f vc))
    (count : ℕ) (vc : Vc) : Yields vc.Stays (times f count vc) := by
  induction count generalizing vc with
  | zero => exact Yields.ok (Stays.refl vc)
  | succ count ih =>
      rw [times]
      exact (hf vc).bind fun vc' h => (ih vc').imp fun _ => h.trans

theorem linesFromCursor_stays {f : Vc → Except Halt Vc} (hf : ∀ vc : Vc, Yields vc.Stays (f vc))
    (count : ℕ) (vc : Vc) : Yields vc.Stays (linesFromCursor f vc count) := by
  unfold linesFromCursor
  exact (times_stays hf count _).bind fun _ h => Yields.ok ⟨h.1, h.2⟩

theorem insertBlanks_stays (count : ℕ) : Yields vc.Stays (vc.insertBlanks count) := by
  unfold insertBlanks
  dsimp only
  split
  · exact redraw_stays _
  · exact Yields.of_forall fun _ => redraw_stays _

theorem clearScreen_stays (par : ℕ) : Yields vc.Stays (vc.clearScreen par) := by
  unfold clearScreen
  dsimp only
  split
  · exact redraw_stays _
  · exact redraw_stays _
  · exact redraw_stays _
  · exact Yields.ok (Stays.refl vc)

theorem clearLine_stays (par : ℕ) : Yields vc.Stays (vc.clearLine par) := by
  unfold clearLine
  dsimp only
  split
  · exact redraw_stays _
  · exact redraw_stays _
  · exact redraw_stays _
  · exact Yields.ok (Stays.refl vc)

theorem set256Rgb_stays (par : ℕ → ℕ) (type : VcAttrType) (fg : Bool) :
    vc.Stays (vc.set256Rgb par type fg).2.1 := by
  unfold set256Rgb set256
  dsimp only
  split_ifs <;> exact ⟨rfl, rfl⟩

theorem setAttrFlag_stays {n : ℕ} (h : vc.setAttrFlag n = some vc') : vc.Stays vc' := by
  unfold setAttrFlag at h
  split at h
  all_goals first
    | cases h; done
    | obtain rfl := Option.some.inj h
      exact ⟨rfl, rfl⟩

theorem setAttr_stays (par : ℕ → ℕ) (len fuel p : ℕ) (type : VcAttrType) (vc : Vc) :
    Yields vc.Stays (setAttr par len fuel p type vc) := by
  induction fuel generalizing p type vc with
  | zero => exact Yields.error _
  | succ fuel ih =>
      rw [setAttr]
      split
      · exact Yields.ok ⟨rfl, rfl⟩
      · split
        · exact Yields.error _
        · split
          · exact (ih _ _ _).imp fun _ => (set256Rgb_stays par type _).trans
          · split
            · exact (ih _ _ _).imp fun _ h => ⟨h.1, h.2⟩
            · split
              · exact (ih _ _ _).imp fun _ h => ⟨h.1, h.2⟩
              · split
                · exact Yields.ok (Stays.refl vc)
                next hflag => exact (ih _ _ _).imp fun _ => (setAttrFlag_stays hflag).trans

theorem flushFrom_stays (count i : ℕ) (vc : Vc) : Yields vc.Stays (vc.flushFrom count i) := by
  induction count generalizing vc i with
  | zero => exact Yields.ok (Stays.refl vc)
  | succ count ih =>
      rw [flushFrom]
      split
      · exact Yields.error _
      · split
        · exact (ih (i + 1) _).imp fun _ h => ⟨h.1, h.2⟩
        · exact ih (i + 1) vc

theorem flush_stays (vc : Vc) : Yields vc.Stays vc.flush := by
  unfold flush
  exact (flushFrom_stays _ 0 _).bind fun _ h => Yields.ok ⟨h.1, h.2⟩

/-! ## What moves it -/

/-- The cursor is on a screen whose dimensions are of 32 bits. -/
structure Placed (vc : Vc) : Prop extends CursorInside vc where
  width : vc.width < 2 ^ 32
  height : vc.height < 2 ^ 32

theorem Placed.stays (h : vc.Placed) (hs : vc.Stays vc') : vc'.Placed := by
  obtain ⟨hcursor, hsize⟩ := hs
  simp only [Prod.mk.injEq] at hcursor hsize
  obtain ⟨hcx, hcy, hsavedCx, hsavedCy⟩ := hcursor
  obtain ⟨hwidth, hheight⟩ := hsize
  refine ⟨⟨?_, ?_, ?_, ?_⟩, ?_, ?_⟩
  · rw [hcx, hwidth]
    exact h.cx
  · rw [hcy, hheight]
    exact h.cy
  · rw [hsavedCx, hwidth]
    exact h.savedCx
  · rw [hsavedCy, hheight]
    exact h.savedCy
  · rw [hwidth]
    exact h.width
  · rw [hheight]
    exact h.height

theorem Placed.setCursor (h : vc.Placed) {x y : ℕ} (hx : x < vc.width) (hy : y < vc.height) :
    { vc with cx := x, cy := y }.Placed :=
  ⟨⟨hx, hy, h.savedCx, h.savedCy⟩, h.width, h.height⟩

theorem Placed.linefeed (h : vc.Placed) : Yields Placed vc.linefeed := by
  unfold Vc.linefeed
  split
  next hlt => exact Yields.ok (h.setCursor h.cx hlt)
  next => exact (scrollUp_stays vc).imp fun _ => h.stays

theorem Placed.carriageReturn (h : vc.Placed) : vc.carriageReturn.Placed :=
  h.setCursor (Nat.zero_lt_of_lt h.cx) h.cy

theorem Placed.up (h : vc.Placed) (n : ℕ) : (vc.up n).Placed := by
  have hcy := h.cy
  refine h.setCursor h.cx ?_
  split <;> omega

theorem Placed.down (h : vc.Placed) (n : ℕ) : (vc.down n).Placed := by
  have hcy := h.cy
  refine h.setCursor h.cx ?_
  split
  next hlt => exact hlt
  next =>
    rw [sub32_of_le (by omega)]
    omega

theorem Placed.left (h : vc.Placed) (n : ℕ) : (vc.left n).Placed := by
  have hcx := h.cx
  refine h.setCursor ?_ h.cy
  split <;> omega

theorem Placed.right (h : vc.Placed) (n : ℕ) : (vc.right n).Placed := by
  have hcx := h.cx
  refine h.setCursor ?_ h.cy
  split
  next hlt => exact hlt
  next =>
    rw [sub32_of_le (by omega)]
    omega

theorem Placed.moveTo (h : vc.Placed) (row column : ℕ) : (vc.moveTo row column).Placed := by
  have hcx := h.cx
  have hcy := h.cy
  refine h.setCursor ?_ ?_ <;> split <;> omega

theorem Placed.csiFinal (h : vc.Placed) (fuel i : ℕ) (par : ℕ → ℕ) (c : Char) :
    Yields Placed (vc.csiFinal fuel i par c) := by
  have hstays : ∀ {x : Except Halt Vc}, Yields vc.Stays x → Yields Placed x :=
    fun hx => hx.imp fun _ => h.stays
  unfold Vc.csiFinal
  split
  · exact hstays (insertBlanks_stays _)
  · exact Yields.ok (h.up _)
  · exact Yields.ok (h.down _)
  · exact Yields.ok (h.down _)
  · exact Yields.ok (h.right _)
  · exact Yields.ok (h.right _)
  · exact Yields.ok (h.left _)
  · exact Yields.ok (h.down _).carriageReturn
  · exact Yields.ok (h.up _).carriageReturn
  · refine Yields.ok (h.setCursor ?_ h.cy)
    split
    next hlt => exact hlt
    next => exact h.cx
  · exact Yields.ok (h.moveTo _ _)
  · exact Yields.ok (h.moveTo _ _)
  · exact hstays (clearScreen_stays _)
  · exact hstays (clearLine_stays _)
  · exact hstays (linesFromCursor_stays scrollDown_stays _ _)
  · exact hstays (linesFromCursor_stays scrollUp_stays _ _)
  · exact hstays (Yields.of_forall fun _ => redraw_stays _)
  · exact hstays (redraw_stays _)
  · refine Yields.ok (h.setCursor h.cx ?_)
    split
    next hlt => exact hlt
    next => exact h.cy
  · exact hstays (setAttr_stays _ _ _ _ _ _)
  · exact Yields.ok (h.stays ⟨rfl, rfl⟩)
  · exact Yields.ok h

theorem Placed.startEscape (h : vc.Placed) (hfits : chr (mem (p + 1)) = 'H' → vc.nextTab < vc.width) :
    Yields (fun r => r.2.Placed) (vc.startEscape fuel mem p) := by
  unfold Vc.startEscape
  split
  · exact h.linefeed.bind fun _ h' => Yields.ok h'
  · exact h.linefeed.bind fun _ h' => Yields.ok h'.carriageReturn
  next hH =>
    refine Yields.ok (h.setCursor ?_ h.cy)
    rw [if_neg (Nat.not_lt.mpr (hfits hH).le)]
    exact hfits hH
  · have hcy := h.cy
    refine Yields.ok ?_
    unfold rlinefeed
    split
    next => exact h.setCursor (y := vc.cy - 1) h.cx (by omega)
    next => exact h
  · exact Yields.ok ⟨⟨h.cx, h.cy, h.cx, h.cy⟩, h.width, h.height⟩
  · exact Yields.ok (h.setCursor h.savedCx h.savedCy)
  · refine Yields.of_forall fun r => ?_
    exact (h.csiFinal fuel _ _ _).bind fun _ h' => Yields.ok h'
  · exact Yields.ok h

theorem Placed.putChar (h : vc.Placed) (c : BitVec 8) : Yields Placed (vc.putChar c) := by
  have hcx := h.cx
  have hwidth := h.width
  have hstored : { vc with scrBuf := Function.update vc.scrBuf vc.scrPos c }.Placed :=
    h.stays ⟨rfl, rfl⟩
  unfold Vc.putChar
  split
  · dsimp only
    split
    next =>
      exact (scrollUp_stays _).bind fun _ hs => Yields.ok (hstored.stays hs).carriageReturn
    next =>
      split
      next => exact hstored.carriageReturn.linefeed
      next hne =>
        rw [sub32_of_le (by omega)] at hne
        refine Yields.ok (hstored.setCursor ?_ h.cy)
        rw [Nat.mod_eq_of_lt (by omega)]
        change vc.cx + 1 < vc.width
        omega
  · exact Yields.error _

theorem Placed.writeItem (h : vc.Placed) (fuel : ℕ) (hfits : TabFits mem p vc) :
    Yields (fun r => r.2.Placed) (vc.writeItem fuel mem p) := by
  have hcx := h.cx
  unfold Vc.writeItem
  split
  next => exact Yields.ok h.carriageReturn
  next =>
    split
    next => exact h.linefeed.bind fun _ h' => Yields.ok h'
    next =>
      split
      next =>
        refine Yields.ok ?_
        change Placed (if vc.cx ≠ 0 then { vc with cx := vc.cx - 1 } else vc)
        split
        next => exact h.setCursor (x := vc.cx - 1) (by omega) h.cy
        next => exact h
      next =>
        split
        next hesc => exact h.startEscape (hfits hesc)
        next => exact (h.putChar _).bind fun _ h' => Yields.ok h'

/-- A tab stop which does not fit takes the cursor from the screen. -/
theorem writeItem_of_not_tabFits (fuel : ℕ) (h : ¬ TabFits mem p vc) :
    vc.writeItem fuel mem p = .ok (p + 1, vc.goTabStop) ∧ ¬ vc.goTabStop.CursorInside := by
  unfold TabFits at h
  push Not at h
  obtain ⟨hesc, hH, hbehind⟩ := h
  constructor
  · unfold Vc.writeItem
    rw [if_neg (by rw [hesc]; decide), if_neg (by rw [hesc]; decide),
      if_neg (by rw [hesc]; decide), if_pos hesc]
    unfold Vc.startEscape
    rw [hH]
    rfl
  · intro hinside
    have hcx := hinside.cx
    change (if vc.width < vc.nextTab then vc.width else vc.nextTab) < vc.width at hcx
    split at hcx <;> omega

/-! ## Runs -/

theorem InsideLoop.start {nr : ℤ} (h : InsideLoop mem fuel nr p vc) : vc.CursorInside := by
  cases fuel with
  | zero => exact h
  | succ fuel => exact h.1

theorem Placed.insideLoop_iff (h : vc.Placed) (fuel : ℕ) (nr : ℤ) (p : ℕ) :
    InsideLoop mem fuel nr p vc ↔ TabsLoop mem fuel nr p vc := by
  induction fuel generalizing nr p vc with
  | zero => exact iff_of_true h.toCursorInside trivial
  | succ fuel ih =>
      rw [InsideLoop, TabsLoop, and_iff_right h.toCursorInside]
      apply or_congr_right
      by_cases hfits : TabFits mem p vc
      · rw [and_iff_right hfits]
        have hplaced := h.writeItem fuel hfits
        cases hrun : vc.writeItem fuel mem p with
        | error e => exact Iff.rfl
        | ok r => exact ih (hplaced r hrun) _ _
      · obtain ⟨hrun, houtside⟩ := writeItem_of_not_tabFits fuel hfits
        rw [hrun]
        exact iff_of_false (fun hloop => houtside hloop.start) fun htabs => hfits htabs.1

theorem Placed.writeLoop (h : vc.Placed) (fuel : ℕ) (nr : ℤ) (p : ℕ)
    (htabs : TabsLoop mem fuel nr p vc) : Yields Placed (writeLoop mem fuel nr p vc) := by
  induction fuel generalizing nr p vc with
  | zero => exact Yields.error _
  | succ fuel ih =>
      rw [Vc.writeLoop]
      split
      next => exact Yields.ok h
      next hnr =>
        obtain ⟨hfits, hrest⟩ := htabs.resolve_left hnr
        have hplaced := h.writeItem fuel hfits
        cases hrun : vc.writeItem fuel mem p with
        | error e => exact Yields.error e
        | ok r =>
            rw [hrun] at hrest
            exact ih (hplaced r hrun) _ _ hrest

theorem Placed.write (h : vc.Placed) {nr : ℕ} (htabs : TabsLoop mem fuel nr 0 vc) :
    Yields Placed (vc.write fuel mem nr) := by
  refine (h.writeLoop fuel nr 0 htabs).bind fun vc' h' => ?_
  have hlast : vc'.calcLastPos.Placed := h'.stays ⟨rfl, rfl⟩
  exact (flush_stays _).imp fun _ => hlast.stays

theorem Placed.insideRun_iff (h : vc.Placed) (fuel : ℕ) (strings : List (Bytes × ℕ)) :
    InsideRun fuel strings vc ↔ TabsRun fuel strings vc := by
  induction strings generalizing vc with
  | nil => exact iff_of_true h.toCursorInside trivial
  | cons string strings ih =>
      obtain ⟨mem, nr⟩ := string
      rw [InsideRun, TabsRun, h.insideLoop_iff]
      apply and_congr_right
      intro htabs
      have hplaced := h.write htabs
      cases hrun : vc.write fuel mem nr with
      | error e => exact Iff.rfl
      | ok vc' => exact ih (hplaced vc' hrun)

/-- The cursor and the saved cursor are on the screen in every state of a run of `vc_write`
if and only if every tab stop that is taken in it is on the line. -/
theorem insideRun_init_iff (width height : BitVec 32) (hwidth : width ≠ 0) (hheight : height ≠ 0)
    (cur : Bytes) (fuel : ℕ) (strings : List (Bytes × ℕ)) :
    InsideRun fuel strings (init width.toNat height.toNat cur) ↔
      TabsRun fuel strings (init width.toNat height.toNat cur) := by
  have hw : 0 < width.toNat := Nat.pos_of_ne_zero fun h => hwidth (BitVec.eq_of_toNat_eq h)
  have hh : 0 < height.toNat := Nat.pos_of_ne_zero fun h => hheight (BitVec.eq_of_toNat_eq h)
  have hplaced : (init width.toNat height.toNat cur).Placed :=
    ⟨⟨hw, hh, hw, hh⟩, width.isLt, height.isLt⟩
  exact hplaced.insideRun_iff fuel strings

/-! ## Two strings -/

theorem SafeItem.tabFits (h : SafeItem fuel mem p vc) : TabFits mem p vc := by
  intro hesc hH
  have hkind := h hesc
  rw [hH] at hkind
  exact hkind

theorem SafeLoop.tabsLoop (fuel : ℕ) {nr : ℤ} (h : SafeLoop mem fuel nr p vc) :
    TabsLoop mem fuel nr p vc := by
  induction fuel generalizing nr p vc with
  | zero => trivial
  | succ fuel ih =>
      rw [SafeLoop] at h
      rw [TabsLoop]
      refine h.imp id fun ⟨hitem, hrest⟩ => ⟨hitem.tabFits, ?_⟩
      cases hrun : vc.writeItem fuel mem p with
      | error e => trivial
      | ok r =>
          rw [hrun] at hrest
          exact ih hrest

theorem insideRun_init_greeting :
    InsideRun 20 [(stringMem greeting, 9)] (init 80 25 fun _ => 0#8) := by
  refine (insideRun_init_iff 80 25 (by decide) (by decide) _ _ _).mpr ?_
  refine ⟨SafeLoop.tabsLoop 20 (safeLoop_of_items safeItem_greeting _ _ _ _), ?_⟩
  split
  next => trivial
  next => trivial

/-- The cursor goes to the last column, and then to the next tab stop. -/
theorem not_cursorInside_tab :
    ¬ ∀ (width height : BitVec 32) (cur : Bytes) (fuel : ℕ) (strings : List (Bytes × ℕ)) (vc : Vc),
      width ≠ 0 → height ≠ 0 → run fuel strings (init width.toNat height.toNat cur) = .ok vc →
        vc.CursorInside := by
  intro hall
  have hrun : (run 20 [(stringMem [escape, 0x5B#8, 0x31#8, 0x3B#8, 0x38#8, 0x30#8, 0x48#8, escape,
      0x48#8], 9)] (init 80 25 fun _ => 0#8)).map (fun vc => decide (vc.cx = vc.width)) =
        .ok true := by decide +kernel
  obtain ⟨vc, hvc, hcx⟩ := exists_of_map_decide hrun
  have hinside := hall 80 25 _ _ _ vc (by decide) (by decide) hvc
  exact absurd hcx hinside.cx.ne

end Vc

end Yak.Console
