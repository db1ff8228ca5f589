import Yak.ConsoleSafety

/-!
# Redrawing the console

`vc_flush` compares the screen with what is shown only up to the last position which is in
use on either of them.  Behind it both are zero, so the redraw is complete.
-/

namespace Yak.Console

open ByteBitmap (Bytes)

namespace Vc

/-! ## What the items of a string can change -/

/-- A relation between the console before and after, which holds across every single change
that `vc_write` makes before it redraws. -/
structure Carried (R : Vc → Vc → Prop) : Prop where
  refl : ∀ vc, R vc vc
  trans : ∀ vc vc' vc'', R vc vc' → R vc' vc'' → R vc vc''
  buf : ∀ vc buf, R vc { vc with scrBuf := buf }
  cursor : ∀ vc x y, R vc { vc with cx := x, cy := y }
  saved : ∀ vc x y, R vc { vc with savedCx := x, savedCy := y }
  margins : ∀ vc top bottom, R vc { vc with scrollTop := top, scrollBottom := bottom }
  attr : ∀ vc attr, R vc { vc with attr := attr }
  call : ∀ vc attr type, R vc { vc with out := vc.out ++ [.setAttr attr type] }

namespace Carried

variable {R : Vc → Vc → Prop} (h : Carried R) {vc vc' : Vc} {x : Except Halt Vc}
include h

theorem step (hx : Yields (R vc') x) (hfirst : R vc vc') : Yields (R vc) x :=
  hx.imp fun _ => h.trans _ _ _ hfirst

theorem bind {f : Vc → Except Halt Vc} (hx : Yields (R vc) x)
    (hf : ∀ vc', Yields (R vc') (f vc')) : Yields (R vc) (x >>= f) :=
  hx.bind fun vc' hfirst => h.step (hf vc') hfirst

theorem redraw (vc : Vc) (x : Except Halt Bytes) :
    Yields (R vc) (x >>= fun buf => .ok { vc with scrBuf := buf }) :=
  Yields.of_forall fun _ => Yields.ok (h.buf vc _)

theorem scrollUp (vc : Vc) : Yields (R vc) vc.scrollUp := Yields.of_forall fun _ => h.redraw vc _

theorem scrollDown (vc : Vc) : Yields (R vc) vc.scrollDown :=
  Yields.of_forall fun _ => h.redraw vc _

theorem times {f : Vc → Except Halt Vc} (hf : ∀ vc, Yields (R vc) (f vc)) (count : ℕ) (vc : Vc) :
    Yields (R vc) (times f count vc) := by
  induction count generalizing vc with
  | zero => exact Yields.ok (h.refl vc)
  | succ count ih => exact h.bind (hf vc) ih

theorem linesFromCursor {f : Vc → Except Halt Vc} (hf : ∀ vc, Yields (R vc) (f vc)) (vc : Vc)
    (count : ℕ) : Yields (R vc) (linesFromCursor f vc count) := by
  unfold Vc.linesFromCursor
  apply h.bind _ fun vc' => Yields.ok (h.margins vc' _ _)
  exact h.step (h.times hf count _) (h.margins vc _ _)

theorem insertBlanks (vc : Vc) (count : ℕ) : Yields (R vc) (vc.insertBlanks count) := by
  unfold Vc.insertBlanks
  dsimp only
  split
  next => exact h.redraw vc _
  next => exact Yields.of_forall fun _ => h.redraw vc _

theorem clearScreen (vc : Vc) (par : ℕ) : Yields (R vc) (vc.clearScreen par) := by
  unfold Vc.clearScreen
  dsimp only
  split
  next => exact h.redraw vc _
  next => exact h.redraw vc _
  next => exact h.redraw vc _
  next => exact Yields.ok (h.refl vc)

theorem clearLine (vc : Vc) (par : ℕ) : Yields (R vc) (vc.clearLine par) := by
  unfold Vc.clearLine
  dsimp only
  split
  next => exact h.redraw vc _
  next => exact h.redraw vc _
  next => exact h.redraw vc _
  next => exact Yields.ok (h.refl vc)

theorem linefeed (vc : Vc) : Yields (R vc) vc.linefeed := by
  unfold Vc.linefeed
  split
  next => exact Yields.ok (h.cursor vc _ _)
  next => exact h.scrollUp vc

theorem setDefaultAttr (vc : Vc) : R vc vc.setDefaultAttr :=
  h.trans _ _ _ (h.attr vc { vc.attr with attr := 0, fgIndexed := 39, bgIndexed := 49 })
    (h.call _ _ _)

theorem setAttrFlag {n : ℕ} (hflag : vc.setAttrFlag n = some vc') : R vc vc' := by
  unfold Vc.setAttrFlag at hflag
  split at hflag
  next =>
    obtain rfl := Option.some.inj hflag
    exact h.setDefaultAttr vc
  all_goals first
    | cases hflag; done
    | obtain rfl := Option.some.inj hflag
      exact h.attr vc _

theorem set256Rgb (vc : Vc) (par : ℕ → ℕ) (type : VcAttrType) (fg : Bool) :
    R vc (vc.set256Rgb par type fg).2.1 := by
  unfold Vc.set256Rgb Vc.set256
  dsimp only
  split_ifs <;> exact h.attr vc _

theorem setAttr (par : ℕ → ℕ) (len fuel p : ℕ) (type : VcAttrType) (vc : Vc) :
    Yields (R vc) (Vc.setAttr par len fuel p type vc) := by
  induction fuel generalizing p type vc with
  | zero => exact Yields.error _
  | succ fuel ih =>
      rw [Vc.setAttr]
      split
      next => exact Yields.ok (h.call vc _ _)
      next =>
        split
        next => exact Yields.error _
        next =>
          split
          next => exact h.step (ih _ _ _) (h.set256Rgb vc par type _)
          next =>
            split
            next => exact h.step (ih _ _ _) (h.attr vc _)
            next =>
              split
              next => exact h.step (ih _ _ _) (h.attr vc _)
              next =>
                split
                next => exact Yields.ok (h.refl vc)
                next hflag => exact h.step (ih _ _ _) (h.setAttrFlag hflag)

theorem csiFinal (fuel : ℕ) (vc : Vc) (i : ℕ) (par : ℕ → ℕ) (c : Char) :
    Yields (R vc) (vc.csiFinal fuel i par c) := by
  unfold Vc.csiFinal
  split
  next => exact h.insertBlanks vc _
  next => exact Yields.ok (h.cursor vc _ _)
  next => exact Yields.ok (h.cursor vc _ _)
  next => exact Yields.ok (h.cursor vc _ _)
  next => exact Yields.ok (h.cursor vc _ _)
  next => exact Yields.ok (h.cursor vc _ _)
  next => exact Yields.ok (h.cursor vc _ _)
  next => exact Yields.ok (h.cursor vc _ _)
  next => exact Yields.ok (h.cursor vc _ _)
  next => exact Yields.ok (h.cursor vc _ _)
  next => exact Yields.ok (h.cursor vc _ _)
  next => exact Yields.ok (h.cursor vc _ _)
  next => exact h.clearScreen vc _
  next => exact h.clearLine vc _
  next => exact h.linesFromCursor h.scrollDown vc _
  next => exact h.linesFromCursor h.scrollUp vc _
  next => exact Yields.of_forall fun _ => h.redraw vc _
  next => exact h.redraw vc _
  next => exact Yields.ok (h.cursor vc _ _)
  next => exact h.setAttr _ _ _ _ _ _
  next => exact Yields.ok (h.margins vc _ _)
  next => exact Yields.ok (h.refl vc)

theorem startEscape (fuel : ℕ) (mem : Bytes) (p : ℕ) (vc : Vc) :
    Yields (fun r => R vc r.2) (vc.startEscape fuel mem p) := by
  unfold Vc.startEscape
  split
  next => exact (h.linefeed vc).bind fun _ h' => Yields.ok h'
  next =>
    exact (h.linefeed vc).bind fun _ h' => Yields.ok (h.trans _ _ _ h' (h.cursor _ _ _))
  next => exact Yields.ok (h.cursor vc _ _)
  next =>
    unfold rlinefeed
    split
    next => exact Yields.ok (h.cursor vc _ _)
    next => exact Yields.ok (h.refl vc)
  next => exact Yields.ok (h.saved vc _ _)
  next => exact Yields.ok (h.cursor vc _ _)
  next =>
    refine Yields.of_forall fun r => ?_
    exact (h.csiFinal fuel vc _ _ _).bind fun _ h' => Yields.ok h'
  next => exact Yields.ok (h.refl vc)

theorem putChar (vc : Vc) (c : BitVec 8) : Yields (R vc) (vc.putChar c) := by
  unfold Vc.putChar
  split
  next =>
    have hstored := h.buf vc (Function.update vc.scrBuf vc.scrPos c)
    dsimp only
    split
    next =>
      refine h.step (h.bind (h.scrollUp _) fun vc' => ?_) hstored
      exact Yields.ok (h.cursor vc' _ _)
    next =>
      split
      next => exact h.step (h.linefeed _) (h.trans _ _ _ hstored (h.cursor _ _ _))
      next => exact Yields.ok (h.trans _ _ _ hstored (h.cursor _ _ _))
  next => exact Yields.error _

theorem writeItem (fuel : ℕ) (mem : Bytes) (p : ℕ) (vc : Vc) :
    Yields (fun r => R vc r.2) (vc.writeItem fuel mem p) := by
  unfold Vc.writeItem
  split
  next => exact Yields.ok (h.cursor vc _ _)
  next =>
    split
    next => exact (h.linefeed vc).bind fun _ h' => Yields.ok h'
    next =>
      split
      next =>
        refine Yields.ok ?_
        dsimp only
        split
        next => exact h.cursor vc _ _
        next => exact h.refl vc
      next =>
        split
        next => exact h.startEscape fuel mem p vc
        next => exact (h.putChar vc _).bind fun _ h' => Yields.ok h'

/-- What every item carries over, a string does. -/
theorem writeLoop (mem : Bytes) (fuel : ℕ) (nr : ℤ) (p : ℕ) (vc : Vc) :
    Yields (R vc) (Vc.writeLoop mem fuel nr p vc) := by
  induction fuel generalizing nr p vc with
  | zero => exact Yields.error _
  | succ fuel ih =>
      rw [Vc.writeLoop]
      split
      next => exact Yields.ok (h.refl vc)
      next =>
        refine Yields.bind (h.writeItem fuel mem p vc) ?_
        rintro ⟨q, vc'⟩ hfirst
        exact h.step (ih _ _ vc') hfirst

end Carried

/-! ## The cells of the display -/

/-- What the display holds in each column and row. -/
abbrev Cells := ℕ → ℕ → BitVec 8

/-- The driver stores a cell, or zero. -/
def drawCall (cells : Cells) : DriverCall → Cells
  | .putc x y c => fun x' y' => if x' = x ∧ y' = y then c else cells x' y'
  | .blank x y => fun x' y' => if x' = x ∧ y' = y then 0#8 else cells x' y'
  | .setAttr _ _ => cells

/-- The display after all calls of the driver, if at first it held `cells`. -/
def drawn (cells : Cells) (out : List DriverCall) : Cells := out.foldl drawCall cells

/-- The cell of a position of the screen. -/
def drawnAt (vc : Vc) (cells : Cells) (i : ℕ) : BitVec 8 :=
  drawn cells vc.out (i % vc.width) (i / vc.width)

theorem drawn_append (cells : Cells) (out : List DriverCall) (call : DriverCall) :
    drawn cells (out ++ [call]) = drawCall (drawn cells out) call := List.foldl_concat ..

/-- The display shows the second buffer, and behind the last position both buffers are
zero. -/
structure Shown (vc : Vc) (cells : Cells) : Prop where
  drawn : ∀ i < vc.scrSize, vc.drawnAt cells i = vc.curBuf i
  scrBuf : ∀ i < vc.scrSize, vc.lastPos < i → vc.scrBuf i = 0#8
  curBuf : ∀ i < vc.scrSize, vc.lastPos < i → vc.curBuf i = 0#8

/-- The display shows the screen. -/
structure UpToDate (vc : Vc) (cells : Cells) : Prop extends Shown vc cells where
  same : ∀ i < vc.scrSize, vc.curBuf i = vc.scrBuf i
  shows : ∀ i < vc.scrSize, vc.drawnAt cells i = vc.scrBuf i

/-! ## Up to the redraw -/

/-- The console still has the display and the last position which it had. -/
structure SameDisplay (vc vc' : Vc) : Prop where
  scrSize : vc'.scrSize = vc.scrSize
  width : vc'.width = vc.width
  lastPos : vc'.lastPos = vc.lastPos
  curBuf : vc'.curBuf = vc.curBuf
  drawn : ∀ cells, drawn cells vc'.out = drawn cells vc.out

theorem sameDisplay_carried : Carried SameDisplay where
  refl _ := ⟨rfl, rfl, rfl, rfl, fun _ => rfl⟩
  trans _ _ _ h h' :=
    ⟨h'.scrSize.trans h.scrSize, h'.width.trans h.width, h'.lastPos.trans h.lastPos,
      h'.curBuf.trans h.curBuf, fun cells => (h'.drawn cells).trans (h.drawn cells)⟩
  buf _ _ := ⟨rfl, rfl, rfl, rfl, fun _ => rfl⟩
  cursor _ _ _ := ⟨rfl, rfl, rfl, rfl, fun _ => rfl⟩
  saved _ _ _ := ⟨rfl, rfl, rfl, rfl, fun _ => rfl⟩
  margins _ _ _ := ⟨rfl, rfl, rfl, rfl, fun _ => rfl⟩
  attr _ _ := ⟨rfl, rfl, rfl, rfl, fun _ => rfl⟩
  call _ _ _ := ⟨rfl, rfl, rfl, rfl, fun cells => drawn_append cells _ _⟩

theorem SameDisplay.drawnAt {vc vc' : Vc} (h : SameDisplay vc vc') (cells : Cells) (i : ℕ) :
    vc'.drawnAt cells i = vc.drawnAt cells i := by
  unfold Vc.drawnAt
  rw [h.drawn, h.width]

/-! ## The last position -/

/-- The index of the last byte which is not zero, or zero. -/
def lastNonzero (buf : Bytes) (count : ℕ) : ℕ :=
  (List.range count).foldl (fun last i => if buf i ≠ 0#8 then i else last) 0

theorem lastNonzero_succ (buf : Bytes) (count : ℕ) :
    lastNonzero buf (count + 1) = if buf count ≠ 0#8 then count else lastNonzero buf count := by
  unfold lastNonzero
  rw [List.range_succ, List.foldl_concat]

theorem lastNonzero_le (buf : Bytes) (count : ℕ) : lastNonzero buf count ≤ count - 1 := by
  induction count with
  | zero => exact le_refl 0
  | succ count ih =>
      rw [lastNonzero_succ]
      split
      next => exact le_refl count
      next => omega

theorem zero_of_lastNonzero_lt {buf : Bytes} {count i : ℕ} (hi : i < count)
    (hlast : lastNonzero buf count < i) : buf i = 0#8 := by
  induction count with
  | zero => exact absurd hi (Nat.not_lt_zero i)
  | succ count ih =>
      rw [lastNonzero_succ] at hlast
      split at hlast
      next => omega
      next hzero =>
        obtain hlt | rfl := Nat.lt_succ_iff_lt_or_eq.mp hi
        · exact ih hlt hlast
        · exact not_not.mp hzero

/-! ## The redraw -/

/-- The loop has come to position `i`: up to there the display shows the screen. -/
structure Flushed (vc vc' : Vc) (cells : Cells) (i : ℕ) : Prop where
  screen : vc' = { vc with curBuf := vc'.curBuf, out := vc'.out }
  drawn : (∀ j < vc.scrSize, vc.drawnAt cells j = vc.curBuf j) →
    ∀ j < vc.scrSize, vc'.drawnAt cells j = vc'.curBuf j
  done : ∀ j < i, vc'.curBuf j = vc.scrBuf j
  rest : ∀ j, i ≤ j → vc'.curBuf j = vc.curBuf j

theorem flushed_start (vc : Vc) (cells : Cells) : Flushed vc vc cells 0 where
  screen := rfl
  drawn := id
  done j hj := absurd hj (Nat.not_lt_zero j)
  rest _ _ := rfl

/-- One turn of the loop of `vc_flush`. -/
def flushAt (vc : Vc) (i : ℕ) : Vc :=
  if vc.scrBuf i ≠ vc.curBuf i then
    { vc with
      curBuf := Function.update vc.curBuf i (vc.scrBuf i)
      out := vc.out ++
        [if vc.scrBuf i = 0#8 then .blank (i % vc.width) (i / vc.width)
        else .putc (i % vc.width) (i / vc.width) (vc.scrBuf i)] }
  else vc

theorem flushFrom_succ {vc : Vc} {count i : ℕ} (hi : i < vc.scrSize) :
    vc.flushFrom (count + 1) i = (vc.flushAt i).flushFrom count (i + 1) := by
  rw [flushFrom, if_neg (not_le.mpr hi)]
  unfold flushAt
  split <;> rfl

theorem flushAt_scrSize (vc : Vc) (i : ℕ) : (vc.flushAt i).scrSize = vc.scrSize := by
  unfold flushAt
  split <;> rfl

theorem sameCell {width i j : ℕ} (hx : i % width = j % width) (hy : i / width = j / width) :
    i = j := by
  rw [← Nat.div_add_mod i width, hx, hy, Nat.div_add_mod]

theorem drawn_flushAt {vc : Vc} {i : ℕ} (cells : Cells) (hdiff : vc.scrBuf i ≠ vc.curBuf i)
    (j : ℕ) : (vc.flushAt i).drawnAt cells j =
      if j = i then vc.scrBuf i else vc.drawnAt cells j := by
  have hcell : (j % vc.width = i % vc.width ∧ j / vc.width = i / vc.width) ↔ j = i := by
    constructor
    · rintro ⟨hx, hy⟩
      exact sameCell hx hy
    · rintro rfl
      exact ⟨rfl, rfl⟩
  unfold drawnAt flushAt
  rw [if_pos hdiff]
  dsimp only
  rw [drawn_append]
  by_cases hzero : vc.scrBuf i = 0#8
  · rw [if_pos hzero, hzero]
    simp only [drawCall, hcell]
  · rw [if_neg hzero]
    simp only [drawCall, hcell]

theorem Flushed.flushAt {vc vc' : Vc} {cells : Cells} {i : ℕ} (h : Flushed vc vc' cells i) :
    Flushed vc (vc'.flushAt i) cells (i + 1) := by
  have hscr : vc'.scrBuf = vc.scrBuf := by rw [h.screen]
  by_cases hdiff : vc'.scrBuf i ≠ vc'.curBuf i
  · have hturn : (vc'.flushAt i).curBuf = Function.update vc'.curBuf i (vc'.scrBuf i) := by
      unfold Vc.flushAt
      rw [if_pos hdiff]
    constructor
    · rw [Vc.flushAt, if_pos hdiff, h.screen]
    · intro hstart j hj
      rw [drawn_flushAt cells hdiff, hturn, Function.update_apply]
      split
      next => rfl
      next => exact h.drawn hstart j hj
    · intro j hj
      rw [hturn, Function.update_apply, hscr]
      split
      next heq => rw [heq]
      next hne => exact h.done j (by omega)
    · intro j hj
      rw [hturn, Function.update_of_ne (by omega)]
      exact h.rest j (by omega)
  · have hturn : vc'.flushAt i = vc' := if_neg hdiff
    rw [hturn]
    refine ⟨h.screen, h.drawn, ?_, fun j hj => h.rest j (by omega)⟩
    intro j hj
    obtain hlt | rfl := Nat.lt_succ_iff_lt_or_eq.mp hj
    · exact h.done j hlt
    · rw [← not_not.mp hdiff, hscr]

theorem Flushed.flushFrom {vc vc' : Vc} {cells : Cells} {count i : ℕ}
    (h : Flushed vc vc' cells i) (hend : i + count ≤ vc.scrSize) :
    ∃ vc'', vc'.flushFrom count i = .ok vc'' ∧ Flushed vc vc'' cells (i + count) := by
  induction count generalizing vc' i with
  | zero => exact ⟨vc', rfl, h⟩
  | succ count ih =>
      have hsize : vc'.scrSize = vc.scrSize := by rw [h.screen]
      rw [flushFrom_succ (by omega), Nat.add_comm count 1, ← Nat.add_assoc]
      exact ih h.flushAt (by omega)

theorem flushFrom_le {vc vc' : Vc} {count i : ℕ} (hcount : 0 < count)
    (h : vc.flushFrom count i = .ok vc') : i + count ≤ vc.scrSize := by
  induction count generalizing vc i with
  | zero => exact absurd hcount (lt_irrefl 0)
  | succ count ih =>
      by_cases hi : vc.scrSize ≤ i
      · rw [Vc.flushFrom, if_pos hi] at h
        cases h
      · rw [flushFrom_succ (not_le.mp hi)] at h
        obtain rfl | hpos := Nat.eq_zero_or_pos count
        · omega
        · have hle := ih hpos h
          rw [flushAt_scrSize] at hle
          omega

/-! ## The last position bounds both buffers -/

/-- What the redraw finds. -/
structure Pending (vc : Vc) (cells : Cells) : Prop where
  drawn : ∀ i < vc.scrSize, vc.drawnAt cells i = vc.curBuf i
  scrBuf : ∀ i < vc.scrSize, vc.newLastPos < i → vc.scrBuf i = 0#8
  curBuf : ∀ i < vc.scrSize, vc.lastPos < i → vc.curBuf i = 0#8
  newLastPos : vc.newLastPos ≤ vc.scrSize - 1

theorem Shown.pending {vc vc' : Vc} {cells : Cells} (h : Shown vc cells)
    (hsame : SameDisplay vc vc') : Pending vc'.calcLastPos cells where
  drawn i hi := by
    have hi' : i < vc.scrSize := hsame.scrSize ▸ hi
    have hdrawn : vc'.drawnAt cells i = vc'.curBuf i := by
      rw [hsame.drawnAt, hsame.curBuf, h.drawn i hi']
    exact hdrawn
  scrBuf i hi hlast := zero_of_lastNonzero_lt hi hlast
  curBuf i hi hlast := by
    have hi' : i < vc.scrSize := hsame.scrSize ▸ hi
    have hlast' : vc.lastPos < i := hsame.lastPos ▸ hlast
    have hzero : vc'.curBuf i = 0#8 := by rw [hsame.curBuf, h.curBuf i hi' hlast']
    exact hzero
  newLastPos := lastNonzero_le vc'.scrBuf vc'.scrSize

theorem Pending.widen {vc : Vc} {cells : Cells} (h : Pending vc cells) :
    Pending { vc with lastPos := max vc.lastPos vc.newLastPos } cells :=
  ⟨h.drawn, h.scrBuf, fun i hi hlast => h.curBuf i hi (lt_of_le_of_lt (le_max_left _ _) hlast),
    h.newLastPos⟩

theorem Pending.upToDate {vc vc' : Vc} {cells : Cells} (h : Pending vc cells)
    (hle : vc.newLastPos ≤ vc.lastPos) (hf : Flushed vc vc' cells (vc.lastPos + 1)) :
    UpToDate { vc' with lastPos := min vc'.lastPos vc'.newLastPos } cells := by
  have hsize : vc'.scrSize = vc.scrSize := by rw [hf.screen]
  have hscr : vc'.scrBuf = vc.scrBuf := by rw [hf.screen]
  have hmin : min vc'.lastPos vc'.newLastPos = vc.newLastPos := by
    rw [hf.screen]
    exact min_eq_right hle
  have hsame : ∀ i < vc'.scrSize, vc'.curBuf i = vc'.scrBuf i := by
    intro i hi
    by_cases hlast : i ≤ vc.lastPos
    · rw [hf.done i (by omega), hscr]
    · -- behind both last positions there is nothing to copy
      rw [hf.rest i (by omega), hscr, h.curBuf i (by omega) (by omega),
        h.scrBuf i (by omega) (by omega)]
  have hdrawn : ∀ i < vc'.scrSize, vc'.drawnAt cells i = vc'.curBuf i :=
    fun i hi => hf.drawn h.drawn i (by omega)
  have hzero : ∀ i < vc'.scrSize, vc.newLastPos < i → vc'.scrBuf i = 0#8 := by
    intro i hi hlast
    rw [hscr, h.scrBuf i (by omega) hlast]
  rw [hmin]
  exact
    { drawn := hdrawn
      scrBuf := hzero
      curBuf := fun i hi hlast => (hsame i hi).trans (hzero i hi hlast)
      same := hsame
      shows := fun i hi => (hdrawn i hi).trans (hsame i hi) }

/-- The redraw returns if the last positions are on the screen, and only then. -/
theorem flush_spec (vc : Vc) (cells : Cells) :
    (max vc.lastPos vc.newLastPos < vc.scrSize → ∃ vc', vc.flush = .ok vc') ∧
      Yields (fun vc' => max vc.lastPos vc.newLastPos < vc.scrSize ∧ ∃ vc₁,
        Flushed { vc with lastPos := max vc.lastPos vc.newLastPos } vc₁ cells
            (max vc.lastPos vc.newLastPos + 1) ∧
          vc' = { vc₁ with lastPos := min vc₁.lastPos vc₁.newLastPos }) vc.flush := by
  have hstart := flushed_start { vc with lastPos := max vc.lastPos vc.newLastPos } cells
  have hrun := fun hend =>
    @Flushed.flushFrom _ _ _ (max vc.lastPos vc.newLastPos + 1) _ hstart hend
  simp only [Nat.zero_add] at hrun
  constructor
  · intro hlast
    obtain ⟨vc', hvc', -⟩ := hrun (show max vc.lastPos vc.newLastPos + 1 ≤ vc.scrSize from hlast)
    exact ⟨_, bind_eq_ok.mpr ⟨vc', hvc', rfl⟩⟩
  · intro vc'' hvc''
    obtain ⟨vc', hvc', hend⟩ := bind_eq_ok.mp hvc''
    have hle := flushFrom_le (Nat.succ_pos _) hvc'
    rw [Nat.zero_add] at hle
    obtain ⟨vc₁, hvc₁, hf⟩ := hrun hle
    obtain rfl := Except.ok.inj (hvc₁.symm.trans hvc')
    exact ⟨hle, vc₁, hf, (Except.ok.inj hend).symm⟩

theorem Pending.flush {vc : Vc} {cells : Cells} (h : Pending vc cells) :
    (vc.lastPos < vc.scrSize → ∃ vc', vc.flush = .ok vc') ∧
      Yields (fun vc' => UpToDate vc' cells) vc.flush := by
  have hnew := h.newLastPos
  obtain ⟨hreturns, hflushed⟩ := flush_spec vc cells
  refine ⟨fun hlast => hreturns (by omega), hflushed.imp ?_⟩
  rintro vc' ⟨-, vc₁, hf, rfl⟩
  exact h.widen.upToDate (le_max_right _ _) hf

/-- If the display shows the second buffer and nothing is behind the last position, then the
redraw after a string does not fail, and it makes the display show the whole screen. -/
theorem flush_upToDate {vc vc₁ : Vc} {cells : Cells} {fuel nr : ℕ} {mem : Bytes}
    (h : Shown vc cells) (hloop : writeLoop mem fuel nr 0 vc = .ok vc₁) :
    (vc.lastPos < vc.scrSize → ∃ vc', vc₁.calcLastPos.flush = .ok vc') ∧
      ∀ vc', vc₁.calcLastPos.flush = .ok vc' → UpToDate vc' cells := by
  have hsame : SameDisplay vc vc₁ := sameDisplay_carried.writeLoop mem fuel nr 0 vc vc₁ hloop
  obtain ⟨hreturns, hdone⟩ := (h.pending hsame).flush
  refine ⟨fun hlast => hreturns ?_, hdone⟩
  have hlast' : vc₁.lastPos < vc₁.scrSize := by rwa [hsame.lastPos, hsame.scrSize]
  exact hlast'

theorem shown_init (width height : ℕ) :
    Shown (init width height fun _ => 0#8) fun _ _ => 0#8 where
  drawn _ _ := rfl
  scrBuf _ _ _ := rfl
  curBuf _ _ _ := rfl

theorem flush_upToDate_greeting : ∃ vc', write 20 (stringMem greeting) 9
    (init 8 2 fun _ => 0#8) = .ok vc' ∧ UpToDate vc' fun _ _ => 0#8 := by
  have hrun : (writeLoop (stringMem greeting) 20 9 0 (init 8 2 fun _ => 0#8)).map
      (fun vc => decide (vc.lastPos = 0)) = .ok true := by decide +kernel
  obtain ⟨vc₁, hloop, -⟩ := exists_of_map_decide hrun
  obtain ⟨hreturns, hdone⟩ := flush_upToDate (shown_init 8 2) hloop
  obtain ⟨vc', hvc'⟩ := hreturns (by decide)
  exact ⟨vc', bind_eq_ok.mpr ⟨vc₁, hloop, hvc'⟩, hdone vc' hvc'⟩

/-- The display is up to date after every string of a run. -/
theorem run_shown {vc vc' : Vc} {cells : Cells} {fuel : ℕ} {strings : List (Bytes × ℕ)}
    (h : Shown vc cells) (hrun : run fuel strings vc = .ok vc') : Shown vc' cells := by
  induction strings generalizing vc with
  | nil => exact Except.ok.inj hrun ▸ h
  | cons string strings ih =>
      obtain ⟨vc₂, hwrite, hrest⟩ := bind_eq_ok.mp hrun
      obtain ⟨vc₁, hloop, hflush⟩ := bind_eq_ok.mp hwrite
      have hsame := sameDisplay_carried.writeLoop _ _ _ _ _ _ hloop
      exact ih ((h.pending hsame).flush.2 vc₂ hflush).toShown hrest

end Vc

end Yak.Console
