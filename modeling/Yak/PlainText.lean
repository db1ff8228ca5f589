import Yak.ConsoleChunks
import Yak.ConsoleLines

/-!
# Plain text on unbounded paper

A reference which writes on rows without end, and the console which shows the last rows of it.
Each byte of a string without escape characters keeps them together: a step to another row
moves the cursor as long as there are lines below it, and then the whole screen.
-/

namespace Yak.Console

open ByteBitmap (Bytes)
open WordMemory (sub32 sub32_of_le)

/-- A sheet of a fixed width with rows 0, 1, 2, ..., and the place at which it is written. -/
structure Paper where
  row : ℕ
  col : ℕ
  text : ℕ → ℕ → BitVec 8

namespace Paper

def blank : Paper := ⟨0, 0, fun _ _ => 0#8⟩

/-- The next row, in the same column. -/
def newline (paper : Paper) : Paper := { paper with row := paper.row + 1 }

def store (paper : Paper) (b : BitVec 8) : Paper :=
  { paper with
    text := fun r c => if r = paper.row ∧ c = paper.col then b else paper.text r c }

/-- One byte of text. -/
def put (width : ℕ) (paper : Paper) (b : BitVec 8) : Paper :=
  if b = 0x0D#8 then { paper with col := 0 }
  else if b = 0x0A#8 then paper.newline
  else if b = 0x08#8 then { paper with col := paper.col - 1 }
  else if paper.col + 1 = width then { (paper.store b).newline with col := 0 }
  else { paper.store b with col := paper.col + 1 }

def write (width : ℕ) (text : List (BitVec 8)) : Paper := text.foldl (put width) blank

/-- The first row which a screen of `height` lines shows. -/
def base (paper : Paper) (height : ℕ) : ℕ := paper.row - (height - 1)

def line (paper : Paper) (width r : ℕ) : List (BitVec 8) := (List.range width).map (paper.text r)

end Paper

namespace Vc

variable {vc vc' : Vc} {paper : Paper}

/-- The screen shows the last rows of the paper, with the cursor at the place at which it is
written. -/
structure Shows (vc : Vc) (paper : Paper) : Prop where
  cx : vc.cx = paper.col
  cy : vc.cy = paper.row - paper.base vc.height
  lines : ∀ r < vc.height, vc.line r = paper.line vc.width (paper.base vc.height + r)

def SameSize (vc vc' : Vc) : Prop := (vc'.width, vc'.height) = (vc.width, vc.height)

/-- The whole screen scrolls, and the rows behind the cursor are blank on screen and paper. -/
structure Prints (vc : Vc) (paper : Paper) : Prop extends Whole vc where
  height : 0 < vc.height
  scrollTop : vc.scrollTop = 0
  scrollBottom : vc.scrollBottom = vc.height - 1
  cx : vc.cx = paper.col
  cxLt : vc.cx < vc.width
  cy : vc.cy = paper.row - paper.base vc.height
  cells : ∀ r < vc.height, ∀ c < vc.width, vc.cell r c = paper.text (paper.base vc.height + r) c
  unwritten : ∀ r > paper.row, ∀ c, paper.text r c = 0#8

theorem Prints.shows (h : vc.Prints paper) : vc.Shows paper :=
  ⟨h.cx, h.cy, fun r hr => List.map_congr_left fun c hc => h.cells r hr c (List.mem_range.mp hc)⟩

theorem Prints.region (h : vc.Prints paper) : vc.Region := by
  have hheight := h.height
  refine ⟨h.toWhole, ?_, ?_⟩
  · rw [h.scrollTop]
    exact Nat.zero_le _
  · rw [h.scrollBottom]
    omega

theorem Prints.cyLt (h : vc.Prints paper) : vc.cy < vc.height := by
  have hheight := h.height
  have hcy := h.cy
  unfold Paper.base at hcy
  omega

theorem Prints.last (h : vc.Prints paper) : sub32 vc.height 1 = vc.height - 1 :=
  sub32_of_le h.height

theorem Prints.widthLt (h : vc.Prints paper) : vc.width < 2 ^ 32 := by
  have hle : vc.width * 1 ≤ vc.width * vc.height := Nat.mul_le_mul_left _ h.height
  have hsmall := h.small
  omega

theorem Prints.lastColumn (h : vc.Prints paper) : sub32 vc.width 1 = vc.width - 1 :=
  sub32_of_le (Nat.zero_lt_of_lt h.cxLt)

theorem Prints.sameScreen (h : vc.Prints paper) (hs : vc.SameScreen vc') : vc'.Prints paper := by
  obtain ⟨curBuf, out, lastPos, newLastPos, rfl⟩ := hs.exists_eq
  exact ⟨⟨h.size, h.small⟩, h.height, h.scrollTop, h.scrollBottom, h.cx, h.cxLt, h.cy, h.cells,
    h.unwritten⟩

theorem prints_init {width height : ℕ} (hwidth : 1 ≤ width) (hheight : 1 ≤ height)
    (hsmall : width * height < 2 ^ 32) (cur : Bytes) :
    (init width height cur).Prints .blank :=
  ⟨⟨Nat.mod_eq_of_lt hsmall, hsmall⟩, hheight, rfl, sub32_of_le hheight, rfl, hwidth,
    (Nat.zero_sub _).symm, fun _ _ _ _ => rfl, fun _ _ _ => rfl⟩

/-! ## One byte -/

theorem Prints.setColumn (h : vc.Prints paper) {x : ℕ} (hx : x < vc.width) :
    { vc with cx := x }.Prints { paper with col := x } :=
  ⟨⟨h.size, h.small⟩, h.height, h.scrollTop, h.scrollBottom, rfl, hx, h.cy, h.cells, h.unwritten⟩

/-- In the last line a step to the next row moves the screen. -/
theorem Prints.scrollUp (h : vc.Prints paper) (hlast : vc.cy + 1 = vc.height) :
    ∃ vc', vc.scrollUp = .ok vc' ∧ vc.SameSize vc' ∧ vc'.Prints paper.newline := by
  obtain ⟨vc', hscroll, ⟨buf, rfl⟩, hcell⟩ := h.region.scrollUp
  have hheight := h.height
  have hcy := h.cy
  have hbase : paper.newline.base vc.height = paper.base vc.height + 1 := by
    unfold Paper.base Paper.newline at *
    dsimp only
    omega
  refine ⟨_, hscroll, rfl, ⟨h.size, h.small⟩, hheight, h.scrollTop, h.scrollBottom, h.cx, h.cxLt,
    ?_, ?_, ?_⟩
  · show vc.cy = paper.row + 1 - paper.newline.base vc.height
    omega
  · intro r hr c hc
    have hr' : r < vc.height := hr
    rw [hcell r c hc, h.scrollTop, h.scrollBottom, if_pos (by omega)]
    show _ = paper.text (paper.newline.base vc.height + r) c
    rw [hbase]
    by_cases hmoved : r + 1 ≤ vc.height - 1
    · rw [if_pos hmoved, h.cells (r + 1) (by omega) c hc]
      congr 1
      omega
    · rw [if_neg hmoved, h.unwritten _ (by omega)]
  · exact fun r hr c => h.unwritten r (Nat.lt_of_succ_lt hr) c

theorem Prints.linefeed (h : vc.Prints paper) :
    ∃ vc', vc.linefeed = .ok vc' ∧ vc.SameSize vc' ∧ vc'.Prints paper.newline := by
  have hheight := h.height
  have hcyLt := h.cyLt
  have hcy := h.cy
  have hle : vc.height * 1 ≤ vc.height * vc.width :=
    Nat.mul_le_mul_left _ (Nat.zero_lt_of_lt h.cxLt)
  have hsmall := h.small
  rw [Nat.mul_comm vc.width] at hsmall
  have hmod : (vc.cy + 1) % 2 ^ 32 = vc.cy + 1 := Nat.mod_eq_of_lt (by omega)
  unfold Vc.linefeed
  rw [hmod]
  by_cases hlast : vc.cy + 1 < vc.height
  · -- the rows on the screen stay the same
    have hbase : paper.base vc.height = 0 ∧ paper.newline.base vc.height = 0 := by
      unfold Paper.base Paper.newline at *
      dsimp only
      omega
    rw [if_pos hlast]
    refine ⟨_, rfl, rfl, ⟨h.size, h.small⟩, hheight, h.scrollTop, h.scrollBottom, h.cx, h.cxLt,
      ?_, ?_, ?_⟩
    · show vc.cy + 1 = paper.row + 1 - paper.newline.base vc.height
      omega
    · intro r hr c hc
      show vc.cell r c = paper.text (paper.newline.base vc.height + r) c
      rw [h.cells r hr c hc, hbase.1, hbase.2]
    · exact fun r hr c => h.unwritten r (Nat.lt_of_succ_lt hr) c
  · rw [if_neg hlast]
    exact h.scrollUp (by omega)

theorem Prints.store (h : vc.Prints paper) (b : BitVec 8) :
    { vc with scrBuf := Function.update vc.scrBuf vc.scrPos b }.Prints (paper.store b) := by
  have hfits := h.cyLt
  have hcxLt := h.cxLt
  have hcy := h.cy
  have hrow : vc.cy * vc.width + vc.cx < vc.height * vc.width :=
    (place_lt_iff hcxLt vc.height).mpr hfits
  have hsmall := h.small
  rw [Nat.mul_comm vc.width] at hsmall
  have hpos : vc.scrPos = vc.cy * vc.width + vc.cx := Nat.mod_eq_of_lt (by omega)
  refine ⟨⟨h.size, h.small⟩, h.height, h.scrollTop, h.scrollBottom, h.cx, h.cxLt, h.cy, ?_, ?_⟩
  · intro r hr c hc
    have hbase : (paper.store b).base vc.height = paper.base vc.height := rfl
    show Function.update vc.scrBuf vc.scrPos b (r * vc.width + c) =
      if (paper.store b).base vc.height + r = paper.row ∧ c = paper.col then b
      else paper.text ((paper.store b).base vc.height + r) c
    rw [hbase, hpos, ← h.cx]
    by_cases hplace : r = vc.cy ∧ c = vc.cx
    · obtain ⟨rfl, rfl⟩ := hplace
      rw [Function.update_self, if_pos]
      unfold Paper.base at *
      omega
    · have hrows : paper.base vc.height + r = paper.row ↔ r = vc.cy := by
        unfold Paper.base at *
        omega
      have hne : r * vc.width + c ≠ vc.cy * vc.width + vc.cx :=
        fun heq => hplace (place_inj hc hcxLt heq)
      rw [Function.update_of_ne hne, if_neg (by rwa [hrows])]
      exact h.cells r hr c hc
  · intro r hr c
    show (if r = paper.row ∧ c = paper.col then b else paper.text r c) = 0#8
    have hr' : paper.row < r := hr
    rw [if_neg (by omega)]
    exact h.unwritten r hr c

theorem Prints.putChar (h : vc.Prints paper) (b : BitVec 8) :
    ∃ vc', vc.putChar b = .ok vc' ∧ vc.SameSize vc' ∧
      vc'.Prints (if paper.col + 1 = vc.width then { (paper.store b).newline with col := 0 }
        else { paper.store b with col := paper.col + 1 }) := by
  have hcxLt := h.cxLt
  have hcyLt := h.cyLt
  have hcx := h.cx
  have hwidth := h.widthLt
  have hrow : vc.cy * vc.width + vc.cx < vc.height * vc.width :=
    (place_lt_iff hcxLt vc.height).mpr hcyLt
  have hsize := h.size
  have hsmall := h.small
  rw [Nat.mul_comm vc.width] at hsize hsmall
  have hpos : vc.scrPos = vc.cy * vc.width + vc.cx := Nat.mod_eq_of_lt (by omega)
  have hstored := h.store b
  rw [putChar_eq, if_pos (by omega)]
  unfold advance
  dsimp only
  rw [h.last, h.lastColumn]
  by_cases hcol : paper.col + 1 = vc.width
  · rw [if_pos hcol]
    by_cases hlast : vc.cy = vc.height - 1
    · -- the last column of the last line
      rw [if_pos ⟨by omega, hlast⟩]
      obtain ⟨vc', hscroll, hsame, hprints⟩ := hstored.scrollUp (by dsimp only; omega)
      rw [hscroll, ok_bind]
      exact ⟨_, rfl, hsame, hprints.setColumn (Nat.zero_lt_of_lt hprints.cxLt)⟩
    · rw [if_neg (fun hboth => hlast hboth.2), if_pos (by omega)]
      exact (hstored.setColumn (x := 0) (Nat.zero_lt_of_lt hcxLt)).linefeed
  · rw [if_neg hcol, if_neg (by omega), if_neg (by omega), Nat.mod_eq_of_lt (by omega), hcx]
    refine ⟨_, rfl, rfl, hstored.setColumn ?_⟩
    show paper.col + 1 < vc.width
    omega

/-- A byte does the same on the screen and on the paper. -/
theorem Prints.plainItem (h : vc.Prints paper) (b : BitVec 8) :
    ∃ vc', vc.plainItem b = .ok vc' ∧ vc.SameSize vc' ∧ vc'.Prints (paper.put vc.width b) := by
  have hcxLt := h.cxLt
  have hcx := h.cx
  unfold Vc.plainItem Paper.put
  by_cases hreturn : b = 0x0D#8
  · rw [if_pos hreturn, if_pos hreturn]
    exact ⟨_, rfl, rfl, h.setColumn (Nat.zero_lt_of_lt hcxLt)⟩
  rw [if_neg hreturn, if_neg hreturn]
  by_cases hnewline : b = 0x0A#8
  · rw [if_pos hnewline, if_pos hnewline]
    exact h.linefeed
  rw [if_neg hnewline, if_neg hnewline]
  by_cases hback : b = 0x08#8
  · rw [if_pos hback, if_pos hback, ← hcx]
    have hleft : (if vc.cx ≠ 0 then { vc with cx := vc.cx - 1 } else vc) =
        { vc with cx := vc.cx - 1 } := by
      split
      next => rfl
      next hzero => rw [show vc.cx - 1 = vc.cx by omega]
    rw [hleft]
    exact ⟨_, rfl, rfl, h.setColumn (x := vc.cx - 1) (by omega)⟩
  rw [if_neg hback, if_neg hback]
  exact h.putChar b

/-! ## A string -/

theorem Prints.writeLoop {mem : Bytes} {text : List (BitVec 8)} (h : vc.Prints paper)
    (hplain : ∀ b ∈ text, b ≠ escape) {fuel p : ℕ} (hmem : Holds mem p text)
    (hfuel : text.length < fuel) :
    ∃ vc', writeLoop mem fuel text.length p vc = .ok vc' ∧ vc.SameSize vc' ∧
      vc'.Prints (text.foldl (Paper.put vc.width) paper) := by
  induction text generalizing vc paper fuel p with
  | nil =>
      obtain ⟨fuel, rfl⟩ := Nat.exists_eq_add_of_le' hfuel
      exact ⟨vc, rfl, rfl, h⟩
  | cons b text ih =>
      obtain ⟨fuel, rfl⟩ := Nat.exists_eq_add_of_le' (Nat.zero_lt_of_lt hfuel)
      obtain ⟨hb, hrest⟩ := hmem
      obtain ⟨hne, hplain⟩ := List.forall_mem_cons.mp hplain
      obtain ⟨vc₁, hitem, hsame, hprints⟩ := h.plainItem b
      obtain ⟨vc', hloop, hsame', hprints'⟩ :=
        ih hprints hplain hrest (Nat.lt_of_succ_lt_succ hfuel)
      have hturn : vc.writeItem fuel mem p = .ok (p + 0, vc₁) := by
        rw [writeItem_of_plain (by rwa [hb]), hb, hitem]
        rfl
      have hrun := writeLoop_item hturn (m := text.length) hloop
      rw [Nat.zero_add, Nat.add_comm 1] at hrun
      have hwidth : vc₁.width = vc.width := congrArg Prod.fst hsame
      rw [hwidth] at hprints'
      exact ⟨vc', hrun, hsame'.trans hsame, hprints'⟩

/-- After `vc_write` of a string without escape characters the screen of a new console shows
the last rows of the paper on which the string is written. -/
theorem write_shows (width height : ℕ) (hwidth : 1 ≤ width) (hheight : 1 ≤ height)
    (hsmall : width * height < 2 ^ 32) (cur : Bytes) (text : List (BitVec 8))
    (hplain : ∀ b ∈ text, b ≠ escape) (mem : Bytes) (hmem : Holds mem 0 text) (fuel : ℕ)
    (hfuel : text.length < fuel) :
    ∃ vc', (init width height cur).write fuel mem text.length = .ok vc' ∧
      (init width height cur).SameSize vc' ∧ vc'.Shows (Paper.write width text) := by
  have hstart := prints_init hwidth hheight hsmall cur
  obtain ⟨vc₁, hloop, hsame, hprints⟩ := hstart.writeLoop hplain hmem hfuel
  have hpos : 0 < width * height := Nat.mul_pos hwidth hheight
  have hlast : (init width height cur).lastPos < (init width height cur).scrSize := by
    rw [hstart.size]
    exact hpos
  obtain ⟨vc', hwrite⟩ := write_returns hloop hlast
  obtain ⟨vc₂, hloop', hscreen, -⟩ := write_spec hwrite
  obtain rfl := Except.ok.inj (hloop.symm.trans hloop')
  refine ⟨vc', hwrite, ?_, (hprints.sameScreen hscreen).shows⟩
  have hdims : vc₁.SameSize vc' :=
    congrArg (fun size : ℕ × ℕ × ℕ => (size.1, size.2.1)) hscreen.size
  exact hdims.trans hsame

/-- `fbcon_get_dimensions`: the mode and the font are those of the frame buffer. -/
def fbconGetDimensions (modeWidth modeHeight : BitVec 16) (fontWidth fontHeight : ℕ) : ℕ × ℕ :=
  (modeWidth.toNat / fontWidth, modeHeight.toNat / fontHeight)

/-- The size of a screen does not overflow. -/
theorem fbconGetDimensions_small (modeWidth modeHeight : BitVec 16) (fontWidth fontHeight : ℕ) :
    (fbconGetDimensions modeWidth modeHeight fontWidth fontHeight).1 *
      (fbconGetDimensions modeWidth modeHeight fontWidth fontHeight).2 < 2 ^ 32 := by
  have hwidth : modeWidth.toNat / fontWidth ≤ 2 ^ 16 - 1 :=
    (Nat.div_le_self _ _).trans (Nat.le_sub_one_of_lt modeWidth.isLt)
  have hheight : modeHeight.toNat / fontHeight ≤ 2 ^ 16 - 1 :=
    (Nat.div_le_self _ _).trans (Nat.le_sub_one_of_lt modeHeight.isLt)
  exact lt_of_le_of_lt (Nat.mul_le_mul hwidth hheight) (by decide)

theorem write_shows_fbcon : ∃ vc',
    (init (fbconGetDimensions 1024 768 8 16).1 (fbconGetDimensions 1024 768 8 16).2
      fun _ => 0#8).write 4 (stringMem [0x68#8, 0x69#8, 0x0A#8]) 3 = .ok vc' ∧
    (init (fbconGetDimensions 1024 768 8 16).1 (fbconGetDimensions 1024 768 8 16).2
      fun _ => 0#8).SameSize vc' ∧
    vc'.Shows (Paper.write (fbconGetDimensions 1024 768 8 16).1 [0x68#8, 0x69#8, 0x0A#8]) :=
  write_shows _ _ (by decide) (by decide) (fbconGetDimensions_small 1024 768 8 16) _
    [0x68#8, 0x69#8, 0x0A#8] (by decide) _ (holds_stringMem _) 4 (by decide)

end Vc

end Yak.Console
