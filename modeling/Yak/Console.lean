import Yak.Halt
import Yak.WordMemory

/-!
# The virtual console

A transcription of `drivers/virtual_console.c` for one console.  The two screen
buffers have `vc_scr_size` bytes, and an access to another index is a halt, as is an
access to the parameter array of a CSI sequence at `NPAR` or behind it.  Offsets
into a buffer are computed in 32 bits, as the code does.  Calls of the low level
driver are kept in a list.
-/

namespace Yak.Console

open ByteBitmap (Bytes)
open WordMemory (sub32)

def npar : ℕ := 16
def tabStop : ℕ := 8

inductive VcAttrType where
  | none
  | rgb
  | indexedColor
  deriving DecidableEq

structure VcAttr where
  attr : BitVec 32
  fgRgb : ℕ
  bgRgb : ℕ
  fgIndexed : ℕ
  bgIndexed : ℕ
  deriving DecidableEq

/-- A call of the low level driver. -/
inductive DriverCall where
  | putc (x y : ℕ) (c : BitVec 8)
  | blank (x y : ℕ)
  | setAttr (attr : VcAttr) (type : VcAttrType)
  deriving DecidableEq

/-- `struct virtual_console`, with the calls of its driver. -/
structure Vc where
  cx : ℕ
  cy : ℕ
  savedCx : ℕ
  savedCy : ℕ
  lastPos : ℕ
  newLastPos : ℕ
  width : ℕ
  height : ℕ
  scrBuf : Bytes
  curBuf : Bytes
  scrSize : ℕ
  scrollTop : ℕ
  scrollBottom : ℕ
  attr : VcAttr
  out : List DriverCall

/-! ## Memory -/

/-- `memset` with zero, in a buffer of `size` bytes. -/
def memset (size : ℕ) (buf : Bytes) (start count : ℕ) : Except Halt Bytes :=
  if count = 0 ∨ start + count ≤ size then
    .ok fun i => if start ≤ i ∧ i < start + count then 0#8 else buf i
  else .error .outOfBounds

/-- `memmove`, in a buffer of `size` bytes. -/
def memmove (size : ℕ) (buf : Bytes) (dst src count : ℕ) : Except Halt Bytes :=
  if count = 0 ∨ (dst + count ≤ size ∧ src + count ≤ size) then
    .ok fun i => if dst ≤ i ∧ i < dst + count then buf (src + (i - dst)) else buf i
  else .error .outOfBounds

/-- The loop `while (count--) *dst-- = *src--`. -/
def copyBackward (size : ℕ) (buf : Bytes) : (count dst src : ℕ) → Except Halt Bytes
  | 0, _, _ => .ok buf
  | count + 1, dst, src =>
      if dst < size ∧ src < size then
        copyBackward size (Function.update buf dst (buf src)) count (sub32 dst 1) (sub32 src 1)
      else .error .outOfBounds

namespace Vc

/-- `SCR_POS` -/
def scrPos (vc : Vc) : ℕ := (vc.cy * vc.width + vc.cx) % 2 ^ 32

/-! ## Scrolling -/

/-- `vc_scroll_up` -/
def scrollUp (vc : Vc) : Except Halt Vc := do
  let dst := vc.scrollTop * vc.width % 2 ^ 32
  let src := (dst + vc.width) % 2 ^ 32
  let count := sub32 vc.scrollBottom vc.scrollTop * vc.width % 2 ^ 32
  let buf ← memmove vc.scrSize vc.scrBuf dst src count
  let buf ← memset vc.scrSize buf (vc.scrollBottom * vc.width % 2 ^ 32) vc.width
  .ok { vc with scrBuf := buf }

/-- `vc_scroll_down` -/
def scrollDown (vc : Vc) : Except Halt Vc := do
  let dst := sub32 ((vc.scrollBottom * vc.width + vc.width) % 2 ^ 32) 1
  let src := sub32 dst vc.width
  let count := sub32 vc.scrollBottom vc.scrollTop * vc.width % 2 ^ 32
  let buf ← copyBackward vc.scrSize vc.scrBuf count dst src
  let buf ← memset vc.scrSize buf (vc.scrollTop * vc.width % 2 ^ 32) vc.width
  .ok { vc with scrBuf := buf }

/-- The loop `while (count--)` around a routine. -/
def times (f : Vc → Except Halt Vc) : ℕ → Vc → Except Halt Vc
  | 0, vc => .ok vc
  | count + 1, vc => do
      let vc ← f vc
      times f count vc

/-- The frame which `vc_insert_lines` and `vc_delete_lines` share. -/
def linesFromCursor (f : Vc → Except Halt Vc) (vc : Vc) (count : ℕ) : Except Halt Vc := do
  let scrolled ← times f count
    { vc with scrollTop := vc.cy, scrollBottom := sub32 vc.height 1 }
  .ok { scrolled with scrollTop := vc.scrollTop, scrollBottom := vc.scrollBottom }

/-- `vc_insert_lines` -/
def insertLines (vc : Vc) (count : ℕ) : Except Halt Vc := linesFromCursor scrollDown vc count

/-- `vc_delete_lines` -/
def deleteLines (vc : Vc) (count : ℕ) : Except Halt Vc := linesFromCursor scrollUp vc count

/-! ## The cursor -/

/-- `vc_linefeed` -/
def linefeed (vc : Vc) : Except Halt Vc :=
  if (vc.cy + 1) % 2 ^ 32 < vc.height then .ok { vc with cy := (vc.cy + 1) % 2 ^ 32 }
  else vc.scrollUp

/-- `vc_rlinefeed` -/
def rlinefeed (vc : Vc) : Vc := if vc.cy ≠ 0 then { vc with cy := vc.cy - 1 } else vc

/-- `vc_carriage_return` -/
def carriageReturn (vc : Vc) : Vc := { vc with cx := 0 }

/-- The column to which `vc_tab_stop` moves at first. -/
def nextTab (vc : Vc) : ℕ := (vc.cx + (tabStop - vc.cx % tabStop)) % 2 ^ 32

/-- `vc_tab_stop` -/
def goTabStop (vc : Vc) : Vc :=
  { vc with cx := if vc.width < vc.nextTab then vc.width else vc.nextTab }

/-- `vc_save_state` -/
def saveState (vc : Vc) : Vc := { vc with savedCx := vc.cx, savedCy := vc.cy }

/-- `vc_restore_state` -/
def restoreState (vc : Vc) : Vc := { vc with cx := vc.savedCx, cy := vc.savedCy }

def up (vc : Vc) (n : ℕ) : Vc := { vc with cy := if n ≤ vc.cy then vc.cy - n else 0 }

def down (vc : Vc) (n : ℕ) : Vc :=
  { vc with
    cy := if (vc.cy + n) % 2 ^ 32 < vc.height then (vc.cy + n) % 2 ^ 32 else sub32 vc.height 1 }

def left (vc : Vc) (n : ℕ) : Vc := { vc with cx := if n ≤ vc.cx then vc.cx - n else 0 }

def right (vc : Vc) (n : ℕ) : Vc :=
  { vc with
    cx := if (vc.cx + n) % 2 ^ 32 < vc.width then (vc.cx + n) % 2 ^ 32 else sub32 vc.width 1 }

/-- CSI `H`: both coordinates count from 1. -/
def moveTo (vc : Vc) (row column : ℕ) : Vc :=
  { vc with
    cy := if 1 ≤ row ∧ row ≤ vc.height then row - 1 else vc.cy
    cx := if 1 ≤ column ∧ column ≤ vc.width then column - 1 else vc.cx }

/-! ## Characters of a line -/

/-- `vc_insert_blanks` -/
def insertBlanks (vc : Vc) (count : ℕ) : Except Halt Vc := do
  let p := vc.scrPos
  if vc.width ≤ (vc.cx + count) % 2 ^ 32 then
    let buf ← memset vc.scrSize vc.scrBuf p (sub32 vc.width vc.cx)
    .ok { vc with scrBuf := buf }
  else
    let buf ← memmove vc.scrSize vc.scrBuf ((p + count) % 2 ^ 32) p
      (sub32 (sub32 vc.width vc.cx) count)
    let buf ← memset vc.scrSize buf p count
    .ok { vc with scrBuf := buf }

/-- The count of `vc_clear_chars` and `vc_delete_chars`. -/
def clipped (vc : Vc) (count : ℕ) : ℕ := min count (sub32 vc.width vc.cx)

/-- `vc_clear_chars` -/
def clearChars (vc : Vc) (count : ℕ) : Except Halt Vc := do
  let buf ← memset vc.scrSize vc.scrBuf vc.scrPos (vc.clipped count)
  .ok { vc with scrBuf := buf }

/-- `vc_delete_chars` -/
def deleteChars (vc : Vc) (count : ℕ) : Except Halt Vc := do
  let p := vc.scrPos
  let q := (p + vc.clipped count) % 2 ^ 32
  let rest := sub32 (sub32 vc.width vc.cx) (vc.clipped count)
  let buf ← memmove vc.scrSize vc.scrBuf p q rest
  let buf ← memset vc.scrSize buf q rest
  .ok { vc with scrBuf := buf }

/-- `vc_clear_screen` -/
def clearScreen (vc : Vc) (par : ℕ) : Except Halt Vc :=
  let clear (start count : ℕ) : Except Halt Vc := do
    let buf ← memset vc.scrSize vc.scrBuf start count
    .ok { vc with scrBuf := buf }
  match par with
  | 0 => clear vc.scrPos (sub32 vc.scrSize vc.scrPos)
  | 1 => clear 0 vc.scrPos
  | 2 => clear 0 vc.scrSize
  | _ => .ok vc

/-- `vc_clear_line` -/
def clearLine (vc : Vc) (par : ℕ) : Except Halt Vc :=
  let clear (start count : ℕ) : Except Halt Vc := do
    let buf ← memset vc.scrSize vc.scrBuf start count
    .ok { vc with scrBuf := buf }
  match par with
  | 0 => clear vc.scrPos (sub32 vc.width vc.cx)
  | 1 => clear (sub32 vc.scrPos vc.cx) vc.cx
  | 2 => clear (sub32 vc.scrPos vc.cx) vc.width
  | _ => .ok vc

/-! ## Attributes -/

def vcBold : BitVec 32 := 1 <<< 0
def vcDim : BitVec 32 := 1 <<< 1
def vcItalic : BitVec 32 := 1 <<< 2
def vcUnderline : BitVec 32 := 1 <<< 4
def vcBlinking : BitVec 32 := 1 <<< 5
def vcReverse : BitVec 32 := 1 <<< 6
def vcHidden : BitVec 32 := 1 <<< 7
def vcStrikethrough : BitVec 32 := 1 <<< 8

/-- `vc_set_default_attr` -/
def setDefaultAttr (vc : Vc) : Vc :=
  let attr := { vc.attr with attr := 0, fgIndexed := 39, bgIndexed := 49 }
  { vc with attr := attr, out := vc.out ++ [.setAttr attr .indexedColor] }

def setFlags (vc : Vc) (flags : BitVec 32) : Vc :=
  { vc with attr := { vc.attr with attr := vc.attr.attr ||| flags } }

def clearFlags (vc : Vc) (flags : BitVec 32) : Vc :=
  { vc with attr := { vc.attr with attr := vc.attr.attr &&& ~~~flags } }

def setIndexed (vc : Vc) (fg : Bool) (color : ℕ) : Vc :=
  { vc with
    attr := if fg then { vc.attr with fgIndexed := color } else { vc.attr with bgIndexed := color } }

def setRgbTo (vc : Vc) (fg : Bool) (r g b : ℕ) : Vc :=
  let color := r % 256 * 65536 + g % 256 * 256 + b % 256
  { vc with
    attr := if fg then { vc.attr with fgRgb := color } else { vc.attr with bgRgb := color } }

/-- `vc_set_256` for the colour `c`. -/
def set256 (vc : Vc) (c : ℕ) (fg : Bool) : Vc × VcAttrType :=
  if c < 8 then (vc.setIndexed fg ((if fg then 30 else 40) + c), .indexedColor)
  else if c < 16 then (vc.setIndexed fg ((if fg then 90 else 100) + c - 8), .indexedColor)
  else if c < 232 then
    (vc.setRgbTo fg ((c - 16) / 36 * 85 / 2) ((c - 16) / 6 % 6 * 85 / 2) ((c - 16) % 6 * 85 / 2),
      .rgb)
  else
    let grey := (c * 10 + (2 ^ 32 - 2312)) % 2 ^ 32
    (vc.setRgbTo fg grey grey grey, .rgb)

/-- `vc_set_256_rgb`, which looks at the parameters from the second on.  The
result has the index of the parameter at which it stops. -/
def set256Rgb (vc : Vc) (par : ℕ → ℕ) (type : VcAttrType) (fg : Bool) : ℕ × Vc × VcAttrType :=
  if par 1 = 5 then (3, vc.set256 (par 2) fg)
  else if par 1 = 2 then (5, vc.setRgbTo fg (par 2) (par 3) (par 4), .rgb)
  else (1, vc, type)

/-- The switch of `vc_set_attr`. -/
def setAttrFlag (vc : Vc) : ℕ → Option Vc
  | 0 => some vc.setDefaultAttr
  | 1 => some (vc.setFlags vcBold)
  | 2 => some (vc.setFlags vcDim)
  | 3 => some (vc.setFlags vcItalic)
  | 4 => some (vc.setFlags vcUnderline)
  | 5 => some (vc.setFlags vcBlinking)
  | 7 => some (vc.setFlags vcReverse)
  | 8 => some (vc.setFlags vcHidden)
  | 9 => some (vc.setFlags vcStrikethrough)
  | 22 => some ((vc.clearFlags vcBold).clearFlags vcDim)
  | 23 => some (vc.clearFlags vcItalic)
  | 24 => some (vc.clearFlags vcUnderline)
  | 25 => some (vc.clearFlags vcBlinking)
  | 27 => some (vc.clearFlags vcReverse)
  | 28 => some (vc.clearFlags vcHidden)
  | 29 => some (vc.clearFlags vcStrikethrough)
  | _ => none

/-- The loop of `vc_set_attr` at parameter `p`. -/
def setAttr (par : ℕ → ℕ) (len : ℕ) : (fuel p : ℕ) → VcAttrType → Vc → Except Halt Vc
  | 0, _, _, _ => .error .endless
  | fuel + 1, p, type, vc =>
      if len ≤ p then .ok { vc with out := vc.out ++ [.setAttr vc.attr type] }
      else if npar ≤ p then .error .outOfBounds
      else if par p = 38 ∨ par p = 48 then
        match vc.set256Rgb par type (par p = 38) with
        | (q, vc, type) => setAttr par len fuel (q + 1) type vc
      else if (30 ≤ par p ∧ par p ≤ 39) ∨ (90 ≤ par p ∧ par p ≤ 97) then
        setAttr par len fuel (p + 1) .indexedColor (vc.setIndexed true (par 0))
      else if (40 ≤ par p ∧ par p ≤ 49) ∨ (100 ≤ par p ∧ par p ≤ 107) then
        setAttr par len fuel (p + 1) .indexedColor (vc.setIndexed false (par 0))
      else
        match vc.setAttrFlag (par p) with
        | none => .ok vc
        | some vc => setAttr par len fuel (p + 1) type vc

/-! ## Escape sequences -/

def chr (b : BitVec 8) : Char := Char.ofNat b.toNat

def IsDigit (b : BitVec 8) : Prop := 48 ≤ b.toNat ∧ b.toNat ≤ 57

instance (b : BitVec 8) : Decidable (IsDigit b) := inferInstanceAs (Decidable (_ ∧ _))

/-- The loop of `vc_csi_escape` which reads the parameters.  The result has the
place of the final byte, the index of the last parameter, and the parameters. -/
def csiPars (mem : Bytes) : (fuel p i : ℕ) → (ℕ → ℕ) → Except Halt (ℕ × ℕ × (ℕ → ℕ))
  | 0, _, _, _ => .error .endless
  | fuel + 1, p, i, par =>
      if IsDigit (mem p) then
        if npar ≤ i then .error .outOfBounds
        else csiPars mem fuel (p + 1) i
          (Function.update par i ((10 * par i + ((mem p).toNat - 48)) % 2 ^ 32))
      else if chr (mem p) = ';' then csiPars mem fuel (p + 1) (i + 1) par
      else .ok (p, i, par)

/-- The switch of `vc_csi_escape` at the final byte. -/
def csiFinal (fuel : ℕ) (vc : Vc) (i : ℕ) (par : ℕ → ℕ) : Char → Except Halt Vc
  | '@' => vc.insertBlanks (par 0)
  | 'A' => .ok (vc.up (par 0))
  | 'e' | 'B' => .ok (vc.down (par 0))
  | 'a' | 'C' => .ok (vc.right (par 0))
  | 'D' => .ok (vc.left (par 0))
  | 'E' => .ok (vc.down (par 0)).carriageReturn
  | 'F' => .ok (vc.up (par 0)).carriageReturn
  | 'G' => .ok { vc with cx := if par 0 < vc.width then par 0 else vc.cx }
  | 'f' | 'H' => .ok (vc.moveTo (par 0) (par 1))
  | 'J' => vc.clearScreen (par 0)
  | 'K' => vc.clearLine (par 0)
  | 'L' => vc.insertLines (par 0)
  | 'M' => vc.deleteLines (par 0)
  | 'P' => vc.deleteChars (par 0)
  | 'X' => vc.clearChars (par 0)
  | 'd' => .ok { vc with cy := if par 0 < vc.height then par 0 else vc.cy }
  | 'm' => setAttr par (i + 1) fuel 0 .none vc
  | 'r' => .ok { vc with scrollTop := par 0, scrollBottom := par 1 }
  | _ => .ok vc

/-- `vc_csi_escape` -/
def csiEscape (fuel : ℕ) (mem : Bytes) (p : ℕ) (vc : Vc) : Except Halt (ℕ × Vc) := do
  let (q, i, par) ← csiPars mem fuel p 0 fun _ => 0
  let vc ← vc.csiFinal fuel i par (chr (mem q))
  .ok (q, vc)

/-- `vc_start_escape` at the escape character. -/
def startEscape (fuel : ℕ) (mem : Bytes) (p : ℕ) (vc : Vc) : Except Halt (ℕ × Vc) :=
  match chr (mem (p + 1)) with
  | 'D' => do
      let vc ← vc.linefeed
      .ok (p + 1, vc)
  | 'E' => do
      let vc ← vc.linefeed
      .ok (p + 1, vc.carriageReturn)
  | 'H' => .ok (p + 1, vc.goTabStop)
  | 'M' => .ok (p + 1, vc.rlinefeed)
  | '7' => .ok (p + 1, vc.saveState)
  | '8' => .ok (p + 1, vc.restoreState)
  | '[' => vc.csiEscape fuel mem (p + 2)
  | _ => .ok (p + 1, vc)

/-! ## `vc_write` -/

/-- A character which is stored on the screen. -/
def putChar (vc : Vc) (c : BitVec 8) : Except Halt Vc :=
  if vc.scrPos < vc.scrSize then
    let vc := { vc with scrBuf := Function.update vc.scrBuf vc.scrPos c }
    if vc.cx = sub32 vc.width 1 ∧ vc.cy = sub32 vc.height 1 then do
      let vc ← vc.scrollUp
      .ok { vc with cx := 0 }
    else if vc.cx = sub32 vc.width 1 then vc.carriageReturn.linefeed
    else .ok { vc with cx := (vc.cx + 1) % 2 ^ 32 }
  else .error .outOfBounds

def escape : BitVec 8 := 0x1B#8

/-- One turn of the loop of `vc_write`, with the place of the last byte used. -/
def writeItem (fuel : ℕ) (mem : Bytes) (p : ℕ) (vc : Vc) : Except Halt (ℕ × Vc) :=
  if mem p = 0x0D#8 then .ok (p, vc.carriageReturn)
  else if mem p = 0x0A#8 then do
    let vc ← vc.linefeed
    .ok (p, vc)
  else if mem p = 0x08#8 then .ok (p, if vc.cx ≠ 0 then { vc with cx := vc.cx - 1 } else vc)
  else if mem p = escape then vc.startEscape fuel mem p
  else do
    let vc ← vc.putChar (mem p)
    .ok (p, vc)

/-- The loop of `vc_write`.  The number of bytes left becomes negative when an
escape sequence goes beyond the end, and then the loop goes on. -/
def writeLoop (mem : Bytes) : (fuel : ℕ) → (nr : ℤ) → (p : ℕ) → Vc → Except Halt Vc
  | 0, _, _, _ => .error .endless
  | fuel + 1, nr, p, vc =>
      if nr = 0 then .ok vc
      else do
        let (q, vc) ← vc.writeItem fuel mem p
        writeLoop mem fuel (nr - 1 - (q - p)) (q + 1) vc

/-- `vc_calc_last_pos` -/
def calcLastPos (vc : Vc) : Vc :=
  { vc with
    newLastPos := (List.range vc.scrSize).foldl (fun last i => if vc.scrBuf i ≠ 0#8 then i else last) 0 }

/-- The loop of `vc_flush`, with `count` positions to go from `i` on. -/
def flushFrom (vc : Vc) : (count i : ℕ) → Except Halt Vc
  | 0, _ => .ok vc
  | count + 1, i =>
      if vc.scrSize ≤ i then .error .outOfBounds
      else if vc.scrBuf i ≠ vc.curBuf i then
        flushFrom
          { vc with
            curBuf := Function.update vc.curBuf i (vc.scrBuf i)
            out := vc.out ++
              [if vc.scrBuf i = 0#8 then .blank (i % vc.width) (i / vc.width)
              else .putc (i % vc.width) (i / vc.width) (vc.scrBuf i)] }
          count (i + 1)
      else flushFrom vc count (i + 1)

/-- `vc_flush` -/
def flush (vc : Vc) : Except Halt Vc := do
  let vc := { vc with lastPos := max vc.lastPos vc.newLastPos }
  let vc ← vc.flushFrom (vc.lastPos + 1) 0
  .ok { vc with lastPos := min vc.lastPos vc.newLastPos }

/-- `vc_write` for `nr` bytes; the bytes behind them are what memory holds there. -/
def write (fuel : ℕ) (mem : Bytes) (nr : ℕ) (vc : Vc) : Except Halt Vc := do
  let vc ← writeLoop mem fuel nr 0 vc
  vc.calcLastPos.flush

/-- What `vc_init` makes of a console: the second buffer is left as it comes from
the allocator. -/
def init (width height : ℕ) (cur : Bytes) : Vc :=
  setDefaultAttr
    { cx := 0, cy := 0, savedCx := 0, savedCy := 0, lastPos := 0, newLastPos := 0
      width := width, height := height, scrBuf := fun _ => 0#8, curBuf := cur
      scrSize := width * height % 2 ^ 32, scrollTop := 0, scrollBottom := sub32 height 1
      attr := ⟨0, 0, 0, 0, 0⟩, out := [] }

end Vc

end Yak.Console
