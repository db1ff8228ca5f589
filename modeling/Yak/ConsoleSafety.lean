import Yak.Console

/-!
# Memory safety of the console

A cursor on the screen and margins on the screen are enough for every routine of
the console to stay inside the screen buffer.  Five things break this: a tab stop
at or behind the right edge, margins which `CSI r` takes as they come, a count of
`CSI @` which overflows when the column is added, more parameters than the array
has, and a screen of more than `2 ^ 32` cells.
-/

namespace Yak.Console

open ByteBitmap (Bytes)
open WordMemory (sub32 sub32_of_le)

namespace Vc

variable {vc : Vc}

/-- Cursor, saved cursor and margins are on the screen. -/
structure InRange (vc : Vc) : Prop where
  size : vc.scrSize = vc.width * vc.height
  small : vc.width * vc.height < 2 ^ 32
  cx : vc.cx < vc.width
  cy : vc.cy < vc.height
  savedCx : vc.savedCx < vc.width
  savedCy : vc.savedCy < vc.height
  margins : vc.scrollTop ≤ vc.scrollBottom
  bottom : vc.scrollBottom < vc.height
  lastPos : vc.lastPos < vc.scrSize
  newLastPos : vc.newLastPos < vc.scrSize

/-! ## What is asked of escape sequences -/

/-- Every digit comes before there are sixteen separators. -/
def DigitsFit (mem : Bytes) : (fuel p i : ℕ) → Prop
  | 0, _, _ => True
  | fuel + 1, p, i =>
      if IsDigit (mem p) then i < npar ∧ DigitsFit mem fuel (p + 1) i
      else if chr (mem p) = ';' then DigitsFit mem fuel (p + 1) (i + 1)
      else True

def SafeCsi (vc : Vc) (i : ℕ) (par : ℕ → ℕ) : Char → Prop
  | '@' => vc.cx + par 0 < 2 ^ 32
  | 'm' => i < npar
  | 'r' => par 0 ≤ par 1 ∧ par 1 < vc.height
  | _ => True

/-- The item at `p` is none of those which break the console. -/
def SafeItem (fuel : ℕ) (mem : Bytes) (p : ℕ) (vc : Vc) : Prop :=
  mem p = escape →
    match chr (mem (p + 1)) with
    | 'H' => vc.nextTab < vc.width
    | '[' => DigitsFit mem fuel (p + 2) 0 ∧
        ∀ q i par, csiPars mem fuel (p + 2) 0 (fun _ => 0) = .ok (q, i, par) →
          SafeCsi vc i par (chr (mem q))
    | _ => True

/-- All items which `vc_write` comes to are safe. -/
def SafeLoop (mem : Bytes) : (fuel : ℕ) → (nr : ℤ) → (p : ℕ) → Vc → Prop
  | 0, _, _, _ => True
  | fuel + 1, nr, p, vc =>
      nr = 0 ∨
        SafeItem fuel mem p vc ∧
          match vc.writeItem fuel mem p with
          | .ok (q, vc) => SafeLoop mem fuel (nr - 1 - (q - p)) (q + 1) vc
          | .error _ => True

/-- The strings of a run: the memory at the head of the queue, and how many bytes
of it belong to the string. -/
def run (fuel : ℕ) : List (Bytes × ℕ) → Vc → Except Halt Vc
  | [], vc => .ok vc
  | (mem, nr) :: strings, vc => do
      let vc ← vc.write fuel mem nr
      run fuel strings vc

def SafeRun (fuel : ℕ) : List (Bytes × ℕ) → Vc → Prop
  | [], _ => True
  | (mem, nr) :: strings, vc =>
      SafeLoop mem fuel nr 0 vc ∧
        match vc.write fuel mem nr with
        | .ok vc => SafeRun fuel strings vc
        | .error _ => True

/-- However long it runs, no access is outside the screen buffer or the parameter
array. -/
def MemorySafe (vc : Vc) (strings : List (Bytes × ℕ)) : Prop :=
  ∀ fuel, run fuel strings vc ≠ .error .outOfBounds

/-! ## Positions -/

theorem InRange.setBuf (h : vc.InRange) (buf : Bytes) : { vc with scrBuf := buf }.InRange :=
  ⟨h.size, h.small, h.cx, h.cy, h.savedCx, h.savedCy, h.margins, h.bottom, h.lastPos, h.newLastPos⟩

theorem InRange.row_end (h : vc.InRange) {row : ℕ} (hrow : row < vc.height) :
    row * vc.width + vc.width ≤ vc.scrSize := by
  have hle : (row + 1) * vc.width ≤ vc.height * vc.width := Nat.mul_le_mul_right _ hrow
  rw [h.size, Nat.mul_comm vc.width]
  rw [Nat.succ_mul] at hle
  exact hle

theorem InRange.scrSize_lt (h : vc.InRange) : vc.scrSize < 2 ^ 32 := by
  rw [h.size]
  exact h.small

theorem InRange.scrPos_eq (h : vc.InRange) : vc.scrPos = vc.cy * vc.width + vc.cx := by
  have hrow := h.row_end h.cy
  have hsize := h.scrSize_lt
  have hcx := h.cx
  unfold scrPos
  rw [Nat.mod_eq_of_lt (by omega)]

theorem InRange.width_lt (h : vc.InRange) : vc.width < 2 ^ 32 := by
  have hrow := h.row_end h.cy
  have hsize := h.scrSize_lt
  omega

end Vc

theorem memset_inBounds {size start count : ℕ} (buf : Bytes)
    (h : count = 0 ∨ start + count ≤ size) :
    InBounds (fun _ => True) (memset size buf start count) := by
  unfold memset
  rw [if_pos h]
  trivial

theorem memmove_inBounds {size dst src count : ℕ} (buf : Bytes)
    (h : count = 0 ∨ dst + count ≤ size ∧ src + count ≤ size) :
    InBounds (fun _ => True) (memmove size buf dst src count) := by
  unfold memmove
  rw [if_pos h]
  trivial

theorem copyBackward_inBounds {size count dst src : ℕ} (buf : Bytes)
    (hdst : count = 0 ∨ dst < size ∧ count ≤ dst + 1)
    (hsrc : count = 0 ∨ src < size ∧ count ≤ src + 1) :
    InBounds (fun _ => True) (copyBackward size buf count dst src) := by
  induction count generalizing buf dst src with
  | zero => trivial
  | succ count ih =>
      have hd : dst < size ∧ count + 1 ≤ dst + 1 := hdst.resolve_left (Nat.succ_ne_zero _)
      have hs : src < size ∧ count + 1 ≤ src + 1 := hsrc.resolve_left (Nat.succ_ne_zero _)
      rw [copyBackward, if_pos ⟨hd.1, hs.1⟩]
      apply ih
      · by_cases hzero : count = 0
        · exact Or.inl hzero
        · rw [sub32_of_le (by omega)]
          omega
      · by_cases hzero : count = 0
        · exact Or.inl hzero
        · rw [sub32_of_le (by omega)]
          omega

namespace Vc

variable {vc : Vc}

/-- Nothing changes but the screen buffer. -/
def Redrawn (vc vc' : Vc) : Prop := ∃ buf, vc' = { vc with scrBuf := buf }

theorem InRange.redrawn {vc' : Vc} (h : vc.InRange) (hr : vc.Redrawn vc') : vc'.InRange := by
  obtain ⟨buf, rfl⟩ := hr
  exact h.setBuf buf

theorem redrawn_of_memset {size start count : ℕ} {buf : Bytes}
    (h : count = 0 ∨ start + count ≤ size) :
    InBounds vc.Redrawn (do
      let buf ← memset size buf start count
      .ok { vc with scrBuf := buf }) := by
  apply (memset_inBounds buf h).bind
  intro buf' _
  exact ⟨buf', rfl⟩

/-! ## Scrolling -/

theorem InRange.lines_eq (h : vc.InRange) :
    sub32 vc.scrollBottom vc.scrollTop * vc.width % 2 ^ 32 + vc.scrollTop * vc.width =
      vc.scrollBottom * vc.width := by
  have hrow := h.row_end h.bottom
  have hsize := h.scrSize_lt
  have hsplit : (vc.scrollBottom - vc.scrollTop) * vc.width + vc.scrollTop * vc.width =
      vc.scrollBottom * vc.width := by
    rw [← Nat.add_mul, Nat.sub_add_cancel h.margins]
  rw [sub32_of_le h.margins, Nat.mod_eq_of_lt (by omega)]
  exact hsplit

theorem InRange.scrollUp (h : vc.InRange) : InBounds vc.Redrawn vc.scrollUp := by
  have hrow := h.row_end h.bottom
  have hsize := h.scrSize_lt
  have hlines := h.lines_eq
  have htop : vc.scrollTop * vc.width % 2 ^ 32 = vc.scrollTop * vc.width :=
    Nat.mod_eq_of_lt (by omega)
  have hbottom : vc.scrollBottom * vc.width % 2 ^ 32 = vc.scrollBottom * vc.width :=
    Nat.mod_eq_of_lt (by omega)
  have hsrc : (vc.scrollTop * vc.width + vc.width) % 2 ^ 32 =
      vc.scrollTop * vc.width + vc.width := Nat.mod_eq_of_lt (by omega)
  unfold Vc.scrollUp
  dsimp only
  rw [htop, hbottom, hsrc]
  refine InBounds.bind (memmove_inBounds _ ?_) fun _ _ => redrawn_of_memset ?_
  · omega
  · omega

theorem InRange.scrollDown (h : vc.InRange) : InBounds vc.Redrawn vc.scrollDown := by
  have hrow := h.row_end h.bottom
  have hsize := h.scrSize_lt
  have hlines := h.lines_eq
  have hcx := h.cx
  have htop : vc.scrollTop * vc.width % 2 ^ 32 = vc.scrollTop * vc.width :=
    Nat.mod_eq_of_lt (by omega)
  have hend : (vc.scrollBottom * vc.width + vc.width) % 2 ^ 32 =
      vc.scrollBottom * vc.width + vc.width := Nat.mod_eq_of_lt (by omega)
  unfold Vc.scrollDown
  dsimp only
  rw [htop, hend, sub32_of_le (a := vc.scrollBottom * vc.width + vc.width) (by omega)]
  generalize sub32 vc.scrollBottom vc.scrollTop * vc.width % 2 ^ 32 = count at hlines ⊢
  refine InBounds.bind (copyBackward_inBounds _ ?_ ?_) fun _ _ => redrawn_of_memset ?_
  · omega
  · by_cases hzero : count = 0
    · exact Or.inl hzero
    · -- there is a line above the last one of the region
      have hline : vc.width ≤ vc.scrollBottom * vc.width := by
        apply Nat.le_mul_of_pos_left
        apply Nat.pos_of_ne_zero
        intro h0
        rw [h0, Nat.zero_mul] at hlines
        omega
      rw [sub32_of_le (by omega)]
      omega
  · omega

theorem times_redrawn {f : Vc → Except Halt Vc}
    (hf : ∀ vc : Vc, vc.InRange → InBounds vc.Redrawn (f vc)) (count : ℕ) (h : vc.InRange) :
    InBounds vc.Redrawn (times f count vc) := by
  induction count generalizing vc with
  | zero => exact ⟨vc.scrBuf, rfl⟩
  | succ count ih =>
      rw [times]
      apply (hf vc h).bind
      rintro vc' ⟨buf, rfl⟩
      apply (ih (h.setBuf buf)).imp
      rintro vc' ⟨buf', rfl⟩
      exact ⟨buf', rfl⟩

theorem linesFromCursor_redrawn {f : Vc → Except Halt Vc}
    (hf : ∀ vc : Vc, vc.InRange → InBounds vc.Redrawn (f vc)) (count : ℕ) (h : vc.InRange) :
    InBounds vc.Redrawn (linesFromCursor f vc count) := by
  have hcy := h.cy
  have hlast : sub32 vc.height 1 = vc.height - 1 := sub32_of_le (by omega)
  have hregion : { vc with scrollTop := vc.cy, scrollBottom := sub32 vc.height 1 }.InRange := by
    refine ⟨h.size, h.small, h.cx, h.cy, h.savedCx, h.savedCy, ?_, ?_, h.lastPos, h.newLastPos⟩
    · dsimp only
      omega
    · dsimp only
      omega
  unfold linesFromCursor
  apply (times_redrawn hf count hregion).bind
  rintro vc' ⟨buf, rfl⟩
  exact ⟨buf, rfl⟩

/-! ## The cursor -/

theorem InRange.setCursor (h : vc.InRange) {x y : ℕ} (hx : x < vc.width) (hy : y < vc.height) :
    { vc with cx := x, cy := y }.InRange :=
  ⟨h.size, h.small, hx, hy, h.savedCx, h.savedCy, h.margins, h.bottom, h.lastPos, h.newLastPos⟩

theorem InRange.linefeed (h : vc.InRange) : InBounds InRange vc.linefeed := by
  unfold Vc.linefeed
  split
  next hlt => exact h.setCursor h.cx hlt
  next => exact h.scrollUp.imp fun _ => h.redrawn

theorem InRange.carriageReturn (h : vc.InRange) : vc.carriageReturn.InRange := by
  have hcx := h.cx
  exact h.setCursor (x := 0) (by omega) h.cy

theorem InRange.up (h : vc.InRange) (n : ℕ) : (vc.up n).InRange := by
  have hcy := h.cy
  refine h.setCursor h.cx ?_
  split
  next => omega
  next => omega

theorem InRange.down (h : vc.InRange) (n : ℕ) : (vc.down n).InRange := by
  have hcy := h.cy
  refine h.setCursor h.cx ?_
  split
  next hlt => exact hlt
  next =>
    rw [sub32_of_le (by omega)]
    omega

theorem InRange.left (h : vc.InRange) (n : ℕ) : (vc.left n).InRange := by
  have hcx := h.cx
  refine h.setCursor ?_ h.cy
  split
  next => omega
  next => omega

theorem InRange.right (h : vc.InRange) (n : ℕ) : (vc.right n).InRange := by
  have hcx := h.cx
  refine h.setCursor ?_ h.cy
  split
  next hlt => exact hlt
  next =>
    rw [sub32_of_le (by omega)]
    omega

theorem InRange.moveTo (h : vc.InRange) (row column : ℕ) : (vc.moveTo row column).InRange := by
  have hcx := h.cx
  have hcy := h.cy
  refine h.setCursor ?_ ?_
  · split
    next => omega
    next => exact hcx
  · split
    next => omega
    next => exact hcy

/-! ## Characters of a line -/

theorem InRange.insertBlanks (h : vc.InRange) {count : ℕ} (hcount : vc.cx + count < 2 ^ 32) :
    InBounds vc.Redrawn (vc.insertBlanks count) := by
  have hrow := h.row_end h.cy
  have hsize := h.scrSize_lt
  have hcx := h.cx
  have hpos := h.scrPos_eq
  unfold Vc.insertBlanks
  dsimp only
  rw [Nat.mod_eq_of_lt hcount, sub32_of_le hcx.le]
  split
  next => exact redrawn_of_memset (by omega)
  next hfit =>
    rw [sub32_of_le (by omega), Nat.mod_eq_of_lt (by omega)]
    exact InBounds.bind (memmove_inBounds _ (by omega)) fun _ _ => redrawn_of_memset (by omega)

theorem InRange.clipped_le (h : vc.InRange) (count : ℕ) :
    vc.clipped count ≤ vc.width - vc.cx := by
  unfold clipped
  rw [sub32_of_le h.cx.le]
  exact min_le_right _ _

theorem InRange.clearChars (h : vc.InRange) (count : ℕ) :
    InBounds vc.Redrawn (vc.clearChars count) := by
  have hrow := h.row_end h.cy
  have hcx := h.cx
  have hpos := h.scrPos_eq
  have hclip := h.clipped_le count
  exact redrawn_of_memset (by omega)

theorem InRange.deleteChars (h : vc.InRange) (count : ℕ) :
    InBounds vc.Redrawn (vc.deleteChars count) := by
  have hrow := h.row_end h.cy
  have hsize := h.scrSize_lt
  have hcx := h.cx
  have hpos := h.scrPos_eq
  have hclip := h.clipped_le count
  unfold Vc.deleteChars
  dsimp only
  rw [sub32_of_le hcx.le, sub32_of_le hclip, Nat.mod_eq_of_lt (by omega)]
  exact InBounds.bind (memmove_inBounds _ (by omega)) fun _ _ => redrawn_of_memset (by omega)

theorem InRange.clearScreen (h : vc.InRange) (par : ℕ) :
    InBounds vc.Redrawn (vc.clearScreen par) := by
  have hrow := h.row_end h.cy
  have hcx := h.cx
  have hpos := h.scrPos_eq
  unfold Vc.clearScreen
  dsimp only
  split
  next =>
    rw [sub32_of_le (by omega)]
    exact redrawn_of_memset (by omega)
  next => exact redrawn_of_memset (by omega)
  next => exact redrawn_of_memset (by omega)
  next => exact ⟨vc.scrBuf, rfl⟩

theorem InRange.clearLine (h : vc.InRange) (par : ℕ) :
    InBounds vc.Redrawn (vc.clearLine par) := by
  have hrow := h.row_end h.cy
  have hcx := h.cx
  have hpos := h.scrPos_eq
  unfold Vc.clearLine
  dsimp only
  split
  next =>
    rw [sub32_of_le hcx.le]
    exact redrawn_of_memset (by omega)
  next =>
    rw [sub32_of_le (by omega)]
    exact redrawn_of_memset (by omega)
  next =>
    rw [sub32_of_le (by omega)]
    exact redrawn_of_memset (by omega)
  next => exact ⟨vc.scrBuf, rfl⟩

/-! ## Escape sequences -/

theorem InRange.setAttrFields (h : vc.InRange) (attr : VcAttr) (out : List DriverCall) :
    { vc with attr := attr, out := out }.InRange :=
  ⟨h.size, h.small, h.cx, h.cy, h.savedCx, h.savedCy, h.margins, h.bottom, h.lastPos, h.newLastPos⟩

theorem InRange.set256Rgb (h : vc.InRange) (par : ℕ → ℕ) (type : VcAttrType) (fg : Bool) :
    (vc.set256Rgb par type fg).2.1.InRange := by
  unfold Vc.set256Rgb Vc.set256
  split
  next =>
    dsimp only
    split
    next => exact h.setAttrFields _ _
    next =>
      split
      next => exact h.setAttrFields _ _
      next =>
        split
        next => exact h.setAttrFields _ _
        next => exact h.setAttrFields _ _
  next =>
    split
    next => exact h.setAttrFields _ _
    next => exact h

theorem InRange.setAttrFlag (h : vc.InRange) {n : ℕ} {vc' : Vc} (hvc : vc.setAttrFlag n = some vc') :
    vc'.InRange := by
  unfold Vc.setAttrFlag at hvc
  split at hvc
  all_goals first
    | cases hvc; done
    | obtain rfl := Option.some.inj hvc
      exact h.setAttrFields _ _

theorem InRange.setAttr {par : ℕ → ℕ} {len : ℕ} (hlen : len ≤ npar) (fuel p : ℕ)
    (type : VcAttrType) (h : vc.InRange) : InBounds InRange (setAttr par len fuel p type vc) := by
  induction fuel generalizing p type vc with
  | zero => exact nofun
  | succ fuel ih =>
      rw [Vc.setAttr]
      split
      next => exact h.setAttrFields _ _
      next hp =>
        rw [if_neg (by omega)]
        split
        next => exact ih _ _ (h.set256Rgb par type _)
        next =>
          split
          next => exact ih _ _ (h.setAttrFields _ _)
          next =>
            split
            next => exact ih _ _ (h.setAttrFields _ _)
            next =>
              split
              next => exact h
              next hflag => exact ih _ _ (h.setAttrFlag hflag)

theorem csiPars_inBounds {mem : Bytes} {fuel p i : ℕ} {par : ℕ → ℕ}
    (h : DigitsFit mem fuel p i) : InBounds (fun _ => True) (csiPars mem fuel p i par) := by
  induction fuel generalizing p i par with
  | zero => exact nofun
  | succ fuel ih =>
      rw [DigitsFit] at h
      rw [csiPars]
      split
      next hdigit =>
        rw [if_pos hdigit] at h
        rw [if_neg (by omega)]
        exact ih h.2
      next hdigit =>
        rw [if_neg hdigit] at h
        split
        next hsep =>
          rw [if_pos hsep] at h
          exact ih h
        next => trivial

theorem InRange.csiFinal (h : vc.InRange) (fuel i : ℕ) (par : ℕ → ℕ) (c : Char)
    (hsafe : SafeCsi vc i par c) : InBounds InRange (vc.csiFinal fuel i par c) := by
  have hredraw : ∀ {x : Except Halt Vc}, InBounds vc.Redrawn x → InBounds InRange x :=
    fun hx => hx.imp fun _ => h.redrawn
  unfold Vc.csiFinal
  split
  · exact hredraw (h.insertBlanks hsafe)
  · exact h.up _
  · exact h.down _
  · exact h.down _
  · exact h.right _
  · exact h.right _
  · exact h.left _
  · exact (h.down _).carriageReturn
  · exact (h.up _).carriageReturn
  · refine h.setCursor ?_ h.cy
    split
    next hlt => exact hlt
    next => exact h.cx
  · exact h.moveTo _ _
  · exact h.moveTo _ _
  · exact hredraw (h.clearScreen _)
  · exact hredraw (h.clearLine _)
  · exact hredraw (linesFromCursor_redrawn (fun _ => InRange.scrollDown) _ h)
  · exact hredraw (linesFromCursor_redrawn (fun _ => InRange.scrollUp) _ h)
  · exact hredraw (h.deleteChars _)
  · exact hredraw (h.clearChars _)
  · refine h.setCursor h.cx ?_
    split
    next hlt => exact hlt
    next => exact h.cy
  · exact InRange.setAttr (Nat.succ_le_of_lt hsafe) fuel 0 .none h
  · exact ⟨h.size, h.small, h.cx, h.cy, h.savedCx, h.savedCy, hsafe.1, hsafe.2, h.lastPos,
      h.newLastPos⟩
  · exact h

theorem InRange.csiEscape (h : vc.InRange) {fuel p : ℕ} {mem : Bytes}
    (hfit : DigitsFit mem fuel p 0)
    (hsafe : ∀ q i par, csiPars mem fuel p 0 (fun _ => 0) = .ok (q, i, par) →
      SafeCsi vc i par (chr (mem q))) :
    InBounds (fun r => r.2.InRange) (vc.csiEscape fuel mem p) := by
  unfold Vc.csiEscape
  have hpars : InBounds (fun _ => True) (csiPars mem fuel p 0 fun _ => 0) :=
    csiPars_inBounds hfit
  cases hrun : csiPars mem fuel p 0 (fun _ => 0) with
  | error e =>
      rw [hrun] at hpars
      exact hpars
  | ok r =>
      obtain ⟨q, i, par⟩ := r
      rw [ok_bind]
      apply (h.csiFinal fuel i par _ (hsafe q i par hrun)).bind
      intro vc' h'
      exact h'

theorem InRange.startEscape (h : vc.InRange) {fuel p : ℕ} {mem : Bytes} (hesc : mem p = escape)
    (hsafe : SafeItem fuel mem p vc) :
    InBounds (fun r => r.2.InRange) (vc.startEscape fuel mem p) := by
  have hkind := hsafe hesc
  unfold Vc.startEscape
  split
  · exact h.linefeed.bind fun _ h' => h'
  · exact h.linefeed.bind fun _ h' => h'.carriageReturn
  next hH =>
    rw [hH] at hkind
    refine h.setCursor ?_ h.cy
    rw [if_neg (Nat.not_lt.mpr (le_of_lt hkind))]
    exact hkind
  · have hcy := h.cy
    unfold rlinefeed
    split
    next => exact h.setCursor (y := vc.cy - 1) h.cx (by omega)
    next => exact h
  · exact ⟨h.size, h.small, h.cx, h.cy, h.cx, h.cy, h.margins, h.bottom, h.lastPos, h.newLastPos⟩
  · exact h.setCursor h.savedCx h.savedCy
  next hcsi =>
    rw [hcsi] at hkind
    exact h.csiEscape hkind.1 hkind.2
  · exact h

/-! ## `vc_write` -/

theorem InRange.putChar (h : vc.InRange) (c : BitVec 8) : InBounds InRange (vc.putChar c) := by
  have hrow := h.row_end h.cy
  have hsize := h.scrSize_lt
  have hcx := h.cx
  have hpos := h.scrPos_eq
  have hwidth := h.width_lt
  have hstored := h.setBuf (Function.update vc.scrBuf vc.scrPos c)
  unfold Vc.putChar
  rw [if_pos (by omega)]
  dsimp only
  split
  next =>
    apply hstored.scrollUp.bind
    intro vc' hredrawn
    have h' := hstored.redrawn hredrawn
    exact h'.carriageReturn
  next =>
    split
    next => exact hstored.carriageReturn.linefeed
    next hne =>
      rw [sub32_of_le (by omega)] at hne
      refine hstored.setCursor ?_ h.cy
      rw [Nat.mod_eq_of_lt (by omega)]
      have hne' : vc.cx ≠ vc.width - 1 := hne
      show vc.cx + 1 < vc.width
      omega

theorem InRange.writeItem (h : vc.InRange) {fuel p : ℕ} {mem : Bytes}
    (hsafe : SafeItem fuel mem p vc) :
    InBounds (fun r => r.2.InRange) (vc.writeItem fuel mem p) := by
  have hcx := h.cx
  unfold Vc.writeItem
  split
  next => exact h.carriageReturn
  next =>
    split
    next => exact h.linefeed.bind fun _ h' => h'
    next =>
      split
      next =>
        show InRange (if vc.cx ≠ 0 then { vc with cx := vc.cx - 1 } else vc)
        split
        next => exact h.setCursor (x := vc.cx - 1) (by omega) h.cy
        next => exact h
      next =>
        split
        next hesc => exact h.startEscape hesc hsafe
        next => exact (h.putChar _).bind fun _ h' => h'

theorem InRange.writeLoop {mem : Bytes} (fuel : ℕ) (nr : ℤ) (p : ℕ) (h : vc.InRange)
    (hsafe : SafeLoop mem fuel nr p vc) : InBounds InRange (writeLoop mem fuel nr p vc) := by
  induction fuel generalizing nr p vc with
  | zero => exact nofun
  | succ fuel ih =>
      rw [Vc.writeLoop]
      split
      next => exact h
      next hnr =>
        obtain ⟨hitem, hrest⟩ := hsafe.resolve_left hnr
        have hbounds := h.writeItem hitem
        cases hrun : vc.writeItem fuel mem p with
        | error e =>
            rw [hrun] at hbounds
            exact hbounds
        | ok r =>
            obtain ⟨q, vc'⟩ := r
            rw [hrun] at hbounds hrest
            exact ih _ _ hbounds hrest

theorem foldl_last_lt {n : ℕ} (buf : Bytes) (is : List ℕ) (his : ∀ i ∈ is, i < n) {last : ℕ}
    (hlast : last < n) :
    is.foldl (fun last i => if buf i ≠ 0#8 then i else last) last < n := by
  induction is generalizing last with
  | nil => exact hlast
  | cons i is ih =>
      rw [List.foldl_cons]
      apply ih fun j hj => his j (List.mem_cons_of_mem i hj)
      split
      next => exact his i List.mem_cons_self
      next => exact hlast

theorem InRange.calcLastPos (h : vc.InRange) : vc.calcLastPos.InRange := by
  have hpos : 0 < vc.scrSize := Nat.zero_lt_of_lt h.lastPos
  refine ⟨h.size, h.small, h.cx, h.cy, h.savedCx, h.savedCy, h.margins, h.bottom, h.lastPos, ?_⟩
  exact foldl_last_lt _ _ (fun _ hi => List.mem_range.mp hi) hpos

theorem flushFrom_inBounds (count i : ℕ) (hi : i + count ≤ vc.scrSize) :
    InBounds (fun vc' => ∃ cur out, vc' = { vc with curBuf := cur, out := out })
      (vc.flushFrom count i) := by
  induction count generalizing vc i with
  | zero => exact ⟨vc.curBuf, vc.out, rfl⟩
  | succ count ih =>
      rw [flushFrom, if_neg (by omega)]
      split
      next =>
        refine (ih (i + 1) ?_).imp ?_
        · show i + 1 + count ≤ vc.scrSize
          omega
        · rintro vc' ⟨cur, out, rfl⟩
          exact ⟨cur, out, rfl⟩
      next => exact ih (i + 1) (by omega)

theorem InRange.flush (h : vc.InRange) : InBounds InRange vc.flush := by
  have hlast := h.lastPos
  have hnew := h.newLastPos
  unfold Vc.flush
  dsimp only
  refine (flushFrom_inBounds _ 0 ?_).bind ?_
  · show 0 + (max vc.lastPos vc.newLastPos + 1) ≤ vc.scrSize
    omega
  · rintro vc' ⟨cur, out, rfl⟩
    refine ⟨h.size, h.small, h.cx, h.cy, h.savedCx, h.savedCy, h.margins, h.bottom, ?_, hnew⟩
    show min (max vc.lastPos vc.newLastPos) vc.newLastPos < vc.scrSize
    omega

theorem InRange.write (h : vc.InRange) {fuel nr : ℕ} {mem : Bytes}
    (hsafe : SafeLoop mem fuel nr 0 vc) : InBounds InRange (vc.write fuel mem nr) :=
  (InRange.writeLoop fuel nr 0 h hsafe).bind fun _ h' => h'.calcLastPos.flush

theorem InRange.run (fuel : ℕ) (strings : List (Bytes × ℕ)) (h : vc.InRange)
    (hsafe : SafeRun fuel strings vc) : InBounds InRange (run fuel strings vc) := by
  induction strings generalizing vc with
  | nil => exact h
  | cons string strings ih =>
      obtain ⟨mem, nr⟩ := string
      obtain ⟨hloop, hrest⟩ := hsafe
      have hbounds := h.write hloop
      rw [Vc.run]
      cases hrun : vc.write fuel mem nr with
      | error e =>
          rw [hrun] at hbounds
          exact hbounds
      | ok vc' =>
          rw [hrun] at hbounds hrest
          exact ih hbounds hrest

theorem inRange_init {width height : ℕ} (hwidth : 1 ≤ width) (hheight : 1 ≤ height)
    (hsmall : width * height < 2 ^ 32) (cur : Bytes) : (init width height cur).InRange := by
  have hsize : (init width height cur).scrSize = width * height := Nat.mod_eq_of_lt hsmall
  have hpos : 0 < width * height := Nat.mul_pos hwidth hheight
  have hbottom : (init width height cur).scrollBottom = height - 1 := sub32_of_le hheight
  refine ⟨hsize, hsmall, hwidth, hheight, hwidth, hheight, Nat.zero_le _, ?_, ?_, ?_⟩
  · rw [hbottom]
    show height - 1 < height
    omega
  · rw [hsize]
    exact hpos
  · rw [hsize]
    exact hpos

/-- In every run of safe strings, every access of the console is inside the screen
buffer and the parameter array. -/
theorem memorySafe_of_safeRun {width height : ℕ} (hwidth : 1 ≤ width) (hheight : 1 ≤ height)
    (hsmall : width * height < 2 ^ 32) (cur : Bytes) (strings : List (Bytes × ℕ))
    (hsafe : ∀ fuel, SafeRun fuel strings (init width height cur)) :
    (init width height cur).MemorySafe strings := by
  intro fuel
  have h := inRange_init hwidth hheight hsmall cur
  exact (InRange.run fuel strings h (hsafe fuel)).ne_outOfBounds

/-! ## Two strings -/

/-- A string with zeros behind it. -/
def stringMem (bytes : List (BitVec 8)) : Bytes := fun p => bytes.getD p 0#8

/-- `hi`, a move of the cursor, and `!`. -/
def greeting : List (BitVec 8) :=
  [0x68#8, 0x69#8, escape, 0x5B#8, 0x32#8, 0x3B#8, 0x31#8, 0x48#8, 0x21#8]

theorem safeLoop_of_items {mem : Bytes} (h : ∀ fuel p vc, SafeItem fuel mem p vc)
    (fuel : ℕ) (nr : ℤ) (p : ℕ) (vc : Vc) : SafeLoop mem fuel nr p vc := by
  induction fuel generalizing nr p vc with
  | zero => trivial
  | succ fuel ih =>
      refine Or.inr ⟨h fuel p vc, ?_⟩
      split
      next => exact ih _ _ _
      next => trivial

theorem stringMem_cases {bytes : List (BitVec 8)} {P : BitVec 8 → Prop} (hzero : P 0#8)
    (hbytes : ∀ b ∈ bytes, P b) (p : ℕ) : P (stringMem bytes p) := by
  unfold stringMem
  rw [List.getD_eq_getElem?_getD]
  cases hget : bytes[p]? with
  | none => exact hzero
  | some b => exact hbytes b (List.mem_of_getElem? hget)

theorem safeItem_greeting (fuel p : ℕ) (vc : Vc) : SafeItem fuel (stringMem greeting) p vc := by
  intro hesc
  have hp : p = 2 := by
    by_contra hne
    have hlen : p < 9 := by
      by_contra hge
      have hnone : stringMem greeting p = 0#8 := by
        unfold stringMem
        rw [List.getD_eq_getElem?_getD, List.getElem?_eq_none (Nat.le_of_not_lt hge)]
        rfl
      rw [hnone] at hesc
      exact absurd hesc (by decide)
    interval_cases p <;> first | exact absurd hesc (by decide) | exact hne rfl
  subst hp
  refine ⟨?_, ?_⟩
  · rcases fuel with _ | _ | _ | _ | fuel
    · trivial
    · exact ⟨by decide, trivial⟩
    · exact ⟨by decide, trivial⟩
    · exact ⟨by decide, by decide, trivial⟩
    · exact ⟨by decide, by decide, trivial⟩
  · intro q i par _
    have hfinal : chr (stringMem greeting q) ≠ '@' ∧ chr (stringMem greeting q) ≠ 'm' ∧
        chr (stringMem greeting q) ≠ 'r' :=
      stringMem_cases (P := fun b => chr b ≠ '@' ∧ chr b ≠ 'm' ∧ chr b ≠ 'r')
        (by decide) (by decide) q
    unfold SafeCsi
    split
    next h => exact (hfinal.1 h).elim
    next h => exact (hfinal.2.1 h).elim
    next h => exact (hfinal.2.2 h).elim
    next => trivial

theorem memorySafe_of_safeRun_greeting :
    (init 80 25 fun _ => 0#8).MemorySafe [(stringMem greeting, 9)] := by
  refine memorySafe_of_safeRun (by decide) (by decide) (by decide) _ _ fun fuel => ⟨?_, ?_⟩
  · exact safeLoop_of_items safeItem_greeting _ _ _ _
  · split
    next => trivial
    next => trivial

/-- The cursor goes to the last cell of the screen, then to the next tab stop,
which is behind the line, and then there is a character. -/
theorem not_memorySafe_tab :
    ¬(init 80 25 fun _ => 0#8).MemorySafe
      [(stringMem [escape, 0x5B#8, 0x32#8, 0x35#8, 0x3B#8, 0x38#8, 0x30#8, 0x48#8, escape, 0x48#8,
        0x41#8], 11)] := by
  intro hsafe
  exact hsafe 20 rfl

end Vc

end Yak.Console
