import Yak.Redraw

/-!
# Console output in pieces

The parser of escape sequences keeps no state between two calls of `vc_write`.  A sequence
which is not complete at the end of a call takes the bytes behind the string, and the call
does not find its end.  At every other place a string can be split.
-/

namespace Yak.Console

open ByteBitmap (Bytes)
open WordMemory (sub32)

namespace Vc

/-! ## The part of a console which does not depend on the redraw -/

/-- The same cursor, screen, saved cursor, margins and attributes. -/
structure SameScreen (vc vc' : Vc) : Prop where
  cursor : (vc'.cx, vc'.cy) = (vc.cx, vc.cy)
  scrBuf : vc'.scrBuf = vc.scrBuf
  saved : (vc'.savedCx, vc'.savedCy) = (vc.savedCx, vc.savedCy)
  margins : (vc'.scrollTop, vc'.scrollBottom) = (vc.scrollTop, vc.scrollBottom)
  attr : vc'.attr = vc.attr
  size : (vc'.width, vc'.height, vc'.scrSize) = (vc.width, vc.height, vc.scrSize)

variable {vc vc' : Vc}

theorem SameScreen.refl (vc : Vc) : vc.SameScreen vc := ⟨rfl, rfl, rfl, rfl, rfl, rfl⟩

theorem SameScreen.symm (h : vc.SameScreen vc') : vc'.SameScreen vc :=
  ⟨h.cursor.symm, h.scrBuf.symm, h.saved.symm, h.margins.symm, h.attr.symm, h.size.symm⟩

theorem SameScreen.trans {vc'' : Vc} (h : vc.SameScreen vc') (h' : vc'.SameScreen vc'') :
    vc.SameScreen vc'' :=
  ⟨h'.cursor.trans h.cursor, h'.scrBuf.trans h.scrBuf, h'.saved.trans h.saved,
    h'.margins.trans h.margins, h'.attr.trans h.attr, h'.size.trans h.size⟩

theorem SameScreen.exists_eq (h : vc.SameScreen vc') : ∃ curBuf out lastPos newLastPos,
    vc' = { vc with
      curBuf := curBuf, out := out, lastPos := lastPos, newLastPos := newLastPos } := by
  obtain ⟨hcursor, hbuf, hsaved, hmargins, hattr, hsize⟩ := h
  cases vc
  cases vc'
  simp only [Prod.mk.injEq] at hcursor hbuf hsaved hmargins hattr hsize
  simp only [hcursor, hbuf, hsaved, hmargins, hattr, hsize]
  exact ⟨_, _, _, _, rfl⟩

/-- On consoles with the same screen both routines do the same to the screen. -/
def SameWork (f g : Vc → Except Halt Vc) : Prop :=
  ∀ vc vc', vc.SameScreen vc' → Matches SameScreen (f vc) (g vc')

theorem SameScreen.redraw (h : vc.SameScreen vc') (x : Except Halt Bytes) :
    Matches SameScreen (x >>= fun buf => .ok { vc with scrBuf := buf })
      (x >>= fun buf => .ok { vc' with scrBuf := buf }) := by
  apply (Matches.same x).bind
  rintro buf _ - rfl
  exact Matches.ok ⟨h.cursor, rfl, h.saved, h.margins, h.attr, h.size⟩

theorem scrollUp_sameWork : SameWork scrollUp scrollUp := by
  intro vc vc' h
  obtain ⟨curBuf, out, lastPos, newLastPos, rfl⟩ := h.exists_eq
  refine (Matches.same _).bind ?_
  rintro buf _ - rfl
  exact h.redraw _

theorem scrollDown_sameWork : SameWork scrollDown scrollDown := by
  intro vc vc' h
  obtain ⟨curBuf, out, lastPos, newLastPos, rfl⟩ := h.exists_eq
  refine (Matches.same _).bind ?_
  rintro buf _ - rfl
  exact h.redraw _

theorem SameWork.times {f : Vc → Except Halt Vc} (hf : SameWork f f) (count : ℕ) :
    SameWork (times f count) (times f count) := by
  induction count with
  | zero => exact fun vc vc' h => Matches.ok h
  | succ count ih => exact fun vc vc' h => (hf vc vc' h).bind fun vc vc' _ h => ih vc vc' h

theorem SameWork.linesFromCursor {f : Vc → Except Halt Vc} (hf : SameWork f f) (count : ℕ) :
    SameWork (fun vc => linesFromCursor f vc count) fun vc => linesFromCursor f vc count := by
  intro vc vc' h
  obtain ⟨curBuf, out, lastPos, newLastPos, rfl⟩ := h.exists_eq
  apply Matches.bind
  · exact hf.times count _ _ ⟨rfl, rfl, rfl, rfl, rfl, rfl⟩
  · intro scrolled scrolled' _ hs
    exact Matches.ok ⟨hs.cursor, hs.scrBuf, hs.saved, rfl, hs.attr, hs.size⟩

theorem insertBlanks_sameWork (count : ℕ) :
    SameWork (fun vc => vc.insertBlanks count) fun vc => vc.insertBlanks count := by
  intro vc vc' h
  obtain ⟨curBuf, out, lastPos, newLastPos, rfl⟩ := h.exists_eq
  dsimp only [insertBlanks, scrPos]
  split
  next => exact h.redraw _
  next =>
    refine (Matches.same _).bind ?_
    rintro buf _ - rfl
    exact h.redraw _

theorem clearChars_sameWork (count : ℕ) :
    SameWork (fun vc => vc.clearChars count) fun vc => vc.clearChars count := by
  intro vc vc' h
  obtain ⟨curBuf, out, lastPos, newLastPos, rfl⟩ := h.exists_eq
  exact h.redraw _

theorem deleteChars_sameWork (count : ℕ) :
    SameWork (fun vc => vc.deleteChars count) fun vc => vc.deleteChars count := by
  intro vc vc' h
  obtain ⟨curBuf, out, lastPos, newLastPos, rfl⟩ := h.exists_eq
  refine (Matches.same _).bind ?_
  rintro buf _ - rfl
  exact h.redraw _

theorem clearScreen_sameWork (par : ℕ) :
    SameWork (fun vc => vc.clearScreen par) fun vc => vc.clearScreen par := by
  intro vc vc' h
  obtain ⟨curBuf, out, lastPos, newLastPos, rfl⟩ := h.exists_eq
  dsimp only [clearScreen]
  split
  next => exact h.redraw _
  next => exact h.redraw _
  next => exact h.redraw _
  next => exact Matches.ok h

theorem clearLine_sameWork (par : ℕ) :
    SameWork (fun vc => vc.clearLine par) fun vc => vc.clearLine par := by
  intro vc vc' h
  obtain ⟨curBuf, out, lastPos, newLastPos, rfl⟩ := h.exists_eq
  dsimp only [clearLine]
  split
  next => exact h.redraw _
  next => exact h.redraw _
  next => exact h.redraw _
  next => exact Matches.ok h

theorem linefeed_sameWork : SameWork linefeed linefeed := by
  intro vc vc' h
  obtain ⟨curBuf, out, lastPos, newLastPos, rfl⟩ := h.exists_eq
  dsimp only [linefeed]
  split
  next => exact Matches.ok ⟨rfl, rfl, rfl, rfl, rfl, rfl⟩
  next => exact scrollUp_sameWork _ _ h

/-! ## Attributes -/

theorem SameScreen.set256Rgb (h : vc.SameScreen vc') (par : ℕ → ℕ) (type : VcAttrType)
    (fg : Bool) : ∃ q type' vc₁ vc₁', vc.set256Rgb par type fg = (q, vc₁, type') ∧
      vc'.set256Rgb par type fg = (q, vc₁', type') ∧ vc₁.SameScreen vc₁' := by
  obtain ⟨curBuf, out, lastPos, newLastPos, rfl⟩ := h.exists_eq
  unfold Vc.set256Rgb Vc.set256
  split_ifs <;> exact ⟨_, _, _, _, rfl, rfl, rfl, rfl, rfl, rfl, rfl, rfl⟩

theorem SameScreen.setAttrFlag (h : vc.SameScreen vc') (n : ℕ) :
    (vc.setAttrFlag n = none ∧ vc'.setAttrFlag n = none) ∨
      ∃ vc₁ vc₁', vc.setAttrFlag n = some vc₁ ∧ vc'.setAttrFlag n = some vc₁' ∧
        vc₁.SameScreen vc₁' := by
  obtain ⟨curBuf, out, lastPos, newLastPos, rfl⟩ := h.exists_eq
  unfold Vc.setAttrFlag
  split
  case h_17 => exact Or.inl ⟨rfl, rfl⟩
  all_goals exact Or.inr ⟨_, _, rfl, rfl, rfl, rfl, rfl, rfl, rfl, rfl⟩

theorem setAttr_matches {par : ℕ → ℕ} {len fuel fuel' p : ℕ} {type : VcAttrType}
    (hfuel : fuel ≤ fuel') (h : vc.SameScreen vc') :
    Matches SameScreen (setAttr par len fuel p type vc) (setAttr par len fuel' p type vc') := by
  induction fuel generalizing fuel' p type vc vc' with
  | zero => exact Matches.error _
  | succ fuel ih =>
      obtain ⟨fuel', rfl⟩ := Nat.exists_eq_add_of_le' (le_trans (Nat.succ_pos fuel) hfuel)
      have hle : fuel ≤ fuel' := Nat.le_of_succ_le_succ hfuel
      rw [setAttr, setAttr]
      split
      next => exact Matches.ok ⟨h.cursor, h.scrBuf, h.saved, h.margins, h.attr, h.size⟩
      next =>
        split
        next => exact Matches.error _
        next =>
          split
          next =>
            obtain ⟨q, type', vc₁, vc₁', hset, hset', hscreen⟩ :=
              h.set256Rgb par type (decide (par p = 38))
            rw [hset, hset']
            exact ih hle hscreen
          next =>
            have hindexed (fg : Bool) :
                (vc.setIndexed fg (par 0)).SameScreen (vc'.setIndexed fg (par 0)) := by
              obtain ⟨curBuf, out, lastPos, newLastPos, rfl⟩ := h.exists_eq
              exact ⟨rfl, rfl, rfl, rfl, rfl, rfl⟩
            split
            next => exact ih hle (hindexed true)
            next =>
              split
              next => exact ih hle (hindexed false)
              next =>
                obtain ⟨hnone, hnone'⟩ | ⟨vc₁, vc₁', hsome, hsome', hscreen⟩ :=
                  h.setAttrFlag (par p)
                · rw [hnone, hnone']
                  exact Matches.ok h
                · rw [hsome, hsome']
                  exact ih hle hscreen

/-! ## Escape sequences -/

theorem csiFinal_matches {fuel fuel' i : ℕ} {par : ℕ → ℕ} {c : Char} (hfuel : fuel ≤ fuel')
    (h : vc.SameScreen vc') :
    Matches SameScreen (vc.csiFinal fuel i par c) (vc'.csiFinal fuel' i par c) := by
  have hcursor : ∀ x y, { vc with cx := x, cy := y }.SameScreen { vc' with cx := x, cy := y } :=
    fun _ _ => ⟨rfl, h.scrBuf, h.saved, h.margins, h.attr, h.size⟩
  obtain ⟨curBuf, out, lastPos, newLastPos, rfl⟩ := h.exists_eq
  unfold Vc.csiFinal
  split
  next => exact insertBlanks_sameWork _ _ _ h
  next => exact Matches.ok (hcursor _ _)
  next => exact Matches.ok (hcursor _ _)
  next => exact Matches.ok (hcursor _ _)
  next => exact Matches.ok (hcursor _ _)
  next => exact Matches.ok (hcursor _ _)
  next => exact Matches.ok (hcursor _ _)
  next => exact Matches.ok (hcursor _ _)
  next => exact Matches.ok (hcursor _ _)
  next => exact Matches.ok (hcursor _ _)
  next => exact Matches.ok (hcursor _ _)
  next => exact Matches.ok (hcursor _ _)
  next => exact clearScreen_sameWork _ _ _ h
  next => exact clearLine_sameWork _ _ _ h
  next => exact scrollDown_sameWork.linesFromCursor _ _ _ h
  next => exact scrollUp_sameWork.linesFromCursor _ _ _ h
  next => exact deleteChars_sameWork _ _ _ h
  next => exact clearChars_sameWork _ _ _ h
  next => exact Matches.ok (hcursor _ _)
  next => exact setAttr_matches hfuel h
  next => exact Matches.ok ⟨rfl, rfl, rfl, rfl, rfl, rfl⟩
  next => exact Matches.ok h

/-! ## The ends of items -/

/-- Where a string is in relation to escape sequences. -/
inductive Lexer where
  | ground
  | escaped
  | params
  deriving DecidableEq

def lexByte : Lexer → BitVec 8 → Lexer
  | .ground, b => if b = escape then .escaped else .ground
  | .escaped, b => if chr b = '[' then .params else .ground
  | .params, b => if IsDigit b ∨ chr b = ';' then .params else .ground

/-- The string does not end inside of an escape sequence. -/
def Complete (text : List (BitVec 8)) : Prop := text.foldl lexByte .ground = .ground

instance (text : List (BitVec 8)) : Decidable (Complete text) := inferInstanceAs (Decidable (_ = _))

/-- The state after the `count` bytes from `p` on. -/
def lexFrom (mem : Bytes) (l : Lexer) (p : ℕ) : ℕ → Lexer
  | 0 => l
  | count + 1 => lexFrom mem (lexByte l (mem p)) (p + 1) count

theorem lexFrom_add (mem : Bytes) (l : Lexer) (p m n : ℕ) :
    lexFrom mem l p (m + n) = lexFrom mem (lexFrom mem l p m) (p + m) n := by
  induction m generalizing l p with
  | zero => rw [Nat.zero_add, lexFrom, Nat.add_zero]
  | succ m ih =>
      rw [Nat.succ_add, lexFrom, ih, lexFrom, Nat.add_assoc, Nat.add_comm 1 m]

/-- There is an item at `p`, and its last byte is at `p + d`. -/
structure ItemAt (mem : Bytes) (p d : ℕ) : Prop where
  inside : ∀ n, 0 < n → n ≤ d → lexFrom mem .ground p n ≠ .ground
  ends : lexFrom mem .ground p (d + 1) = .ground

/-- The bytes up to `p + d` are the same in both memories. -/
def SameBytes (mem mem' : Bytes) (p p' d : ℕ) : Prop := ∀ k ≤ d, mem' (p' + k) = mem (p + k)

theorem SameBytes.tail {mem mem' : Bytes} {p p' d : ℕ} (h : SameBytes mem mem' p p' (d + 1)) :
    SameBytes mem mem' (p + 1) (p' + 1) d := by
  intro k hk
  rw [Nat.add_assoc, Nat.add_assoc, Nat.add_comm 1]
  exact h (k + 1) (Nat.succ_le_succ hk)

/-- The parameters end at the first byte which is none, and nothing else is looked at. -/
theorem csiPars_spec {mem : Bytes} {fuel p i q j : ℕ} {par par' : ℕ → ℕ}
    (h : csiPars mem fuel p i par = .ok (q, j, par')) : ∃ d, q = p + d ∧
      (∀ n ≤ d, lexFrom mem .params p n = .params) ∧
      lexFrom mem .params p (d + 1) = .ground ∧
      ∀ mem' p' fuel', fuel ≤ fuel' → SameBytes mem mem' p p' d →
        csiPars mem' fuel' p' i par = .ok (p' + d, j, par') := by
  induction fuel generalizing p i par with
  | zero => cases h
  | succ fuel ih =>
      rw [csiPars] at h
      -- a parameter byte at `p`, and the rest
      have hparam : ∀ {i₁ : ℕ} {par₁ : ℕ → ℕ}, IsDigit (mem p) ∨ chr (mem p) = ';' →
          csiPars mem fuel (p + 1) i₁ par₁ = .ok (q, j, par') →
          (∀ mem' p' fuel', mem' p' = mem p →
            csiPars mem' (fuel' + 1) p' i par = csiPars mem' fuel' (p' + 1) i₁ par₁) →
          ∃ d, q = p + d ∧ (∀ n ≤ d, lexFrom mem .params p n = .params) ∧
            lexFrom mem .params p (d + 1) = .ground ∧
            ∀ mem' p' fuel', fuel + 1 ≤ fuel' → SameBytes mem mem' p p' d →
              csiPars mem' fuel' p' i par = .ok (p' + d, j, par') := by
        intro i₁ par₁ hbyte hrest hstep
        obtain ⟨d, rfl, hparams, hend, hsame⟩ := ih hrest
        have hlex : lexByte .params (mem p) = .params := if_pos hbyte
        refine ⟨d + 1, by omega, ?_, ?_, ?_⟩
        · intro n hn
          cases n with
          | zero => rfl
          | succ n =>
              rw [lexFrom, hlex]
              exact hparams n (Nat.le_of_succ_le_succ hn)
        · rw [lexFrom, hlex]
          exact hend
        · intro mem' p' fuel' hfuel hbytes
          obtain ⟨fuel', rfl⟩ := Nat.exists_eq_add_of_le' (le_trans (Nat.succ_pos fuel) hfuel)
          rw [hstep mem' p' fuel' (hbytes 0 (Nat.zero_le _)),
            hsame mem' (p' + 1) fuel' (Nat.le_of_succ_le_succ hfuel) hbytes.tail]
          congr 2
          omega
      split at h
      next hdigit =>
        split at h
        next => cases h
        next hi =>
          refine hparam (Or.inl hdigit) h ?_
          intro mem' p' fuel' hbyte
          rw [csiPars, hbyte, if_pos hdigit, if_neg hi]
      next hdigit =>
        split at h
        next hsep =>
          refine hparam (Or.inr hsep) h ?_
          intro mem' p' fuel' hbyte
          rw [csiPars, hbyte, if_neg hdigit, if_pos hsep]
        next hsep =>
          obtain ⟨rfl, rfl, rfl⟩ : p = q ∧ i = j ∧ par = par' := by simpa using h
          refine ⟨0, rfl, ?_, ?_, ?_⟩
          · intro n hn
            rw [Nat.le_zero.mp hn, lexFrom]
          · exact if_neg (not_or.mpr ⟨hdigit, hsep⟩)
          · intro mem' p' fuel' hfuel hbytes
            obtain ⟨fuel', rfl⟩ := Nat.exists_eq_add_of_le' (le_trans (Nat.succ_pos fuel) hfuel)
            have hbyte : mem' p' = mem p := hbytes 0 le_rfl
            rw [csiPars, hbyte, if_neg hdigit, if_neg hsep, Nat.add_zero]

/-- A console with the same screen makes the same of the item, wherever its bytes are. -/
def Replays (fuel : ℕ) (mem : Bytes) (p d : ℕ) (vc vc₁ : Vc)
    (f : ℕ → Bytes → ℕ → Vc → Except Halt (ℕ × Vc)) : Prop :=
  ∀ fuel' mem' p' vc', fuel ≤ fuel' → SameBytes mem mem' p p' d → vc.SameScreen vc' →
    ∃ vc₁', f fuel' mem' p' vc' = .ok (p' + d, vc₁') ∧ vc₁.SameScreen vc₁'

theorem csiEscape_spec {fuel : ℕ} {mem : Bytes} {p q : ℕ} {vc₁ : Vc}
    (h : vc.csiEscape fuel mem p = .ok (q, vc₁)) : ∃ d, q = p + d ∧
      (∀ n ≤ d, lexFrom mem .params p n = .params) ∧
      lexFrom mem .params p (d + 1) = .ground ∧
      Replays fuel mem p d vc vc₁ fun fuel mem p vc => vc.csiEscape fuel mem p := by
  obtain ⟨⟨q', i, par⟩, hpars, hrest⟩ := bind_eq_ok.mp h
  obtain ⟨vc₂, hfinal, hend⟩ := bind_eq_ok.mp hrest
  obtain ⟨rfl, rfl⟩ := Prod.mk.inj (Except.ok.inj hend)
  obtain ⟨d, rfl, hparams, hground, hsame⟩ := csiPars_spec hpars
  refine ⟨d, rfl, hparams, hground, ?_⟩
  intro fuel' mem' p' vc' hfuel hbytes hscreen
  obtain ⟨vc₂', hfinal', hscreen'⟩ := csiFinal_matches hfuel hscreen _ hfinal
  refine ⟨vc₂', bind_eq_ok.mpr ⟨_, hsame mem' p' fuel' hfuel hbytes, ?_⟩, hscreen'⟩
  refine bind_eq_ok.mpr ⟨vc₂', ?_, rfl⟩
  rw [hbytes d le_rfl]
  exact hfinal'

/-- The escape sequences of two bytes. -/
def shortEscape (vc : Vc) : Char → Except Halt Vc
  | 'D' => vc.linefeed
  | 'E' => do
      let vc ← vc.linefeed
      .ok vc.carriageReturn
  | 'H' => .ok vc.goTabStop
  | 'M' => .ok vc.rlinefeed
  | '7' => .ok vc.saveState
  | '8' => .ok vc.restoreState
  | _ => .ok vc

theorem startEscape_of_ne {fuel : ℕ} {mem : Bytes} {p : ℕ} (hne : chr (mem (p + 1)) ≠ '[') :
    vc.startEscape fuel mem p = vc.shortEscape (chr (mem (p + 1))) >>= fun vc => .ok (p + 1, vc) := by
  unfold startEscape
  generalize chr (mem (p + 1)) = c at hne
  split
  case h_1 => rfl
  case h_2 => cases hfeed : vc.linefeed <;> simp [shortEscape, hfeed]
  case h_3 => rfl
  case h_4 => rfl
  case h_5 => rfl
  case h_6 => rfl
  case h_7 => exact absurd rfl hne
  case h_8 hD hE hH hM h7 h8 _ => simp [shortEscape]

theorem startEscape_csi {fuel : ℕ} {mem : Bytes} {p : ℕ} (hcsi : chr (mem (p + 1)) = '[') :
    vc.startEscape fuel mem p = vc.csiEscape fuel mem (p + 2) := by
  simp only [startEscape, hcsi]

theorem shortEscape_sameWork (c : Char) :
    SameWork (fun vc => vc.shortEscape c) fun vc => vc.shortEscape c := by
  intro vc vc' h
  have hlinefeed := linefeed_sameWork vc vc' h
  obtain ⟨curBuf, out, lastPos, newLastPos, rfl⟩ := h.exists_eq
  dsimp only [shortEscape]
  split
  next => exact hlinefeed
  next =>
    apply hlinefeed.bind
    intro vc₁ vc₁' _ h₁
    exact Matches.ok ⟨congrArg (fun p => (0, p.2)) h₁.cursor, h₁.scrBuf, h₁.saved, h₁.margins,
      h₁.attr, h₁.size⟩
  next => exact Matches.ok ⟨rfl, rfl, rfl, rfl, rfl, rfl⟩
  next =>
    dsimp only [rlinefeed]
    split
    next => exact Matches.ok ⟨rfl, rfl, rfl, rfl, rfl, rfl⟩
    next => exact Matches.ok h
  next => exact Matches.ok ⟨rfl, rfl, rfl, rfl, rfl, rfl⟩
  next => exact Matches.ok ⟨rfl, rfl, rfl, rfl, rfl, rfl⟩
  next => exact Matches.ok h

/-- The cursor after a character. -/
def advance (vc : Vc) : Except Halt Vc :=
  if vc.cx = sub32 vc.width 1 ∧ vc.cy = sub32 vc.height 1 then do
    let vc ← vc.scrollUp
    .ok { vc with cx := 0 }
  else if vc.cx = sub32 vc.width 1 then vc.carriageReturn.linefeed
  else .ok { vc with cx := (vc.cx + 1) % 2 ^ 32 }

theorem putChar_eq (vc : Vc) (c : BitVec 8) :
    vc.putChar c = if vc.scrPos < vc.scrSize then
      advance { vc with scrBuf := Function.update vc.scrBuf vc.scrPos c }
    else .error .outOfBounds := rfl

theorem advance_sameWork : SameWork advance advance := by
  intro vc vc' h
  obtain ⟨curBuf, out, lastPos, newLastPos, rfl⟩ := h.exists_eq
  dsimp only [advance]
  split
  next =>
    apply (scrollUp_sameWork _ _ h).bind
    intro vc₁ vc₁' _ h₁
    exact Matches.ok ⟨congrArg (fun p => (0, p.2)) h₁.cursor, h₁.scrBuf, h₁.saved, h₁.margins,
      h₁.attr, h₁.size⟩
  next =>
    split
    next => exact linefeed_sameWork _ _ ⟨rfl, rfl, rfl, rfl, rfl, rfl⟩
    next => exact Matches.ok ⟨rfl, rfl, rfl, rfl, rfl, rfl⟩

theorem putChar_sameWork (c : BitVec 8) :
    SameWork (fun vc => vc.putChar c) fun vc => vc.putChar c := by
  intro vc vc' h
  have hpos : vc'.scrPos = vc.scrPos ∧ vc'.scrSize = vc.scrSize := by
    obtain ⟨curBuf, out, lastPos, newLastPos, rfl⟩ := h.exists_eq
    exact ⟨rfl, rfl⟩
  dsimp only
  rw [putChar_eq, putChar_eq, hpos.1, hpos.2, h.scrBuf]
  split
  next =>
    exact advance_sameWork _ _ ⟨h.cursor, rfl, h.saved, h.margins, h.attr,
      congrArg (fun s => (s.1, s.2.1, vc.scrSize)) h.size⟩
  next => exact Matches.error _

/-! ## One turn of the loop -/

/-- What `vc_write` makes of a byte which is not the escape character. -/
def plainItem (vc : Vc) (b : BitVec 8) : Except Halt Vc :=
  if b = 0x0D#8 then .ok vc.carriageReturn
  else if b = 0x0A#8 then vc.linefeed
  else if b = 0x08#8 then .ok (if vc.cx ≠ 0 then { vc with cx := vc.cx - 1 } else vc)
  else vc.putChar b

theorem writeItem_of_escape {fuel : ℕ} {mem : Bytes} {p : ℕ} (hesc : mem p = escape) :
    vc.writeItem fuel mem p = vc.startEscape fuel mem p := by
  unfold writeItem
  rw [hesc, if_neg (by decide), if_neg (by decide), if_neg (by decide), if_pos rfl]

theorem writeItem_of_plain {fuel : ℕ} {mem : Bytes} {p : ℕ} (hplain : mem p ≠ escape) :
    vc.writeItem fuel mem p = vc.plainItem (mem p) >>= fun vc => .ok (p, vc) := by
  unfold writeItem plainItem
  rw [if_neg hplain]
  split
  next => rfl
  next =>
    split
    next => rfl
    next =>
      split
      next => rfl
      next => rfl

theorem plainItem_sameWork (b : BitVec 8) :
    SameWork (fun vc => vc.plainItem b) fun vc => vc.plainItem b := by
  intro vc vc' h
  have hput := putChar_sameWork b vc vc' h
  obtain ⟨curBuf, out, lastPos, newLastPos, rfl⟩ := h.exists_eq
  dsimp only [plainItem] at hput ⊢
  split
  next => exact Matches.ok ⟨rfl, rfl, rfl, rfl, rfl, rfl⟩
  next =>
    split
    next => exact linefeed_sameWork _ _ h
    next =>
      split
      next =>
        refine Matches.ok ?_
        split
        next => exact ⟨rfl, rfl, rfl, rfl, rfl, rfl⟩
        next => exact h
      next => exact hput

theorem SameWork.replays {fuel : ℕ} {mem : Bytes} {p d : ℕ} {vc₁ : Vc}
    {f : BitVec 8 → Vc → Except Halt Vc} {g : ℕ → Bytes → ℕ → Vc → Except Halt (ℕ × Vc)}
    (hf : ∀ b, SameWork (f b) (f b)) (hrun : f (mem (p + d)) vc = .ok vc₁)
    (hg : ∀ fuel' mem' p' vc', SameBytes mem mem' p p' d →
      g fuel' mem' p' vc' = f (mem' (p' + d)) vc' >>= fun vc => .ok (p' + d, vc)) :
    Replays fuel mem p d vc vc₁ g := by
  intro fuel' mem' p' vc' _ hbytes hscreen
  obtain ⟨vc₁', hrun', hscreen'⟩ := hf _ vc vc' hscreen vc₁ hrun
  refine ⟨vc₁', ?_, hscreen'⟩
  rw [hg fuel' mem' p' vc' hbytes, hbytes d le_rfl, hrun', ok_bind]

/-- Every item ends where the lexer comes back, and it depends on nothing but its bytes and
the screen. -/
theorem writeItem_spec {fuel : ℕ} {mem : Bytes} {p q : ℕ} {vc₁ : Vc}
    (h : vc.writeItem fuel mem p = .ok (q, vc₁)) : ∃ d, q = p + d ∧ ItemAt mem p d ∧
      Replays fuel mem p d vc vc₁ fun fuel mem p vc => vc.writeItem fuel mem p := by
  by_cases hesc : mem p = escape
  · rw [writeItem_of_escape hesc] at h
    have hfirst : lexByte .ground (mem p) = .escaped := if_pos hesc
    by_cases hcsi : chr (mem (p + 1)) = '['
    · have hsecond : lexByte .escaped (mem (p + 1)) = .params := if_pos hcsi
      rw [startEscape_csi hcsi] at h
      obtain ⟨d, rfl, hparams, hground, hreplays⟩ := csiEscape_spec h
      refine ⟨d + 2, by omega, ⟨?_, ?_⟩, ?_⟩
      · intro n hpos hn
        match n with
        | 1 =>
            rw [lexFrom, lexFrom, hfirst]
            exact nofun
        | n + 2 =>
            rw [lexFrom, lexFrom, hfirst, hsecond, hparams n (by omega)]
            exact nofun
      · rw [lexFrom, lexFrom, hfirst, hsecond]
        exact hground
      · intro fuel' mem' p' vc' hfuel hbytes hscreen
        have hesc' : mem' p' = escape := (hbytes 0 (Nat.zero_le _)).trans hesc
        have hcsi' : chr (mem' (p' + 1)) = '[' := by rw [hbytes 1 (by omega), hcsi]
        obtain ⟨vc₁', hrun, hscreen'⟩ :=
          hreplays fuel' mem' (p' + 2) vc' hfuel hbytes.tail.tail hscreen
        refine ⟨vc₁', ?_, hscreen'⟩
        dsimp only at hrun ⊢
        rw [writeItem_of_escape hesc', startEscape_csi hcsi', hrun]
        congr 2
        omega
    · rw [startEscape_of_ne hcsi] at h
      obtain ⟨vc₂, hrun, hend⟩ := bind_eq_ok.mp h
      obtain ⟨rfl, rfl⟩ := Prod.mk.inj (Except.ok.inj hend)
      refine ⟨1, rfl, ⟨?_, ?_⟩, ?_⟩
      · intro n hpos hn
        obtain rfl : n = 1 := by omega
        rw [lexFrom, lexFrom, hfirst]
        exact nofun
      · rw [lexFrom, lexFrom, lexFrom, hfirst]
        exact if_neg hcsi
      · refine SameWork.replays (fun b => shortEscape_sameWork (chr b)) hrun ?_
        intro fuel' mem' p' vc' hbytes
        have hesc' : mem' p' = escape := (hbytes 0 (Nat.zero_le _)).trans hesc
        have hcsi' : chr (mem' (p' + 1)) ≠ '[' := by rwa [hbytes 1 le_rfl]
        rw [writeItem_of_escape hesc', startEscape_of_ne hcsi']
  · rw [writeItem_of_plain hesc] at h
    obtain ⟨vc₂, hrun, hend⟩ := bind_eq_ok.mp h
    obtain ⟨rfl, rfl⟩ := Prod.mk.inj (Except.ok.inj hend)
    refine ⟨0, rfl, ⟨fun n hpos hn => absurd hpos (not_lt.mpr hn), if_neg hesc⟩, ?_⟩
    refine SameWork.replays plainItem_sameWork hrun ?_
    intro fuel' mem' p' vc' hbytes
    have hesc' : mem' p' ≠ escape := by rwa [← Nat.add_zero p', hbytes 0 le_rfl]
    exact writeItem_of_plain hesc'

/-! ## The loop -/

variable {mem mem' : Bytes} {fuel fuel' p p' n a b : ℕ} {vc₁ vc₂ : Vc}

/-- With a negative number of bytes to go, the loop does not find its end. -/
theorem writeLoop_negative {nr : ℤ} (hnr : nr < 0) : writeLoop mem fuel nr p vc ≠ .ok vc₁ := by
  induction fuel generalizing nr p vc with
  | zero => exact nofun
  | succ fuel ih =>
      intro h
      rw [writeLoop, if_neg hnr.ne] at h
      obtain ⟨⟨q, vc₂⟩, hitem, hrest⟩ := bind_eq_ok.mp h
      obtain ⟨d, rfl, -, -⟩ := writeItem_spec hitem
      exact ih (by push_cast; omega) hrest

/-- A loop which finds its end has nothing to do, or does an item which ends in its string. -/
theorem writeLoop_cases (h : writeLoop mem fuel n p vc = .ok vc₁) :
    ∃ f, fuel = f + 1 ∧ (n = 0 ∧ vc = vc₁ ∨
      ∃ d m vc₂, n = d + 1 + m ∧ vc.writeItem f mem p = .ok (p + d, vc₂) ∧
        writeLoop mem f m (p + (d + 1)) vc₂ = .ok vc₁) := by
  cases fuel with
  | zero => cases h
  | succ f =>
      refine ⟨f, rfl, ?_⟩
      rw [writeLoop] at h
      split at h
      next hzero => exact Or.inl ⟨Int.natCast_eq_zero.mp hzero, Except.ok.inj h⟩
      next hne =>
        obtain ⟨⟨q, vc₂⟩, hitem, hrest⟩ := bind_eq_ok.mp h
        obtain ⟨d, rfl, -, -⟩ := writeItem_spec hitem
        have hfits : d + 1 ≤ n := by
          by_contra hlong
          exact writeLoop_negative (by push_cast; omega) hrest
        obtain ⟨m, rfl⟩ := Nat.exists_eq_add_of_le hfits
        refine Or.inr ⟨d, m, vc₂, rfl, hitem, ?_⟩
        have hleft : ((d + 1 + m : ℕ) : ℤ) - 1 - ((p + d : ℕ) - p) = m := by push_cast; ring
        dsimp only at hrest
        rwa [hleft, Nat.add_assoc] at hrest

theorem writeLoop_item {d m : ℕ} (hitem : vc.writeItem fuel mem p = .ok (p + d, vc₂))
    (hrest : writeLoop mem fuel m (p + (d + 1)) vc₂ = .ok vc₁) :
    writeLoop mem (fuel + 1) (d + 1 + m : ℕ) p vc = .ok vc₁ := by
  have hleft : ((d + 1 + m : ℕ) : ℤ) - 1 - ((p + d : ℕ) - p) = m := by push_cast; ring
  rw [writeLoop, if_neg (by push_cast; omega), hitem, ok_bind]
  dsimp only
  rw [hleft, Nat.add_assoc]
  exact hrest

/-- A call which comes back has been given complete sequences. -/
theorem writeLoop_complete (h : writeLoop mem fuel n p vc = .ok vc₁) :
    lexFrom mem .ground p n = .ground := by
  induction fuel generalizing n p vc with
  | zero => cases h
  | succ fuel ih =>
      obtain ⟨f, hf, ⟨rfl, -⟩ | ⟨d, m, vc₂, rfl, hitem, hrest⟩⟩ := writeLoop_cases h
      · rfl
      · obtain rfl := Nat.succ.inj hf
        obtain ⟨d', hd, hat, -⟩ := writeItem_spec hitem
        obtain rfl := Nat.add_left_cancel hd
        rw [lexFrom_add, hat.ends]
        exact ih hrest

/-- What a call does depends on its string and on the screen only. -/
theorem writeLoop_replays (h : writeLoop mem fuel n p vc = .ok vc₁) (hfuel : fuel ≤ fuel')
    (hbytes : ∀ k < n, mem' (p' + k) = mem (p + k)) (hscreen : vc.SameScreen vc') :
    ∃ vc₁', writeLoop mem' fuel' n p' vc' = .ok vc₁' ∧ vc₁.SameScreen vc₁' := by
  induction fuel generalizing fuel' n p p' vc vc' with
  | zero => cases h
  | succ fuel ih =>
      obtain ⟨fuel', rfl⟩ := Nat.exists_eq_add_of_le' (le_trans (Nat.succ_pos fuel) hfuel)
      have hle : fuel ≤ fuel' := Nat.le_of_succ_le_succ hfuel
      obtain ⟨f, hf, ⟨rfl, rfl⟩ | ⟨d, m, vc₂, rfl, hitem, hrest⟩⟩ := writeLoop_cases h
      · exact ⟨vc', rfl, hscreen⟩
      · obtain rfl := Nat.succ.inj hf
        obtain ⟨d', hd, -, hreplays⟩ := writeItem_spec hitem
        obtain rfl := Nat.add_left_cancel hd
        obtain ⟨vc₂', hitem', hscreen'⟩ :=
          hreplays fuel' mem' p' vc' hle (fun k hk => hbytes k (by omega)) hscreen
        have hbytes' : ∀ k < m, mem' (p' + (d + 1) + k) = mem (p + (d + 1) + k) := by
          intro k hk
          rw [Nat.add_assoc p', Nat.add_assoc p]
          exact hbytes (d + 1 + k) (by omega)
        obtain ⟨vc₁', hrest', hend⟩ := ih hrest hle hbytes' hscreen'
        exact ⟨vc₁', writeLoop_item hitem' hrest', hend⟩

/-- A string can be split where the lexer is between two items. -/
theorem writeLoop_split (hcomplete : lexFrom mem .ground p a = .ground)
    (h : writeLoop mem fuel (a + b : ℕ) p vc = .ok vc₁) :
    ∃ vc₂, writeLoop mem fuel a p vc = .ok vc₂ ∧
      ∃ fuel', writeLoop mem fuel' b (p + a) vc₂ = .ok vc₁ := by
  induction fuel generalizing a p vc with
  | zero => cases h
  | succ fuel ih =>
      obtain rfl | hpos := Nat.eq_zero_or_pos a
      · rw [Nat.zero_add] at h
        exact ⟨vc, rfl, fuel + 1, h⟩
      · obtain ⟨f, hf, ⟨hzero, -⟩ | ⟨d, m, vc₂, hlen, hitem, hrest⟩⟩ := writeLoop_cases h
        · omega
        · obtain rfl := Nat.succ.inj hf
          obtain ⟨d', hd, hat, -⟩ := writeItem_spec hitem
          obtain rfl := Nat.add_left_cancel hd
          -- the first item is not longer than the first part
          have hfits : d + 1 ≤ a := by
            by_contra hlong
            exact hat.inside a hpos (by omega) hcomplete
          obtain ⟨a, rfl⟩ := Nat.exists_eq_add_of_le hfits
          obtain rfl : m = a + b := by omega
          rw [lexFrom_add, hat.ends] at hcomplete
          obtain ⟨vc₃, hfirst, fuel', hsecond⟩ := ih hcomplete hrest
          refine ⟨vc₃, writeLoop_item hitem hfirst, fuel', ?_⟩
          rw [← Nat.add_assoc]
          exact hsecond

theorem writeLoop_join (hfirst : writeLoop mem fuel a p vc = .ok vc₁)
    (hsecond : writeLoop mem fuel' b (p + a) vc₁ = .ok vc₂) :
    ∃ fuel₃ vc₃, writeLoop mem fuel₃ (a + b : ℕ) p vc = .ok vc₃ ∧ vc₂.SameScreen vc₃ := by
  induction fuel generalizing a p vc with
  | zero => cases hfirst
  | succ fuel ih =>
      obtain ⟨f, hf, ⟨rfl, rfl⟩ | ⟨d, m, vc₄, rfl, hitem, hrest⟩⟩ := writeLoop_cases hfirst
      · refine ⟨fuel', vc₂, ?_, .refl vc₂⟩
        rw [Nat.zero_add]
        exact hsecond
      · obtain rfl := Nat.succ.inj hf
        rw [← Nat.add_assoc p] at hsecond
        obtain ⟨fuel₃, vc₃, hloop, hscreen⟩ := ih hrest hsecond
        obtain ⟨d', hd, -, hreplays⟩ := writeItem_spec hitem
        obtain rfl := Nat.add_left_cancel hd
        obtain ⟨vc₄', hitem', hscreen'⟩ := hreplays (max fuel fuel₃) mem p vc (le_max_left _ _)
          (fun _ _ => rfl) (.refl vc)
        obtain ⟨vc₃', hloop', hscreen''⟩ :=
          writeLoop_replays hloop (le_max_right fuel fuel₃) (fun _ _ => rfl) hscreen'
        refine ⟨max fuel fuel₃ + 1, vc₃', ?_, hscreen.trans hscreen''⟩
        rw [Nat.add_assoc]
        exact writeLoop_item hitem' hloop'

/-! ## Whole calls -/

theorem SameScreen.of_flushed {cells : Cells} {i lastPos lastPos' : ℕ}
    (h : Flushed { vc with lastPos := lastPos } vc₁ cells i) :
    vc.SameScreen { vc₁ with lastPos := lastPos' } := by
  rw [h.screen]
  exact ⟨rfl, rfl, rfl, rfl, rfl, rfl⟩

/-- The redraw leaves the screen and puts the last position on it. -/
theorem redraw_sameScreen (vc : Vc) :
    (vc.lastPos < vc.scrSize → ∃ vc', vc.calcLastPos.flush = .ok vc') ∧
      Yields (fun vc' => vc.SameScreen vc' ∧ vc.lastPos < vc.scrSize ∧ vc'.lastPos < vc'.scrSize)
        vc.calcLastPos.flush := by
  have hnew : vc.calcLastPos.newLastPos ≤ vc.scrSize - 1 := lastNonzero_le vc.scrBuf vc.scrSize
  have hsame : vc.SameScreen vc.calcLastPos := ⟨rfl, rfl, rfl, rfl, rfl, rfl⟩
  have hlast : vc.calcLastPos.lastPos = vc.lastPos ∧ vc.calcLastPos.scrSize = vc.scrSize :=
    ⟨rfl, rfl⟩
  obtain ⟨hreturns, hflushed⟩ := flush_spec vc.calcLastPos fun _ _ => 0#8
  refine ⟨fun hbefore => hreturns (by omega), hflushed.imp ?_⟩
  rintro vc' ⟨hmax, vc₁, hf, rfl⟩
  refine ⟨hsame.trans (.of_flushed hf), by omega, ?_⟩
  rw [hf.screen]
  dsimp only
  omega

theorem write_returns (hloop : writeLoop mem fuel n 0 vc = .ok vc₁)
    (hlast : vc.lastPos < vc.scrSize) : ∃ vc', vc.write fuel mem n = .ok vc' := by
  have hsame : SameDisplay vc vc₁ := sameDisplay_carried.writeLoop mem fuel n 0 vc vc₁ hloop
  have hlast' : vc₁.lastPos < vc₁.scrSize := by rwa [hsame.lastPos, hsame.scrSize]
  obtain ⟨vc', hflush⟩ := (redraw_sameScreen vc₁).1 hlast'
  exact ⟨vc', bind_eq_ok.mpr ⟨vc₁, hloop, hflush⟩⟩

theorem write_spec (h : vc.write fuel mem n = .ok vc') :
    ∃ vc₁, writeLoop mem fuel n 0 vc = .ok vc₁ ∧ vc₁.SameScreen vc' ∧
      vc.lastPos < vc.scrSize ∧ vc'.lastPos < vc'.scrSize := by
  obtain ⟨vc₁, hloop, hflush⟩ := bind_eq_ok.mp h
  have hsame : SameDisplay vc vc₁ := sameDisplay_carried.writeLoop mem fuel n 0 vc vc₁ hloop
  obtain ⟨hscreen, hlast, hlast'⟩ := (redraw_sameScreen vc₁).2 vc' hflush
  rw [hsame.lastPos, hsame.scrSize] at hlast
  exact ⟨vc₁, hloop, hscreen, hlast, hlast'⟩

/-- The bytes from `p` on are those of the string. -/
def Holds (mem : Bytes) (p : ℕ) : List (BitVec 8) → Prop
  | [] => True
  | c :: text => mem p = c ∧ Holds mem (p + 1) text

theorem Holds.append {text text' : List (BitVec 8)} (h : Holds mem p (text ++ text')) :
    Holds mem p text ∧ Holds mem (p + text.length) text' := by
  induction text generalizing p with
  | nil => exact ⟨trivial, h⟩
  | cons c text ih =>
      obtain ⟨hfirst, hrest⟩ := ih h.2
      rw [Nat.add_assoc, Nat.add_comm 1] at hrest
      exact ⟨⟨h.1, hfirst⟩, hrest⟩

theorem Holds.sameBytes {text : List (BitVec 8)} (h : Holds mem p text) (h' : Holds mem' p' text) :
    ∀ k < text.length, mem' (p' + k) = mem (p + k) := by
  induction text generalizing p p' with
  | nil => exact fun k hk => absurd hk (Nat.not_lt_zero k)
  | cons c text ih =>
      intro k hk
      cases k with
      | zero => exact h'.1.trans h.1.symm
      | succ k =>
          have hrest := ih h.2 h'.2 k (Nat.lt_of_succ_lt_succ hk)
          rw [Nat.add_assoc, Nat.add_assoc, Nat.add_comm 1] at hrest
          exact hrest

theorem Holds.lexFrom {text : List (BitVec 8)} (h : Holds mem p text) (l : Lexer) :
    lexFrom mem l p text.length = text.foldl lexByte l := by
  induction text generalizing p l with
  | nil => rfl
  | cons c text ih =>
      rw [List.length_cons, Vc.lexFrom, h.1, ih h.2]
      rfl

theorem holds_stringMem (text : List (BitVec 8)) : Holds (stringMem text) 0 text := by
  have hshift : ∀ (before text : List (BitVec 8)),
      Holds (stringMem (before ++ text)) before.length text := by
    intro before text
    induction text generalizing before with
    | nil => trivial
    | cons c text ih =>
        constructor
        · simp [stringMem]
        · have hrest := ih (before ++ [c])
          rw [List.append_assoc, List.length_append] at hrest
          exact hrest
  exact hshift [] text

/-- `vc_write` comes back from `nr` bytes with this console. -/
def Returns (vc : Vc) (mem : Bytes) (nr : ℕ) (vc' : Vc) : Prop :=
  ∃ fuel, vc.write fuel mem nr = .ok vc'

/-- Two calls for two strings and a call for both lead to the same screen. -/
def ChunksAgree (vc : Vc) (a b : List (BitVec 8)) : Prop :=
  ∀ memA memB mem, Holds memA 0 a → Holds memB 0 b → Holds mem 0 (a ++ b) →
    (∀ vc', vc.Returns mem (a ++ b).length vc' → ∃ vc₁ vc₂,
      vc.Returns memA a.length vc₁ ∧ vc₁.Returns memB b.length vc₂ ∧ vc'.SameScreen vc₂) ∧
    ∀ vc₁ vc₂, vc.Returns memA a.length vc₁ → vc₁.Returns memB b.length vc₂ →
      ∃ vc', vc.Returns mem (a ++ b).length vc' ∧ vc₂.SameScreen vc'

theorem Returns.complete {text : List (BitVec 8)} (h : vc.Returns mem text.length vc')
    (hmem : Holds mem 0 text) : Complete text := by
  obtain ⟨fuel, hwrite⟩ := h
  obtain ⟨vc₁, hloop, -⟩ := write_spec hwrite
  rw [Complete, ← hmem.lexFrom]
  exact writeLoop_complete hloop

theorem ChunksAgree.complete {a b : List (BitVec 8)} (h : vc.ChunksAgree a b)
    (hmem : Holds mem 0 (a ++ b)) (hreturns : vc.Returns mem (a ++ b).length vc') : Complete a := by
  obtain ⟨vc₁, vc₂, hfirst, -⟩ := (h (stringMem a) (stringMem b) mem (holds_stringMem a)
    (holds_stringMem b) hmem).1 vc' hreturns
  exact hfirst.complete (holds_stringMem a)

theorem Returns.split {memA memB : Bytes} {a b : List (BitVec 8)} (hcomplete : Complete a)
    (hA : Holds memA 0 a) (hB : Holds memB 0 b) (hmem : Holds mem 0 (a ++ b))
    (h : vc.Returns mem (a ++ b).length vc') : ∃ vc₁ vc₂,
      vc.Returns memA a.length vc₁ ∧ vc₁.Returns memB b.length vc₂ ∧ vc'.SameScreen vc₂ := by
  obtain ⟨fuel, hwrite⟩ := h
  obtain ⟨vc₀, hloop, hscreen, hlast, -⟩ := write_spec hwrite
  obtain ⟨hmemA, hmemB⟩ := hmem.append
  rw [List.length_append] at hloop
  rw [Complete, ← hmemA.lexFrom] at hcomplete
  obtain ⟨vcA, hloopA, fuelB, hloopB⟩ := writeLoop_split hcomplete hloop
  -- the first call
  obtain ⟨vcA', hloopA', hscreenA⟩ :=
    writeLoop_replays hloopA le_rfl (hmemA.sameBytes hA) (.refl vc)
  obtain ⟨vc₁, hwriteA⟩ := write_returns hloopA' hlast
  obtain ⟨vcA'', hloopA'', hscreenA', -, hlastA⟩ := write_spec hwriteA
  obtain rfl := Except.ok.inj (hloopA'.symm.trans hloopA'')
  -- the second one starts on the same screen
  obtain ⟨vcB', hloopB', hscreenB⟩ :=
    writeLoop_replays hloopB le_rfl (hmemB.sameBytes hB) (hscreenA.trans hscreenA')
  obtain ⟨vc₂, hwriteB⟩ := write_returns hloopB' hlastA
  obtain ⟨vcB'', hloopB'', hscreenB', -⟩ := write_spec hwriteB
  obtain rfl := Except.ok.inj (hloopB'.symm.trans hloopB'')
  exact ⟨vc₁, vc₂, ⟨fuel, hwriteA⟩, ⟨fuelB, hwriteB⟩,
    hscreen.symm.trans (hscreenB.trans hscreenB')⟩

theorem Returns.join {memA memB : Bytes} {a b : List (BitVec 8)}
    (hA : Holds memA 0 a) (hB : Holds memB 0 b) (hmem : Holds mem 0 (a ++ b))
    (hfirst : vc.Returns memA a.length vc₁) (hsecond : vc₁.Returns memB b.length vc₂) :
    ∃ vc', vc.Returns mem (a ++ b).length vc' ∧ vc₂.SameScreen vc' := by
  obtain ⟨fuelA, hwriteA⟩ := hfirst
  obtain ⟨fuelB, hwriteB⟩ := hsecond
  obtain ⟨vcA, hloopA, hscreenA, hlast, -⟩ := write_spec hwriteA
  obtain ⟨vcB, hloopB, hscreenB, -⟩ := write_spec hwriteB
  obtain ⟨hmemA, hmemB⟩ := hmem.append
  obtain ⟨vcA', hloopA', hscreenA'⟩ :=
    writeLoop_replays hloopA le_rfl (hA.sameBytes hmemA) (.refl vc)
  obtain ⟨vcB', hloopB', hscreenB'⟩ := writeLoop_replays hloopB le_rfl (hB.sameBytes hmemB)
    (hscreenA.symm.trans hscreenA')
  obtain ⟨fuel, vc₀, hloop, hscreen⟩ := writeLoop_join hloopA' hloopB'
  rw [← List.length_append] at hloop
  obtain ⟨vc', hwrite⟩ := write_returns hloop hlast
  obtain ⟨vc₀', hloop', hscreen', -⟩ := write_spec hwrite
  obtain rfl := Except.ok.inj (hloop.symm.trans hloop')
  exact ⟨vc', ⟨fuel, hwrite⟩,
    hscreenB.symm.trans (hscreenB'.trans (hscreen.trans hscreen'))⟩

/-- Output can be split at a place where the call for both strings comes back if and only if
this is not inside of an escape sequence. -/
theorem chunksAgree_iff (vc : Vc) (a b : List (BitVec 8)) :
    vc.ChunksAgree a b ↔
      ((∃ mem vc', Holds mem 0 (a ++ b) ∧ vc.Returns mem (a ++ b).length vc') → Complete a) := by
  constructor
  · rintro h ⟨mem, vc', hmem, hreturns⟩
    exact h.complete hmem hreturns
  · intro hcomplete memA memB mem hA hB hmem
    refine ⟨fun vc' hreturns => ?_, fun vc₁ vc₂ => Returns.join hA hB hmem⟩
    exact hreturns.split (hcomplete ⟨mem, vc', hmem, hreturns⟩) hA hB hmem

/-- The escape character is in the first call, and what follows it in the second. -/
theorem not_chunksAgree_escape :
    ¬ ∀ (vc : Vc) (a b : List (BitVec 8)), vc.ChunksAgree a b := by
  intro hall
  have hrun : (write 20 (stringMem ([escape] ++ [0x5B#8, 0x43#8])) 3
      (init 8 2 fun _ => 0#8)).map (fun vc => decide (vc.cx = 0)) = .ok true := by decide +kernel
  obtain ⟨vc', hwrite, -⟩ := exists_of_map_decide hrun
  have hcomplete : Complete [escape] :=
    (hall (init 8 2 fun _ => 0#8) [escape] [0x5B#8, 0x43#8]).complete (holds_stringMem _)
      ⟨20, hwrite⟩
  exact absurd hcomplete (by decide)

end Vc

end Yak.Console
