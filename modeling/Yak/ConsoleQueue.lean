import Yak.ConsoleChunks

/-!
# The queue of the console

The loop of `vc_write` counts down the bytes of its queue, and an escape sequence takes as many
of them as it has looked at.  It comes to the end of the queue with nothing left if the string
does not end inside of an escape sequence, every access of the console is inside of its
buffers, and no `CSI m` makes the loop of `vc_set_attr` run for ever.
-/

namespace Yak

universe v

/-- The computation comes to a result or to an access outside an object. -/
def Concludes {α : Type v} (x : Except Halt α) : Prop := ∀ e, x = .error e → e = .outOfBounds

/-- The second computation has more fuel than the first. -/
def Refuels {α : Type v} (x y : Except Halt α) : Prop := x ≠ .error .endless → y = x

section Fuel

variable {α β : Type v} {x y : Except Halt α} {f g : α → Except Halt β}

theorem Concludes.ok (a : α) : Concludes (.ok a) := nofun

theorem Concludes.outOfBounds : Concludes (.error .outOfBounds : Except Halt α) :=
  fun _ h => (Except.error.inj h).symm

theorem Concludes.bind (hx : Concludes x) (hf : ∀ a, Concludes (f a)) : Concludes (x >>= f) := by
  cases x with
  | error e => exact fun e' h => hx e' (congrArg Except.error (Except.error.inj h))
  | ok a => exact hf a

/-- What concludes is a result unless it is an access outside an object. -/
theorem Concludes.exists_ok (hx : Concludes x) (h : x ≠ .error .outOfBounds) : ∃ a, x = .ok a := by
  cases x with
  | error e => exact absurd (congrArg Except.error (hx e rfl)) h
  | ok a => exact ⟨a, rfl⟩

theorem Refuels.endless : Refuels (.error .endless) y := fun h => absurd rfl h

theorem Refuels.refl (x : Except Halt α) : Refuels x x := fun _ => rfl

theorem Refuels.bind (hx : Refuels x y) (hf : ∀ a, Refuels (f a) (g a)) :
    Refuels (x >>= f) (y >>= g) := by
  intro h
  cases x with
  | error e =>
      have hne : (.error e : Except Halt α) ≠ .error .endless :=
        fun he => h (congrArg Except.error (Except.error.inj he))
      rw [hx hne]
      rfl
  | ok a =>
      rw [hx nofun]
      exact hf a h

theorem Refuels.eq_ok {a : α} (hx : Refuels x y) (h : x = .ok a) : y = .ok a := by
  rw [hx (by rw [h]; exact nofun), h]

end Fuel

namespace Console

open ByteBitmap (Bytes)
open WordMemory (sub32)

theorem memset_concludes (size : ℕ) (buf : Bytes) (start count : ℕ) :
    Concludes (memset size buf start count) := by
  unfold memset
  split
  next => exact .ok _
  next => exact .outOfBounds

theorem memmove_concludes (size : ℕ) (buf : Bytes) (dst src count : ℕ) :
    Concludes (memmove size buf dst src count) := by
  unfold memmove
  split
  next => exact .ok _
  next => exact .outOfBounds

theorem copyBackward_concludes (size : ℕ) (buf : Bytes) (count dst src : ℕ) :
    Concludes (copyBackward size buf count dst src) := by
  induction count generalizing buf dst src with
  | zero => exact .ok _
  | succ count ih =>
      rw [copyBackward]
      split
      next => exact ih _ _ _
      next => exact .outOfBounds

namespace Vc

variable {vc vc' vc₁ vc₂ : Vc} {mem : Bytes} {fuel fuel' p q n d : ℕ} {nr nr' : ℤ}

/-! ## The routines of the console -/

theorem redraw_concludes {x : Except Halt Bytes} (hx : Concludes x) :
    Concludes (x >>= fun buf => .ok { vc with scrBuf := buf }) :=
  hx.bind fun _ => .ok _

theorem scrollUp_concludes (vc : Vc) : Concludes vc.scrollUp :=
  (memmove_concludes _ _ _ _ _).bind fun _ => redraw_concludes (memset_concludes _ _ _ _)

theorem scrollDown_concludes (vc : Vc) : Concludes vc.scrollDown :=
  (copyBackward_concludes _ _ _ _ _).bind fun _ => redraw_concludes (memset_concludes _ _ _ _)

theorem times_concludes {f : Vc → Except Halt Vc} (hf : ∀ vc, Concludes (f vc)) (count : ℕ)
    (vc : Vc) : Concludes (times f count vc) := by
  induction count generalizing vc with
  | zero => exact .ok _
  | succ count ih => exact (hf vc).bind ih

theorem linesFromCursor_concludes {f : Vc → Except Halt Vc} (hf : ∀ vc, Concludes (f vc))
    (count : ℕ) (vc : Vc) : Concludes (linesFromCursor f vc count) :=
  (times_concludes hf count _).bind fun _ => .ok _

theorem linefeed_concludes (vc : Vc) : Concludes vc.linefeed := by
  unfold linefeed
  split
  next => exact .ok _
  next => exact scrollUp_concludes vc

theorem insertBlanks_concludes (vc : Vc) (count : ℕ) : Concludes (vc.insertBlanks count) := by
  unfold insertBlanks
  dsimp only
  split
  next => exact redraw_concludes (memset_concludes _ _ _ _)
  next =>
    exact (memmove_concludes _ _ _ _ _).bind fun _ => redraw_concludes (memset_concludes _ _ _ _)

theorem clearScreen_concludes (vc : Vc) (par : ℕ) : Concludes (vc.clearScreen par) := by
  unfold clearScreen
  dsimp only
  split
  next => exact redraw_concludes (memset_concludes _ _ _ _)
  next => exact redraw_concludes (memset_concludes _ _ _ _)
  next => exact redraw_concludes (memset_concludes _ _ _ _)
  next => exact .ok _

theorem clearLine_concludes (vc : Vc) (par : ℕ) : Concludes (vc.clearLine par) := by
  unfold clearLine
  dsimp only
  split
  next => exact redraw_concludes (memset_concludes _ _ _ _)
  next => exact redraw_concludes (memset_concludes _ _ _ _)
  next => exact redraw_concludes (memset_concludes _ _ _ _)
  next => exact .ok _

theorem shortEscape_concludes (vc : Vc) (c : Char) : Concludes (vc.shortEscape c) := by
  unfold shortEscape
  split
  next => exact linefeed_concludes vc
  next => exact (linefeed_concludes vc).bind fun _ => .ok _
  next => exact .ok _
  next => exact .ok _
  next => exact .ok _
  next => exact .ok _
  next => exact .ok _

theorem advance_concludes (vc : Vc) : Concludes vc.advance := by
  unfold advance
  split
  next => exact (scrollUp_concludes vc).bind fun _ => .ok _
  next =>
    split
    next => exact linefeed_concludes _
    next => exact .ok _

theorem plainItem_concludes (vc : Vc) (b : BitVec 8) : Concludes (vc.plainItem b) := by
  unfold plainItem
  split
  next => exact .ok _
  next =>
    split
    next => exact linefeed_concludes vc
    next =>
      split
      next => exact .ok _
      next =>
        rw [putChar_eq]
        split
        next => exact advance_concludes _
        next => exact .outOfBounds

/-! ## The loop of `vc_set_attr` -/

/-- The parameters after which `vc_set_attr` takes up at a fixed place. -/
def IsColor (n : ℕ) : Prop := n = 38 ∨ n = 48

/-- The parameters after which it goes on with the next. -/
def IsKnown (n : ℕ) : Prop :=
  (30 ≤ n ∧ n ≤ 39) ∨ (90 ≤ n ∧ n ≤ 97) ∨ (40 ≤ n ∧ n ≤ 49) ∨ (100 ≤ n ∧ n ≤ 107) ∨
    n ∈ [0, 1, 2, 3, 4, 5, 7, 8, 9, 22, 23, 24, 25, 27, 28, 29]

instance (n : ℕ) : Decidable (IsColor n) := inferInstanceAs (Decidable (_ ∨ _))

instance (n : ℕ) : Decidable (IsKnown n) := inferInstanceAs (Decidable (_ ∨ _))

/-- The place at which `vc_set_attr` takes up after a colour, wherever that is. -/
def resume (par : ℕ → ℕ) : ℕ := if par 1 = 5 then 4 else if par 1 = 2 then 6 else 2

/-- From parameter `p` on there is a colour before anything which ends the loop. -/
def ColorFrom (par : ℕ → ℕ) (len p : ℕ) : Prop :=
  ∃ k, p ≤ k ∧ k < len ∧ k < npar ∧ IsColor (par k) ∧ ∀ j, p ≤ j → j < k → IsKnown (par j)

/-- The loop comes to a colour, and to another one from the place at which it takes up. -/
def SgrLoops (par : ℕ → ℕ) (len : ℕ) : Prop :=
  ColorFrom par len 0 ∧ ColorFrom par len (resume par)

section SetAttr

variable {par : ℕ → ℕ} {len : ℕ} {type : VcAttrType}

theorem set256Rgb_fst (vc : Vc) (par : ℕ → ℕ) (type : VcAttrType) (fg : Bool) :
    (vc.set256Rgb par type fg).1 + 1 = resume par := by
  unfold set256Rgb resume
  split_ifs <;> rfl

theorem setAttr_color (vc : Vc) (type : VcAttrType) (hlen : p < len) (hpar : p < npar)
    (hcolor : IsColor (par p)) :
    ∃ type' vc', ∀ fuel, setAttr par len (fuel + 1) p type vc =
      setAttr par len fuel (resume par) type' vc' := by
  have hcolor' : par p = 38 ∨ par p = 48 := hcolor
  have hnext := set256Rgb_fst vc par type (decide (par p = 38))
  refine ⟨(vc.set256Rgb par type (decide (par p = 38))).2.2,
    (vc.set256Rgb par type (decide (par p = 38))).2.1, fun fuel => ?_⟩
  rw [setAttr, if_neg (by omega), if_neg (by omega), if_pos hcolor', ← hnext]

theorem setAttr_known (vc : Vc) (type : VcAttrType) (hlen : p < len) (hpar : p < npar)
    (hcolor : ¬ IsColor (par p)) (hknown : IsKnown (par p)) :
    ∃ type' vc', ∀ fuel, setAttr par len (fuel + 1) p type vc =
      setAttr par len fuel (p + 1) type' vc' := by
  have hcolor' : ¬ (par p = 38 ∨ par p = 48) := hcolor
  by_cases hfg : (30 ≤ par p ∧ par p ≤ 39) ∨ (90 ≤ par p ∧ par p ≤ 97)
  · refine ⟨.indexedColor, vc.setIndexed true (par 0), fun fuel => ?_⟩
    rw [setAttr, if_neg (by omega), if_neg (by omega), if_neg hcolor', if_pos hfg]
  by_cases hbg : (40 ≤ par p ∧ par p ≤ 49) ∨ (100 ≤ par p ∧ par p ≤ 107)
  · refine ⟨.indexedColor, vc.setIndexed false (par 0), fun fuel => ?_⟩
    rw [setAttr, if_neg (by omega), if_neg (by omega), if_neg hcolor', if_neg hfg, if_pos hbg]
  · have hflag : ∃ vc', vc.setAttrFlag (par p) = some vc' := by
      have hmem : par p ∈ [0, 1, 2, 3, 4, 5, 7, 8, 9, 22, 23, 24, 25, 27, 28, 29] := by
        unfold IsKnown at hknown
        tauto
      simp only [List.mem_cons, List.not_mem_nil, or_false] at hmem
      rcases hmem with h | h | h | h | h | h | h | h | h | h | h | h | h | h | h | h <;>
        exact ⟨_, by rw [h]; rfl⟩
    obtain ⟨vc', hvc⟩ := hflag
    refine ⟨type, vc', fun fuel => ?_⟩
    rw [setAttr, if_neg (by omega), if_neg (by omega), if_neg hcolor', if_neg hfg, if_neg hbg, hvc]

theorem setAttrFlag_unknown {k : ℕ} (h : ¬ IsKnown k) : vc.setAttrFlag k = none := by
  unfold setAttrFlag
  split
  case h_17 => rfl
  all_goals exact absurd (by decide) h

theorem setAttr_other (hlen : p < len) (hpar : p < npar) (hother : ¬ IsKnown (par p)) :
    setAttr par len (fuel + 1) p type vc = .ok vc := by
  have hcolor : ¬ (par p = 38 ∨ par p = 48) := by
    unfold IsKnown at hother
    omega
  rw [setAttr, if_neg (by omega), if_neg (by omega), if_neg hcolor, if_neg, if_neg,
    setAttrFlag_unknown hother]
  · unfold IsKnown at hother
    tauto
  · unfold IsKnown at hother
    tauto

theorem ColorFrom.next (h : ColorFrom par len p) (hcolor : ¬ IsColor (par p)) :
    p < len ∧ p < npar ∧ IsKnown (par p) ∧ ColorFrom par len (p + 1) := by
  obtain ⟨k, hpk, hlen, hpar, hk, hknown⟩ := h
  have hne : p ≠ k := fun heq => hcolor (heq ▸ hk)
  exact ⟨by omega, by omega, hknown p le_rfl (by omega), k, by omega, hlen, hpar, hk,
    fun j hj => hknown j (by omega)⟩

theorem ColorFrom.prev (h : ColorFrom par len (p + 1)) (hknown : IsKnown (par p)) :
    ColorFrom par len p := by
  obtain ⟨k, hpk, hlen, hpar, hk, hall⟩ := h
  refine ⟨k, by omega, hlen, hpar, hk, fun j hj hjk => ?_⟩
  obtain rfl | hlt := Nat.eq_or_lt_of_le hj
  · exact hknown
  · exact hall j hlt hjk

/-- Each time the loop takes up there is a colour again. -/
theorem setAttr_endless (hresume : ColorFrom par len (resume par)) (fuel : ℕ)
    (h : ColorFrom par len p) : setAttr par len fuel p type vc = .error .endless := by
  induction fuel generalizing p type vc with
  | zero => rfl
  | succ fuel ih =>
      by_cases hcolor : IsColor (par p)
      · obtain ⟨k, hpk, hlen, hpar, -⟩ := h
        obtain ⟨type', vc', hstep⟩ :=
          setAttr_color vc type (by omega : p < len) (by omega) hcolor
        rw [hstep]
        exact ih hresume
      · obtain ⟨hlen, hpar, hknown, hnext⟩ := h.next hcolor
        obtain ⟨type', vc', hstep⟩ := setAttr_known vc type hlen hpar hcolor hknown
        rw [hstep]
        exact ih hnext

theorem setAttr_concludes_of_not_colorFrom (h : ¬ ColorFrom par len p) (hfuel : len - p < fuel) :
    Concludes (setAttr par len fuel p type vc) := by
  induction fuel generalizing p type vc with
  | zero => exact absurd hfuel (Nat.not_lt_zero _)
  | succ fuel ih =>
      by_cases hlen : len ≤ p
      · rw [setAttr, if_pos hlen]
        exact .ok _
      by_cases hpar : npar ≤ p
      · rw [setAttr, if_neg hlen, if_pos hpar]
        exact .outOfBounds
      rw [not_le] at hlen hpar
      have hcolor : ¬ IsColor (par p) := fun hc =>
        h ⟨p, le_rfl, hlen, hpar, hc, fun j hj hjp => absurd hj (by omega)⟩
      by_cases hknown : IsKnown (par p)
      · obtain ⟨type', vc', hstep⟩ := setAttr_known vc type hlen hpar hcolor hknown
        rw [hstep]
        exact ih (fun hnext => h (hnext.prev hknown)) (by omega)
      · rw [setAttr_other hlen hpar hknown]
        exact .ok _

theorem setAttr_concludes_of_resume (h : ¬ ColorFrom par len (resume par))
    (hfuel : len - p + len < fuel) : Concludes (setAttr par len fuel p type vc) := by
  induction fuel generalizing p type vc with
  | zero => exact absurd hfuel (Nat.not_lt_zero _)
  | succ fuel ih =>
      by_cases hlen : len ≤ p
      · rw [setAttr, if_pos hlen]
        exact .ok _
      by_cases hpar : npar ≤ p
      · rw [setAttr, if_neg hlen, if_pos hpar]
        exact .outOfBounds
      rw [not_le] at hlen hpar
      by_cases hcolor : IsColor (par p)
      · obtain ⟨type', vc', hstep⟩ := setAttr_color vc type hlen hpar hcolor
        rw [hstep]
        exact setAttr_concludes_of_not_colorFrom h (by omega)
      by_cases hknown : IsKnown (par p)
      · obtain ⟨type', vc', hstep⟩ := setAttr_known vc type hlen hpar hcolor hknown
        rw [hstep]
        exact ih (by omega)
      · rw [setAttr_other hlen hpar hknown]
        exact .ok _

theorem setAttr_concludes (h : ¬ SgrLoops par len) (hfuel : len + len < fuel) :
    Concludes (setAttr par len fuel 0 type vc) := by
  by_cases hfirst : ColorFrom par len 0
  · exact setAttr_concludes_of_resume (fun hresume => h ⟨hfirst, hresume⟩) hfuel
  · exact setAttr_concludes_of_not_colorFrom hfirst (by omega)

theorem setAttr_refuels (hfuel : fuel ≤ fuel') :
    Refuels (setAttr par len fuel p type vc) (setAttr par len fuel' p type vc) := by
  induction fuel generalizing fuel' p type vc with
  | zero => exact .endless
  | succ fuel ih =>
      obtain ⟨fuel', rfl⟩ := Nat.exists_eq_add_of_le' (le_trans (Nat.succ_pos fuel) hfuel)
      have hle : fuel ≤ fuel' := Nat.le_of_succ_le_succ hfuel
      by_cases hlen : len ≤ p
      · rw [setAttr, setAttr, if_pos hlen, if_pos hlen]
        exact .refl _
      by_cases hpar : npar ≤ p
      · rw [setAttr, setAttr, if_neg hlen, if_pos hpar, if_neg hlen, if_pos hpar]
        exact .refl _
      rw [not_le] at hlen hpar
      by_cases hcolor : IsColor (par p)
      · obtain ⟨type', vc', hstep⟩ := setAttr_color vc type hlen hpar hcolor
        rw [hstep, hstep]
        exact ih hle
      by_cases hknown : IsKnown (par p)
      · obtain ⟨type', vc', hstep⟩ := setAttr_known vc type hlen hpar hcolor hknown
        rw [hstep, hstep]
        exact ih hle
      · rw [setAttr_other hlen hpar hknown, setAttr_other hlen hpar hknown]
        exact .refl _

end SetAttr

/-! ## Items -/

theorem csiPars_refuels {i : ℕ} {par : ℕ → ℕ} (hfuel : fuel ≤ fuel') :
    Refuels (csiPars mem fuel p i par) (csiPars mem fuel' p i par) := by
  induction fuel generalizing fuel' p i par with
  | zero => exact .endless
  | succ fuel ih =>
      obtain ⟨fuel', rfl⟩ := Nat.exists_eq_add_of_le' (le_trans (Nat.succ_pos fuel) hfuel)
      have hle : fuel ≤ fuel' := Nat.le_of_succ_le_succ hfuel
      rw [csiPars, csiPars]
      split
      next =>
        split
        next => exact .refl _
        next => exact ih hle
      next =>
        split
        next => exact ih hle
        next => exact .refl _

theorem csiPars_concludes {i : ℕ} {par : ℕ → ℕ} (h : lexFrom mem .params p (d + 1) = .ground)
    (hfuel : d < fuel) : Concludes (csiPars mem fuel p i par) := by
  induction fuel generalizing p i par d with
  | zero => exact absurd hfuel (Nat.not_lt_zero _)
  | succ fuel ih =>
      -- a parameter byte is not the last one
      have hnext : IsDigit (mem p) ∨ chr (mem p) = ';' →
          ∃ e < fuel, lexFrom mem .params (p + 1) (e + 1) = .ground := by
        intro hbyte
        have hlex : lexByte .params (mem p) = .params := if_pos hbyte
        cases d with
        | zero =>
            rw [lexFrom, hlex] at h
            cases h
        | succ d =>
            rw [lexFrom, hlex] at h
            exact ⟨d, by omega, h⟩
      rw [csiPars]
      split
      next hdigit =>
        split
        next => exact .outOfBounds
        next =>
          obtain ⟨e, he, hrest⟩ := hnext (Or.inl hdigit)
          exact ih hrest he
      next =>
        split
        next hsep =>
          obtain ⟨e, he, hrest⟩ := hnext (Or.inr hsep)
          exact ih hrest he
        next => exact .ok _

theorem csiFinal_refuels {i : ℕ} {par : ℕ → ℕ} (c : Char) (hfuel : fuel ≤ fuel') :
    Refuels (vc.csiFinal fuel i par c) (vc.csiFinal fuel' i par c) := by
  by_cases hm : c = 'm'
  · subst hm
    exact setAttr_refuels hfuel
  · have hsame : vc.csiFinal fuel' i par c = vc.csiFinal fuel i par c := by
      unfold csiFinal
      split <;> first | rfl | exact absurd rfl hm
    rw [hsame]
    exact .refl _

theorem csiFinal_concludes {i : ℕ} {par : ℕ → ℕ} {c : Char}
    (hm : c = 'm' → ¬ SgrLoops par (i + 1)) (hfuel : i + 1 + (i + 1) < fuel) :
    Concludes (vc.csiFinal fuel i par c) := by
  unfold csiFinal
  split
  next => exact insertBlanks_concludes _ _
  next => exact .ok _
  next => exact .ok _
  next => exact .ok _
  next => exact .ok _
  next => exact .ok _
  next => exact .ok _
  next => exact .ok _
  next => exact .ok _
  next => exact .ok _
  next => exact .ok _
  next => exact .ok _
  next => exact clearScreen_concludes _ _
  next => exact clearLine_concludes _ _
  next => exact linesFromCursor_concludes scrollDown_concludes _ _
  next => exact linesFromCursor_concludes scrollUp_concludes _ _
  next =>
    exact (memmove_concludes _ _ _ _ _).bind fun _ => redraw_concludes (memset_concludes _ _ _ _)
  next => exact redraw_concludes (memset_concludes _ _ _ _)
  next => exact .ok _
  next => exact setAttr_concludes (hm rfl) hfuel
  next => exact .ok _
  next => exact .ok _

/-- There is a `CSI m` at `p` with parameters for which `vc_set_attr` does not come back. -/
def Stalls (mem : Bytes) (p : ℕ) : Prop :=
  mem p = escape ∧ chr (mem (p + 1)) = '[' ∧ ∃ fuel q i par,
    csiPars mem fuel (p + 2) 0 (fun _ => 0) = .ok (q, i, par) ∧ chr (mem q) = 'm' ∧
      SgrLoops par (i + 1)

theorem csiEscape_refuels (hfuel : fuel ≤ fuel') :
    Refuels (vc.csiEscape fuel mem p) (vc.csiEscape fuel' mem p) :=
  (csiPars_refuels hfuel).bind fun _ => (csiFinal_refuels _ hfuel).bind fun _ => .refl _

theorem writeItem_refuels (hfuel : fuel ≤ fuel') :
    Refuels (vc.writeItem fuel mem p) (vc.writeItem fuel' mem p) := by
  by_cases hesc : mem p = escape
  · rw [writeItem_of_escape hesc, writeItem_of_escape hesc]
    by_cases hcsi : chr (mem (p + 1)) = '['
    · rw [startEscape_csi hcsi, startEscape_csi hcsi]
      exact csiEscape_refuels hfuel
    · rw [startEscape_of_ne hcsi, startEscape_of_ne hcsi]
      exact .refl _
  · rw [writeItem_of_plain hesc, writeItem_of_plain hesc]
    exact .refl _

/-- An item does one thing only, with any fuel that is enough. -/
theorem writeItem_unique {x y : Except Halt (ℕ × Vc)} (hx : vc.writeItem fuel mem p = x)
    (hy : vc.writeItem fuel' mem p = y) (hxe : x ≠ .error .endless) (hye : y ≠ .error .endless) :
    x = y := by
  subst hx hy
  have hmax := writeItem_refuels (le_max_left fuel fuel') hxe
  have hmax' := writeItem_refuels (le_max_right fuel fuel') hye
  exact hmax.symm.trans hmax'

theorem writeItem_concludes (vc : Vc) (hitem : ItemAt mem p d) (hstalls : ¬ Stalls mem p) :
    ∃ fuel, Concludes (vc.writeItem fuel mem p) := by
  by_cases hesc : mem p = escape
  · have hfirst : lexByte .ground (mem p) = .escaped := if_pos hesc
    by_cases hcsi : chr (mem (p + 1)) = '['
    · have hsecond : lexByte .escaped (mem (p + 1)) = .params := if_pos hcsi
      obtain ⟨d, rfl⟩ : ∃ e, d = e + 2 := by
        have hends := hitem.ends
        rcases d with _ | _ | d
        · rw [lexFrom, hfirst] at hends
          cases hends
        · rw [lexFrom, lexFrom, hfirst, hsecond] at hends
          cases hends
        · exact ⟨d, rfl⟩
      have hends := hitem.ends
      rw [lexFrom, lexFrom, hfirst, hsecond] at hends
      have hpars : Concludes (csiPars mem (d + 1) (p + 2) 0 fun _ => 0) :=
        csiPars_concludes hends (Nat.lt_succ_self d)
      cases hrun : csiPars mem (d + 1) (p + 2) 0 (fun _ => 0) with
      | error e =>
          refine ⟨d + 1, ?_⟩
          rw [writeItem_of_escape hesc, startEscape_csi hcsi, csiEscape, hrun, hpars e hrun]
          exact .outOfBounds
      | ok r =>
          obtain ⟨q, i, par⟩ := r
          refine ⟨max (d + 1) (i + 1 + (i + 1) + 1), ?_⟩
          have hmore := (csiPars_refuels (le_max_left (d + 1) (i + 1 + (i + 1) + 1))).eq_ok hrun
          rw [writeItem_of_escape hesc, startEscape_csi hcsi, csiEscape, hmore, ok_bind]
          refine (csiFinal_concludes (fun hm hloops => ?_) (by omega)).bind fun _ => .ok _
          exact hstalls ⟨hesc, hcsi, d + 1, q, i, par, hrun, hm, hloops⟩
    · refine ⟨0, ?_⟩
      rw [writeItem_of_escape hesc, startEscape_of_ne hcsi]
      exact (shortEscape_concludes _ _).bind fun _ => .ok _
  · refine ⟨0, ?_⟩
    rw [writeItem_of_plain hesc]
    exact (plainItem_concludes _ _).bind fun _ => .ok _

theorem Stalls.writeItem_ne_ok (h : Stalls mem p) {r : ℕ × Vc} :
    vc.writeItem fuel mem p ≠ .ok r := by
  obtain ⟨hesc, hcsi, fuel', q, i, par, hpars, hm, hloops⟩ := h
  intro hrun
  have hmore := (csiPars_refuels (le_max_right fuel fuel')).eq_ok hpars
  have hmax := (writeItem_refuels (le_max_left fuel fuel')).eq_ok hrun
  rw [writeItem_of_escape hesc, startEscape_csi hcsi, csiEscape, hmore, ok_bind] at hmax
  dsimp only at hmax
  rw [hm] at hmax
  have hendless : vc.csiFinal (max fuel fuel') i par 'm' = .error .endless :=
    setAttr_endless hloops.2 _ hloops.1
  rw [hendless] at hmax
  cases hmax

/-! ## The ends of items -/

theorem exists_itemAt (hn : 0 < n) (h : lexFrom mem .ground p n = .ground) :
    ∃ d < n, ItemAt mem p d := by
  classical
  have hex : ∃ m, 0 < m ∧ lexFrom mem .ground p m = .ground := ⟨n, hn, h⟩
  obtain ⟨hpos, hground⟩ := Nat.find_spec hex
  have hle : Nat.find hex ≤ n := Nat.find_min' hex ⟨hn, h⟩
  refine ⟨Nat.find hex - 1, by omega, ⟨fun m hm hlt hback => ?_, ?_⟩⟩
  · exact Nat.find_min hex (by omega) ⟨hm, hback⟩
  · rw [Nat.sub_add_cancel hpos]
    exact hground

theorem ItemAt.unique {d' : ℕ} (h : ItemAt mem p d) (h' : ItemAt mem p d') : d = d' := by
  obtain hlt | heq | hgt := Nat.lt_trichotomy d d'
  · exact absurd h.ends (h'.inside (d + 1) (Nat.succ_pos d) hlt)
  · exact heq
  · exact absurd h'.ends (h.inside (d' + 1) (Nat.succ_pos d') hgt)

theorem ItemAt.lt (h : ItemAt mem p d) (hn : 0 < n) (hground : lexFrom mem .ground p n = .ground) :
    d < n := by
  by_contra hle
  exact h.inside n hn (by omega) hground

/-- The turn of the loop at `p` looks at the byte at `k`. -/
def Reads (mem : Bytes) (p k : ℕ) : Prop :=
  k = p ∨ mem p = escape ∧
    (k = p + 1 ∨ chr (mem (p + 1)) = '[' ∧ p + 2 ≤ k ∧
      ∀ j, p + 2 ≤ j → j < k → IsDigit (mem j) ∨ chr (mem j) = ';')

theorem lexFrom_params (h : ∀ j, p ≤ j → j < p + n → IsDigit (mem j) ∨ chr (mem j) = ';') :
    lexFrom mem .params p n = .params := by
  induction n generalizing p with
  | zero => rfl
  | succ n ih =>
      have hlex : lexByte .params (mem p) = .params := if_pos (h p le_rfl (by omega))
      rw [lexFrom, hlex]
      exact ih fun j hj hlt => h j (by omega) (by omega)

/-- Nothing behind the end of an item is looked at. -/
theorem ItemAt.reads {k : ℕ} (h : ItemAt mem p d) (hk : Reads mem p k) : k ≤ p + d := by
  obtain rfl | ⟨hesc, hrest⟩ := hk
  · exact Nat.le_add_right _ _
  have hfirst : lexByte .ground (mem p) = .escaped := if_pos hesc
  have hends := h.ends
  rcases d with _ | d
  · rw [lexFrom, hfirst] at hends
    cases hends
  obtain rfl | ⟨hcsi, -, hpars⟩ := hrest
  · omega
  have hsecond : lexByte .escaped (mem (p + 1)) = .params := if_pos hcsi
  rw [lexFrom, lexFrom, hfirst, hsecond] at hends
  by_contra hbehind
  rw [lexFrom_params fun j hj hlt => hpars j hj (by omega)] at hends
  cases hends

/-! ## Turns of the loop -/

/-- The loop comes from one state to another. -/
inductive Visits (mem : Bytes) : ℤ → ℕ → Vc → ℤ → ℕ → Vc → Prop
  | refl (nr : ℤ) (p : ℕ) (vc : Vc) : Visits mem nr p vc nr p vc
  | turn {nr nr' : ℤ} {fuel p q p' : ℕ} {vc vc₁ vc' : Vc} (hnr : nr ≠ 0)
      (hitem : vc.writeItem fuel mem p = .ok (q, vc₁))
      (hrest : Visits mem (nr - 1 - (q - p)) (q + 1) vc₁ nr' p' vc') :
      Visits mem nr p vc nr' p' vc'

/-- `vc_write` comes to the end of its queue, and no byte behind it is looked at. -/
structure ConsumesQueue (vc : Vc) (mem : Bytes) (nr : ℕ) : Prop where
  ends : ∃ fuel vc', writeLoop mem fuel nr 0 vc = .ok vc' ∧ Visits mem nr 0 vc 0 nr vc'
  inside : ∀ n p vc', Visits mem nr 0 vc n p vc' → n ≠ 0 → ∀ k, Reads mem p k → k < nr

/-- The turn does not stop the kernel. -/
structure Proceeds (vc : Vc) (mem : Bytes) (p : ℕ) : Prop where
  returns : ¬ Stalls mem p
  inBounds : ∀ fuel, vc.writeItem fuel mem p ≠ .error .outOfBounds

theorem turn_left {k : ℕ} (h : d < k) :
    (k : ℤ) - 1 - ((p + d : ℕ) - p) = ((k - 1 - d : ℕ) : ℤ) := by
  omega

theorem Visits.le (h : Visits mem nr p vc nr' q vc') : nr' ≤ nr := by
  induction h with
  | refl => exact le_rfl
  | turn hnr hitem _ ih =>
      obtain ⟨d, rfl, -⟩ := writeItem_spec hitem
      push_cast at ih
      omega

/-- A loop which comes to its end has been given complete sequences. -/
theorem Visits.complete (h : Visits mem nr p vc 0 q vc') {k : ℕ} (hk : nr = k) :
    lexFrom mem .ground p k = .ground := by
  generalize hzero : (0 : ℤ) = nr' at h
  induction h generalizing k with
  | refl =>
      obtain rfl : k = 0 := by omega
      rfl
  | turn hnr hitem hrest ih =>
      obtain ⟨d, rfl, hat, -⟩ := writeItem_spec hitem
      have hle := hrest.le
      push_cast at hle
      have hsplit : k = d + 1 + (k - 1 - d) := by omega
      rw [hsplit, lexFrom_add, hat.ends]
      exact ih (by rw [hk, turn_left (by omega)]) hzero

/-- The states of a loop on complete sequences are between two items. -/
theorem Visits.ground (h : Visits mem nr p vc nr' q vc') {k : ℕ} (hk : nr = k)
    (hcomplete : lexFrom mem .ground p k = .ground) :
    ∃ m : ℕ, nr' = m ∧ q + m = p + k ∧ lexFrom mem .ground q m = .ground := by
  induction h generalizing k with
  | refl => exact ⟨k, hk, rfl, hcomplete⟩
  | turn hnr hitem _ ih =>
      obtain ⟨d, rfl, hat, -⟩ := writeItem_spec hitem
      have hlt : d < k := hat.lt (by omega) hcomplete
      have hsplit : k = d + 1 + (k - 1 - d) := by omega
      rw [hsplit, lexFrom_add, hat.ends] at hcomplete
      obtain ⟨m, hm, hsum, hground⟩ := ih (by rw [hk, turn_left hlt]) hcomplete
      exact ⟨m, hm, by omega, hground⟩

/-- A loop has one run only. -/
theorem Visits.rest {s : ℤ} {ps : ℕ} {vcs : Vc} (hend : Visits mem nr p vc 0 q vc')
    (h : Visits mem nr p vc s ps vcs) : Visits mem s ps vcs 0 q vc' := by
  induction h with
  | refl => exact hend
  | turn hnr hitem _ ih =>
      cases hend with
      | refl => exact absurd rfl hnr
      | turn _ hitem' hrest' =>
          have hsame := writeItem_unique hitem hitem' nofun nofun
          obtain ⟨rfl, rfl⟩ := Prod.mk.inj (Except.ok.inj hsame)
          exact ih hrest'

theorem writeLoop_refuels (hfuel : fuel ≤ fuel') :
    Refuels (writeLoop mem fuel nr p vc) (writeLoop mem fuel' nr p vc) := by
  induction fuel generalizing fuel' nr p vc with
  | zero => exact .endless
  | succ fuel ih =>
      obtain ⟨fuel', rfl⟩ := Nat.exists_eq_add_of_le' (le_trans (Nat.succ_pos fuel) hfuel)
      have hle : fuel ≤ fuel' := Nat.le_of_succ_le_succ hfuel
      rw [writeLoop, writeLoop]
      split
      next => exact .refl _
      next => exact (writeItem_refuels hle).bind fun _ => ih hle

/-- Every complete string in whose turns nothing stops the kernel is consumed. -/
theorem exists_visits (k p : ℕ) (vc : Vc) (hcomplete : lexFrom mem .ground p k = .ground)
    (hproceeds : ∀ n q vc', Visits mem k p vc n q vc' → n ≠ 0 → vc'.Proceeds mem q) :
    ∃ fuel vc', writeLoop mem fuel k p vc = .ok vc' ∧ Visits mem k p vc 0 (p + k) vc' := by
  induction k using Nat.strong_induction_on generalizing p vc with
  | _ k ih =>
      obtain rfl | hpos := Nat.eq_zero_or_pos k
      · exact ⟨1, vc, rfl, .refl 0 p vc⟩
      have hne : (k : ℤ) ≠ 0 := by omega
      obtain ⟨d, hd, hat⟩ := exists_itemAt hpos hcomplete
      have hturn := hproceeds k p vc (.refl _ _ _) hne
      obtain ⟨fuel, hconcludes⟩ := writeItem_concludes vc hat hturn.returns
      obtain ⟨⟨q, vc₁⟩, hitem⟩ := hconcludes.exists_ok (hturn.inBounds fuel)
      obtain ⟨d', rfl, hat', -⟩ := writeItem_spec hitem
      obtain rfl := hat.unique hat'
      -- the rest of the string
      obtain ⟨m, rfl⟩ : ∃ m, k = d + 1 + m := ⟨k - 1 - d, by omega⟩
      have hleft : ((d + 1 + m : ℕ) : ℤ) - 1 - ((p + d : ℕ) - p) = (m : ℕ) := by push_cast; ring
      have hfirst : ∀ {n : ℤ} {q : ℕ} {vc' : Vc}, Visits mem m (p + d + 1) vc₁ n q vc' →
          Visits mem (d + 1 + m : ℕ) p vc n q vc' := by
        intro n q vc' h
        rw [← hleft] at h
        exact .turn hne hitem h
      rw [lexFrom_add, hat.ends] at hcomplete
      obtain ⟨fuel', vc', hloop, hvisits⟩ := ih m (by omega) (p + d + 1) vc₁ hcomplete
        fun n q vc' h hn => hproceeds n q vc' (hfirst h) hn
      have hitem' := (writeItem_refuels (le_max_left fuel fuel')).eq_ok hitem
      have hloop' := (writeLoop_refuels (le_max_right fuel fuel')).eq_ok hloop
      have hplace : p + d + 1 + m = p + (d + 1 + m) := by omega
      rw [hplace] at hvisits
      exact ⟨max fuel fuel' + 1, vc', writeLoop_item hitem' hloop', hfirst hvisits⟩

/-- `vc_write` consumes exactly its queue if and only if the string does not end inside of an
escape sequence and none of its turns stops the kernel. -/
theorem consumesQueue_iff (vc : Vc) (mem : Bytes) (nr : ℕ) :
    vc.ConsumesQueue mem nr ↔ lexFrom mem .ground 0 nr = .ground ∧
      ∀ n p vc', Visits mem nr 0 vc n p vc' → n ≠ 0 → vc'.Proceeds mem p := by
  constructor
  · rintro ⟨⟨-, vcEnd, -, hend⟩, -⟩
    refine ⟨hend.complete rfl, fun n p vc' hvisits hn => ?_⟩
    cases hend.rest hvisits with
    | refl => exact absurd rfl hn
    | turn _ hitem _ =>
        refine ⟨fun hstalls => hstalls.writeItem_ne_ok hitem, fun fuel hfail => ?_⟩
        cases writeItem_unique hitem hfail nofun nofun
  · rintro ⟨hcomplete, hproceeds⟩
    obtain ⟨fuel, vc', hloop, hvisits⟩ := exists_visits nr 0 vc hcomplete hproceeds
    rw [Nat.zero_add] at hvisits
    refine ⟨⟨fuel, vc', hloop, hvisits⟩, fun n p vc' hv hn k hk => ?_⟩
    obtain ⟨m, rfl, hsum, hground⟩ := hv.ground rfl hcomplete
    obtain ⟨d, hd, hat⟩ := exists_itemAt (by omega) hground
    have hle := hat.reads hk
    omega

/-- The byte behind an escape character at the end of the queue is looked at. -/
theorem not_consumesQueue_escape :
    ¬ ∀ (vc : Vc) (mem : Bytes) (nr : ℕ), vc.ConsumesQueue mem nr := by
  intro hall
  have hinside := (hall (init 80 25 fun _ => 0#8) (stringMem [escape]) 1).inside 1 0
    (init 80 25 fun _ => 0#8) (.refl _ _ _) (by decide) 1 (Or.inr ⟨rfl, Or.inl rfl⟩)
  exact absurd hinside (by decide)

end Vc

end Console

end Yak
