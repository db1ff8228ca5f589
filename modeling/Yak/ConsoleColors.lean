import Yak.ConsoleQueue

/-!
# Graphic attributes

`vc_set_attr` should take its parameters from the left to the right.  It gives a colour the number
of the first parameter, wherever the colour is, looks for the arguments of 38 and 48 behind the
first parameter as well, and goes on one parameter too far behind them.
-/

namespace Yak.Console

/-! ## Changes of the attributes -/

/-- What one item of a list of parameters does to the attributes. -/
inductive Item where
  | reset
  | setFlags (flags : BitVec 32)
  | clearFlags (flags : BitVec 32)
  | indexed (fg : Bool) (color : ℕ)
  | rgb (fg : Bool) (color : ℕ)
  deriving DecidableEq

def Item.apply (a : VcAttr) : Item → VcAttr
  | .reset => { a with attr := 0, fgIndexed := 39, bgIndexed := 49 }
  | .setFlags flags => { a with attr := a.attr ||| flags }
  | .clearFlags flags => { a with attr := a.attr &&& ~~~flags }
  | .indexed fg color => if fg then { a with fgIndexed := color } else { a with bgIndexed := color }
  | .rgb fg color => if fg then { a with fgRgb := color } else { a with bgRgb := color }

def applyAll (items : List Item) (a : VcAttr) : VcAttr := items.foldl Item.apply a

/-- The flags that are kept and those that are set, and the last value of each colour. -/
structure Effect where
  keep : BitVec 32
  set : BitVec 32
  fgIndexed : Option ℕ
  bgIndexed : Option ℕ
  fgRgb : Option ℕ
  bgRgb : Option ℕ
  deriving DecidableEq

namespace Effect

def none : Effect where
  keep := BitVec.allOnes 32
  set := 0#32
  fgIndexed := .none
  bgIndexed := .none
  fgRgb := .none
  bgRgb := .none

def run (e : Effect) (a : VcAttr) : VcAttr where
  attr := a.attr &&& e.keep ||| e.set
  fgRgb := e.fgRgb.getD a.fgRgb
  bgRgb := e.bgRgb.getD a.bgRgb
  fgIndexed := e.fgIndexed.getD a.fgIndexed
  bgIndexed := e.bgIndexed.getD a.bgIndexed

def ofItem : Item → Effect
  | .reset => { none with keep := 0#32, fgIndexed := some 39, bgIndexed := some 49 }
  | .setFlags flags => { none with keep := ~~~flags, set := flags }
  | .clearFlags flags => { none with keep := ~~~flags }
  | .indexed fg color =>
      if fg then { none with fgIndexed := some color } else { none with bgIndexed := some color }
  | .rgb fg color =>
      if fg then { none with fgRgb := some color } else { none with bgRgb := some color }

/-- First the one, then the other. -/
def andThen (e e' : Effect) : Effect where
  keep := e.keep &&& e'.keep
  set := e.set &&& e'.keep ||| e'.set
  fgIndexed := e'.fgIndexed.or e.fgIndexed
  bgIndexed := e'.bgIndexed.or e.bgIndexed
  fgRgb := e'.fgRgb.or e.fgRgb
  bgRgb := e'.bgRgb.or e.bgRgb

def ofList (items : List Item) : Effect := items.foldl (fun e i => e.andThen (ofItem i)) none

/-- No flag is kept and set. -/
def Normal (e : Effect) : Prop := e.keep &&& e.set = 0#32

theorem and_allOnes (x : BitVec 32) : x &&& 4294967295#32 = x := BitVec.and_allOnes

theorem run_none (a : VcAttr) : none.run a = a := by
  unfold run none
  simp only [BitVec.and_allOnes, Option.getD_none]
  rw [BitVec.or_zero]

theorem run_andThen (e e' : Effect) (a : VcAttr) : (e.andThen e').run a = e'.run (e.run a) := by
  unfold run andThen
  congr 1
  · apply BitVec.eq_of_getLsbD_eq
    intro i hi
    simp only [BitVec.getLsbD_or, BitVec.getLsbD_and]
    cases a.attr.getLsbD i <;> cases e.keep.getLsbD i <;> cases e.set.getLsbD i <;>
      cases e'.keep.getLsbD i <;> cases e'.set.getLsbD i <;> rfl
  · cases e'.fgRgb <;> rfl
  · cases e'.bgRgb <;> rfl
  · cases e'.fgIndexed <;> rfl
  · cases e'.bgIndexed <;> rfl

theorem run_ofItem (i : Item) (a : VcAttr) : (ofItem i).run a = i.apply a := by
  cases i with
  | reset => simp [ofItem, run, none, Item.apply]
  | setFlags flags =>
      have hkeep : a.attr &&& ~~~flags ||| flags = a.attr ||| flags := by
        apply BitVec.eq_of_getLsbD_eq
        intro i hi
        simp only [BitVec.getLsbD_or, BitVec.getLsbD_and, BitVec.getLsbD_not, hi]
        cases a.attr.getLsbD i <;> cases flags.getLsbD i <;> rfl
      simp [ofItem, run, none, Item.apply, hkeep]
  | clearFlags flags => simp [ofItem, run, none, Item.apply]
  | indexed fg color =>
      cases fg <;> simp [ofItem, run, none, Item.apply, and_allOnes]
  | rgb fg color =>
      cases fg <;> simp [ofItem, run, none, Item.apply, and_allOnes]

theorem run_foldl (items : List Item) (e : Effect) (a : VcAttr) :
    (items.foldl (fun e i => e.andThen (ofItem i)) e).run a = applyAll items (e.run a) := by
  induction items generalizing e with
  | nil => rfl
  | cons i items ih =>
      rw [List.foldl_cons, ih, run_andThen, run_ofItem]
      rfl

theorem run_ofList (items : List Item) (a : VcAttr) : (ofList items).run a = applyAll items a := by
  rw [ofList, run_foldl, run_none]

theorem normal_none : none.Normal := BitVec.and_zero

theorem Normal.andThen {e e' : Effect} (h : e.Normal) (h' : e'.Normal) :
    (e.andThen e').Normal := by
  unfold Normal Effect.andThen at *
  apply BitVec.eq_of_getLsbD_eq
  intro i hi
  have hbit := congrArg (·.getLsbD i) h
  have hbit' := congrArg (·.getLsbD i) h'
  simp only [BitVec.getLsbD_and, BitVec.getLsbD_or, BitVec.getLsbD_zero] at hbit hbit' ⊢
  revert hbit hbit'
  cases e.keep.getLsbD i <;> cases e.set.getLsbD i <;>
    cases e'.keep.getLsbD i <;> cases e'.set.getLsbD i <;> simp

theorem normal_ofItem (i : Item) : (ofItem i).Normal := by
  cases i with
  | reset => exact BitVec.zero_and
  | setFlags flags =>
      apply BitVec.eq_of_getLsbD_eq
      intro i hi
      simp [ofItem]
  | clearFlags flags => exact BitVec.and_zero
  | indexed fg color => cases fg <;> exact normal_none
  | rgb fg color => cases fg <;> exact normal_none

theorem normal_foldl (items : List Item) {e : Effect} (h : e.Normal) :
    (items.foldl (fun e i => e.andThen (ofItem i)) e).Normal := by
  induction items generalizing e with
  | nil => exact h
  | cons i items ih => exact ih (h.andThen (normal_ofItem i))

theorem normal_ofList (items : List Item) : (ofList items).Normal :=
  normal_foldl items normal_none

theorem getD_injective {x y : Option ℕ} (h : ∀ n, x.getD n = y.getD n) : x = y := by
  cases x with
  | none =>
      cases y with
      | none => rfl
      | some m => exact absurd (h (m + 1)) (by simp)
  | some k =>
      cases y with
      | none => exact absurd (h (k + 1)) (by simp)
      | some m => exact congrArg some (h 0)

theorem run_injective {e e' : Effect} (h : e.Normal) (h' : e'.Normal)
    (heq : ∀ a, e.run a = e'.run a) : e = e' := by
  have hflags (x : BitVec 32) : x &&& e.keep ||| e.set = x &&& e'.keep ||| e'.set :=
    congrArg VcAttr.attr (heq ⟨x, 0, 0, 0, 0⟩)
  have hset : e.set = e'.set := by simpa using hflags 0#32
  have hkeep : e.keep = e'.keep := by
    have hall := hflags (BitVec.allOnes 32)
    rw [BitVec.allOnes_and, BitVec.allOnes_and, hset] at hall
    unfold Normal at h h'
    rw [hset] at h
    apply BitVec.eq_of_getLsbD_eq
    intro i hi
    have hbit := congrArg (·.getLsbD i) h
    have hbit' := congrArg (·.getLsbD i) h'
    have hallBit := congrArg (·.getLsbD i) hall
    simp only [BitVec.getLsbD_and, BitVec.getLsbD_or, BitVec.getLsbD_zero] at hbit hbit' hallBit
    revert hbit hbit' hallBit
    cases e.keep.getLsbD i <;> cases e'.keep.getLsbD i <;> cases e'.set.getLsbD i <;> simp
  have hfgIndexed : e.fgIndexed = e'.fgIndexed :=
    getD_injective fun n => congrArg VcAttr.fgIndexed (heq ⟨0, 0, 0, n, 0⟩)
  have hbgIndexed : e.bgIndexed = e'.bgIndexed :=
    getD_injective fun n => congrArg VcAttr.bgIndexed (heq ⟨0, 0, 0, 0, n⟩)
  have hfgRgb : e.fgRgb = e'.fgRgb :=
    getD_injective fun n => congrArg VcAttr.fgRgb (heq ⟨0, n, 0, 0, 0⟩)
  have hbgRgb : e.bgRgb = e'.bgRgb :=
    getD_injective fun n => congrArg VcAttr.bgRgb (heq ⟨0, 0, n, 0, 0⟩)
  cases e
  cases e'
  simp only at hset hkeep hfgIndexed hbgIndexed hfgRgb hbgRgb
  subst hset hkeep hfgIndexed hbgIndexed hfgRgb hbgRgb
  rfl

/-- Two lists of items do the same just when the last thing done to each flag and each colour is
the same. -/
theorem applyAll_eq_iff (items items' : List Item) :
    (∀ a, applyAll items a = applyAll items' a) ↔ ofList items = ofList items' := by
  simp only [← run_ofList]
  constructor
  · exact run_injective (normal_ofList items) (normal_ofList items')
  · exact fun h a => congrArg (Effect.run · a) h

end Effect

/-! ## The items of a list -/

/-- The item of 38 or 48, 5 and the colour `x`. -/
def paletteItem (fg : Bool) (x : ℕ) : Item :=
  if x < 8 then .indexed fg ((if fg then 30 else 40) + x)
  else if x < 16 then .indexed fg ((if fg then 90 else 100) + x - 8)
  else if x < 232 then
    .rgb fg ((x - 16) / 36 * 85 / 2 % 256 * 65536 + (x - 16) / 6 % 6 * 85 / 2 % 256 * 256 +
      (x - 16) % 6 * 85 / 2 % 256)
  else
    let grey := (x * 10 + (2 ^ 32 - 2312)) % 2 ^ 32 % 256
    .rgb fg (grey * 65536 + grey * 256 + grey)

/-- The item of 38 or 48, 2 and three numbers. -/
def rgbItem (fg : Bool) (r g b : ℕ) : Item :=
  .rgb fg (r % 256 * 65536 + g % 256 * 256 + b % 256)

def flagItem : ℕ → Option Item
  | 0 => some .reset
  | 1 => some (.setFlags Vc.vcBold)
  | 2 => some (.setFlags Vc.vcDim)
  | 3 => some (.setFlags Vc.vcItalic)
  | 4 => some (.setFlags Vc.vcUnderline)
  | 5 => some (.setFlags Vc.vcBlinking)
  | 7 => some (.setFlags Vc.vcReverse)
  | 8 => some (.setFlags Vc.vcHidden)
  | 9 => some (.setFlags Vc.vcStrikethrough)
  | 22 => some (.clearFlags (Vc.vcBold ||| Vc.vcDim))
  | 23 => some (.clearFlags Vc.vcItalic)
  | 24 => some (.clearFlags Vc.vcUnderline)
  | 25 => some (.clearFlags Vc.vcBlinking)
  | 27 => some (.clearFlags Vc.vcReverse)
  | 28 => some (.clearFlags Vc.vcHidden)
  | 29 => some (.clearFlags Vc.vcStrikethrough)
  | _ => none

/-- The item of one parameter that is not 38 or 48, a colour getting this number. -/
def plainItem (color c : ℕ) : Option Item :=
  if Vc.IsColor c then none
  else if (30 ≤ c ∧ c ≤ 39) ∨ (90 ≤ c ∧ c ≤ 97) then some (.indexed true color)
  else if (40 ≤ c ∧ c ≤ 49) ∨ (100 ≤ c ∧ c ≤ 107) then some (.indexed false color)
  else flagItem c

/-- The items of a list from the left, if each parameter is recognised. -/
def itemsOf : List ℕ → Option (List Item)
  | [] => some []
  | 38 :: 5 :: x :: rest => (itemsOf rest).map (paletteItem true x :: ·)
  | 48 :: 5 :: x :: rest => (itemsOf rest).map (paletteItem false x :: ·)
  | 38 :: 2 :: r :: g :: b :: rest => (itemsOf rest).map (rgbItem true r g b :: ·)
  | 48 :: 2 :: r :: g :: b :: rest => (itemsOf rest).map (rgbItem false r g b :: ·)
  | c :: rest => do
      let item ← plainItem c c
      let items ← itemsOf rest
      some (item :: items)

/-! ## The loop on a list -/

/-- A parameter of the list. -/
def readPar (xs : List ℕ) (i : ℕ) : Except Halt ℕ := (xs[i]?).elim (.error .outOfBounds) .ok

namespace Vc

/-- `vc_set_256_rgb`, where a read outside the list is a halt. -/
def set256RgbIn (vc : Vc) (xs : List ℕ) (type : VcAttrType) (fg : Bool) :
    Except Halt (ℕ × Vc × VcAttrType) := do
  let kind ← readPar xs 1
  if kind = 5 then
    let c ← readPar xs 2
    .ok (3, vc.set256 c fg)
  else if kind = 2 then
    let r ← readPar xs 2
    let g ← readPar xs 3
    let b ← readPar xs 4
    .ok (5, vc.setRgbTo fg r g b, .rgb)
  else .ok (1, vc, type)

/-- The loop of `vc_set_attr` at parameter `p`, where a read outside the list is a halt. -/
def setAttrIn (xs : List ℕ) : (fuel p : ℕ) → VcAttrType → Vc → Except Halt Vc
  | 0, _, _, _ => .error .endless
  | fuel + 1, p, type, vc =>
      if xs.length ≤ p then .ok { vc with out := vc.out ++ [.setAttr vc.attr type] }
      else do
        let c ← readPar xs p
        if c = 38 ∨ c = 48 then
          let (q, vc, type) ← vc.set256RgbIn xs type (c = 38)
          setAttrIn xs fuel (q + 1) type vc
        else if (30 ≤ c ∧ c ≤ 39) ∨ (90 ≤ c ∧ c ≤ 97) then
          let first ← readPar xs 0
          setAttrIn xs fuel (p + 1) .indexedColor (vc.setIndexed true first)
        else if (40 ≤ c ∧ c ≤ 49) ∨ (100 ≤ c ∧ c ≤ 107) then
          let first ← readPar xs 0
          setAttrIn xs fuel (p + 1) .indexedColor (vc.setIndexed false first)
        else
          match vc.setAttrFlag c with
          | none => .ok vc
          | some vc => setAttrIn xs fuel (p + 1) type vc

end Vc

/-- `vc_set_attr` comes to an end inside the list, and where all parameters are recognised it
has applied their items from the left to the right. -/
def SetsAttr (xs : List ℕ) : Prop :=
  ∀ vc : Vc, ∃ fuel vc', Vc.setAttrIn xs fuel 0 .none vc = .ok vc' ∧
    ∀ items, itemsOf xs = some items → vc'.attr = applyAll items vc.attr

/-! ## What is taken up -/

/-- The items up to a parameter which has none, each colour with the number `color`. -/
def plains (color : ℕ) : List ℕ → List Item
  | [] => []
  | c :: xs =>
      match plainItem color c with
      | none => []
      | some i => i :: plains color xs

/-- Whether the first parameter which has no item of its own is 38 or 48. -/
def stopsAtColor : List ℕ → Option Bool
  | [] => none
  | c :: xs =>
      if c = 38 then some true
      else if c = 48 then some false
      else if (plainItem c c).isSome then stopsAtColor xs
      else none

/-- The arguments which `vc_set_256_rgb` finds for a colour. -/
def arguments (xs : List ℕ) (fg : Bool) : List Item :=
  if xs[1]? = some 5 then [paletteItem fg (xs.getD 2 0)]
  else if xs[1]? = some 2 then [rgbItem fg (xs.getD 2 0) (xs.getD 3 0) (xs.getD 4 0)]
  else []

/-- The place at which `vc_set_attr` takes up behind a colour. -/
def resumeIn (xs : List ℕ) : ℕ :=
  if xs[1]? = some 5 then 4 else if xs[1]? = some 2 then 6 else 2

/-- The list has the parameters which `vc_set_256_rgb` reads. -/
def HasArguments (xs : List ℕ) : Prop :=
  2 ≤ xs.length ∧ (xs[1]? = some 5 → 3 ≤ xs.length) ∧ (xs[1]? = some 2 → 5 ≤ xs.length)

/-- Where the loop comes to a colour, its arguments are in the list, and it does not come to
another colour. -/
def StaysInList (xs : List ℕ) : Prop :=
  (stopsAtColor xs).isSome → HasArguments xs ∧ stopsAtColor (xs.drop (resumeIn xs)) = none

/-- The items which `vc_set_attr` takes up. -/
def takenUp (xs : List ℕ) : List Item :=
  plains (xs.headD 0) xs ++
    match stopsAtColor xs with
    | none => []
    | some fg => arguments xs fg ++ plains (xs.headD 0) (xs.drop (resumeIn xs))

/-! ## One turn -/

section Turns

variable {xs : List ℕ} {p c : ℕ} {fg : Bool}

theorem setRgbTo_attr (vc : Vc) (fg : Bool) (r g b : ℕ) :
    (vc.setRgbTo fg r g b).attr = (rgbItem fg r g b).apply vc.attr := rfl

theorem set256_attr (vc : Vc) (x : ℕ) (fg : Bool) :
    (vc.set256 x fg).1.attr = (paletteItem fg x).apply vc.attr := by
  unfold Vc.set256 paletteItem
  split
  · rfl
  · split
    · rfl
    · split <;> rfl

theorem setAttrFlag_attr (vc : Vc) (c : ℕ) :
    (vc.setAttrFlag c).map Vc.attr = (flagItem c).map (Item.apply vc.attr) := by
  have hboth (x : BitVec 32) :
      x &&& ~~~Vc.vcBold &&& ~~~Vc.vcDim = x &&& ~~~(Vc.vcBold ||| Vc.vcDim) := by
    rw [BitVec.not_or, BitVec.and_assoc]
  unfold Vc.setAttrFlag flagItem
  split
  case h_10 => exact congrArg (fun x => some { vc.attr with attr := x }) (hboth vc.attr.attr)
  case h_17 => simp [*]
  all_goals rfl

theorem plainItem_isSome (color color' c : ℕ) :
    (plainItem color c).isSome = (plainItem color' c).isSome := by
  unfold plainItem
  split
  · rfl
  · split
    · rfl
    · split <;> rfl

theorem drop_eq_cons {ys : List ℕ} (h : xs.drop p = c :: ys) :
    xs[p]? = some c ∧ xs.drop (p + 1) = ys := by
  constructor
  · have hhead := congrArg (·[0]?) h
    simpa using hhead
  · rw [← List.drop_drop, h]
    rfl

theorem readPar_eq (h : xs[p]? = some c) : readPar xs p = .ok c := by rw [readPar, h]; rfl

theorem readPar_head (h : xs[p]? = some c) : readPar xs 0 = .ok (xs.headD 0) := by
  cases xs with
  | nil => simp at h
  | cons x xs => rfl

theorem lt_length (hc : xs[p]? = some c) : ¬ xs.length ≤ p :=
  not_le.mpr (List.getElem?_eq_some_iff.mp hc).1

theorem setAttrIn_plain (hc : xs[p]? = some c) {i : Item}
    (hi : plainItem (xs.headD 0) c = some i) (type : VcAttrType) (vc : Vc) :
    ∃ type' vc', vc'.attr = i.apply vc.attr ∧
      ∀ fuel, Vc.setAttrIn xs (fuel + 1) p type vc = Vc.setAttrIn xs fuel (p + 1) type' vc' := by
  have hplain : ¬ Vc.IsColor c := by
    intro hcolor
    rw [plainItem, if_pos hcolor] at hi
    cases hi
  have hcolor : ¬ (c = 38 ∨ c = 48) := hplain
  rw [plainItem, if_neg hplain] at hi
  by_cases hfg : (30 ≤ c ∧ c ≤ 39) ∨ (90 ≤ c ∧ c ≤ 97)
  · rw [if_pos hfg] at hi
    cases hi
    refine ⟨.indexedColor, vc.setIndexed true (xs.headD 0), rfl, fun fuel => ?_⟩
    rw [Vc.setAttrIn, if_neg (lt_length hc), readPar_eq hc, ok_bind, if_neg hcolor, if_pos hfg,
      readPar_head hc, ok_bind]
  rw [if_neg hfg] at hi
  by_cases hbg : (40 ≤ c ∧ c ≤ 49) ∨ (100 ≤ c ∧ c ≤ 107)
  · rw [if_pos hbg] at hi
    cases hi
    refine ⟨.indexedColor, vc.setIndexed false (xs.headD 0), rfl, fun fuel => ?_⟩
    rw [Vc.setAttrIn, if_neg (lt_length hc), readPar_eq hc, ok_bind, if_neg hcolor, if_neg hfg,
      if_pos hbg, readPar_head hc, ok_bind]
  · rw [if_neg hbg] at hi
    have hflag := setAttrFlag_attr vc c
    rw [hi] at hflag
    obtain ⟨vc', hvc, hattr⟩ := Option.map_eq_some_iff.mp hflag
    refine ⟨type, vc', hattr, fun fuel => ?_⟩
    rw [Vc.setAttrIn, if_neg (lt_length hc), readPar_eq hc, ok_bind, if_neg hcolor, if_neg hfg,
      if_neg hbg, hvc]

theorem setAttrIn_unknown (hc : xs[p]? = some c) (hcolor : ¬ Vc.IsColor c)
    (hi : plainItem (xs.headD 0) c = none) (fuel : ℕ) (type : VcAttrType) (vc : Vc) :
    Vc.setAttrIn xs (fuel + 1) p type vc = .ok vc := by
  have hcolor' : ¬ (c = 38 ∨ c = 48) := hcolor
  rw [plainItem, if_neg hcolor] at hi
  by_cases hfg : (30 ≤ c ∧ c ≤ 39) ∨ (90 ≤ c ∧ c ≤ 97)
  · rw [if_pos hfg] at hi
    cases hi
  rw [if_neg hfg] at hi
  by_cases hbg : (40 ≤ c ∧ c ≤ 49) ∨ (100 ≤ c ∧ c ≤ 107)
  · rw [if_pos hbg] at hi
    cases hi
  rw [if_neg hbg] at hi
  have hflag := setAttrFlag_attr vc c
  rw [hi] at hflag
  rw [Vc.setAttrIn, if_neg (lt_length hc), readPar_eq hc, ok_bind, if_neg hcolor', if_neg hfg,
    if_neg hbg, Option.map_eq_none_iff.mp hflag]

theorem getElem?_getD {i : ℕ} (hi : i < xs.length) : xs[i]? = some (xs.getD i 0) := by
  rw [List.getElem?_eq_getElem hi]
  simp [hi]

theorem readPar_getD {i : ℕ} (hi : i < xs.length) : readPar xs i = .ok (xs.getD i 0) :=
  readPar_eq (getElem?_getD hi)

theorem readPar_out {i : ℕ} (hi : xs.length ≤ i) : readPar xs i = .error .outOfBounds := by
  rw [readPar, List.getElem?_eq_none hi]
  rfl

/-- What `vc_set_256_rgb` does where its arguments are in the list. -/
theorem set256RgbIn_eq (harg : HasArguments xs) (fg : Bool) (type : VcAttrType) (vc : Vc) :
    ∃ type' vc', vc'.attr = applyAll (arguments xs fg) vc.attr ∧
      vc.set256RgbIn xs type fg = .ok (resumeIn xs - 1, vc', type') := by
  obtain ⟨hone, hfive, htwo⟩ := harg
  unfold Vc.set256RgbIn arguments resumeIn
  rw [readPar_getD hone, ok_bind]
  rw [getElem?_getD hone] at hfive htwo ⊢
  simp only [Option.some.injEq] at hfive htwo ⊢
  by_cases h5 : xs.getD 1 0 = 5
  · rw [if_pos h5, if_pos h5, if_pos h5, readPar_getD (hfive h5), ok_bind]
    exact ⟨_, _, set256_attr vc _ fg, rfl⟩
  · rw [if_neg h5, if_neg h5, if_neg h5]
    by_cases h2 : xs.getD 1 0 = 2
    · have hlength := htwo h2
      rw [if_pos h2, if_pos h2, if_pos h2, readPar_getD (by omega), ok_bind,
        readPar_getD (by omega), ok_bind, readPar_getD (by omega), ok_bind]
      exact ⟨_, _, setRgbTo_attr vc fg _ _ _, rfl⟩
    · rw [if_neg h2, if_neg h2, if_neg h2]
      exact ⟨type, vc, rfl, rfl⟩

theorem set256RgbIn_out (harg : ¬ HasArguments xs) (fg : Bool) (type : VcAttrType) (vc : Vc) :
    vc.set256RgbIn xs type fg = .error .outOfBounds := by
  unfold Vc.set256RgbIn
  by_cases hone : 2 ≤ xs.length
  · have hmissing : ¬ ((xs.getD 1 0 = 5 → 3 ≤ xs.length) ∧ (xs.getD 1 0 = 2 → 5 ≤ xs.length)) := by
      intro h
      refine harg ⟨hone, ?_⟩
      rw [getElem?_getD hone, Option.some.injEq, Option.some.injEq]
      exact h
    rw [readPar_getD hone, ok_bind]
    by_cases h5 : xs.getD 1 0 = 5
    · rw [if_pos h5, readPar_out (by omega)]
      rfl
    · by_cases h2 : xs.getD 1 0 = 2
      · rw [if_neg h5, if_pos h2]
        by_cases hr : xs.length ≤ 2
        · rw [readPar_out hr]
          rfl
        · rw [readPar_getD (by omega), ok_bind]
          by_cases hg : xs.length ≤ 3
          · rw [readPar_out hg]
            rfl
          · rw [readPar_getD (by omega), ok_bind, readPar_out (by omega)]
            rfl
      · exact absurd ⟨fun h => absurd h h5, fun h => absurd h h2⟩ hmissing
  · rw [readPar_out (by omega)]
    rfl

theorem color_or (fg : Bool) : (if fg then 38 else 48) = 38 ∨ (if fg then 38 else 48) = 48 := by
  cases fg <;> decide

theorem color_eq (fg : Bool) : decide ((if fg then 38 else 48) = 38) = fg := by
  cases fg <;> decide

theorem setAttrIn_color (hc : xs[p]? = some (if fg then 38 else 48)) (harg : HasArguments xs)
    (type : VcAttrType) (vc : Vc) :
    ∃ type' vc', vc'.attr = applyAll (arguments xs fg) vc.attr ∧
      ∀ fuel, Vc.setAttrIn xs (fuel + 1) p type vc =
        Vc.setAttrIn xs fuel (resumeIn xs) type' vc' := by
  obtain ⟨type', vc', hattr, hcall⟩ := set256RgbIn_eq harg fg type vc
  have hnext : resumeIn xs - 1 + 1 = resumeIn xs := by
    unfold resumeIn
    split
    · rfl
    · split <;> rfl
  refine ⟨type', vc', hattr, fun fuel => ?_⟩
  rw [Vc.setAttrIn, if_neg (lt_length hc), readPar_eq hc, ok_bind, if_pos (color_or fg),
    color_eq, hcall, ok_bind]
  show Vc.setAttrIn xs fuel (resumeIn xs - 1 + 1) type' vc' = _
  rw [hnext]

theorem setAttrIn_color_out (hc : xs[p]? = some (if fg then 38 else 48))
    (harg : ¬ HasArguments xs) (fuel : ℕ) (type : VcAttrType) (vc : Vc) :
    Vc.setAttrIn xs (fuel + 1) p type vc = .error .outOfBounds := by
  rw [Vc.setAttrIn, if_neg (lt_length hc), readPar_eq hc, ok_bind, if_pos (color_or fg),
    set256RgbIn_out harg]
  rfl

/-! ## The loop -/

theorem plainItem_color (h : Vc.IsColor c) (color : ℕ) : plainItem color c = none := if_pos h

theorem stopsAtColor_cons (xs : List ℕ) (hcolor : ¬ Vc.IsColor c) (ys : List ℕ) :
    stopsAtColor (c :: ys) =
    if (plainItem (xs.headD 0) c).isSome then stopsAtColor ys else none := by
  have hne : ¬ (c = 38 ∨ c = 48) := hcolor
  rw [stopsAtColor, if_neg (by omega), if_neg (by omega), plainItem_isSome c (xs.headD 0)]

/-- Where the loop does not come to a colour it takes up what it finds. -/
theorem setAttrIn_run (type : VcAttrType) (vc : Vc) (h : stopsAtColor (xs.drop p) = none) :
    ∃ vc', vc'.attr = applyAll (plains (xs.headD 0) (xs.drop p)) vc.attr ∧
      ∀ fuel, xs.length - p < fuel → Vc.setAttrIn xs fuel p type vc = .ok vc' := by
  generalize hys : xs.drop p = ys at h ⊢
  induction ys generalizing p type vc with
  | nil =>
      have hend : xs.length ≤ p := List.drop_eq_nil_iff.mp hys
      refine ⟨{ vc with out := vc.out ++ [.setAttr vc.attr type] }, rfl, fun fuel hfuel => ?_⟩
      obtain ⟨f, rfl⟩ := Nat.exists_eq_add_of_lt hfuel
      rw [Vc.setAttrIn, if_pos hend]
  | cons c ys ih =>
      obtain ⟨hc, hrest⟩ := drop_eq_cons hys
      have hlt := lt_length hc
      have hcolor : ¬ Vc.IsColor c := by
        rintro (rfl | rfl) <;> cases h
      rw [stopsAtColor_cons xs hcolor] at h
      rw [plains]
      cases hi : plainItem (xs.headD 0) c with
      | none =>
          refine ⟨vc, rfl, fun fuel hfuel => ?_⟩
          obtain ⟨f, rfl⟩ := Nat.exists_eq_add_of_lt hfuel
          exact setAttrIn_unknown hc hcolor hi _ type vc
      | some i =>
          rw [hi] at h
          obtain ⟨type₁, vc₁, hattr₁, hstep⟩ := setAttrIn_plain hc hi type vc
          obtain ⟨vc₂, hattr₂, hrun⟩ := ih type₁ vc₁ hrest h
          rw [hattr₁] at hattr₂
          refine ⟨vc₂, hattr₂, fun fuel hfuel => ?_⟩
          obtain ⟨f, rfl⟩ := Nat.exists_eq_add_of_lt hfuel
          rw [hstep]
          exact hrun _ (by omega)

/-- The loop takes up what it finds before a colour. -/
theorem setAttrIn_reach (type : VcAttrType) (vc : Vc)
    (h : stopsAtColor (xs.drop p) = some fg) :
    ∃ d type' vc', xs[p + d]? = some (if fg then 38 else 48) ∧
      vc'.attr = applyAll (plains (xs.headD 0) (xs.drop p)) vc.attr ∧
        ∀ fuel, Vc.setAttrIn xs (fuel + d) p type vc = Vc.setAttrIn xs fuel (p + d) type' vc' := by
  generalize hys : xs.drop p = ys at h ⊢
  induction ys generalizing p type vc with
  | nil => cases h
  | cons c ys ih =>
      obtain ⟨hc, hrest⟩ := drop_eq_cons hys
      by_cases hcolor : Vc.IsColor c
      · refine ⟨0, type, vc, ?_, ?_, fun fuel => rfl⟩
        · rw [Nat.add_zero, hc]
          rcases hcolor with rfl | rfl <;> cases h <;> rfl
        · rw [plains, plainItem_color hcolor]
          rfl
      · rw [stopsAtColor_cons xs hcolor] at h
        rw [plains]
        cases hi : plainItem (xs.headD 0) c with
        | none =>
            rw [hi] at h
            cases h
        | some i =>
            rw [hi] at h
            obtain ⟨type₁, vc₁, hattr₁, hstep⟩ := setAttrIn_plain hc hi type vc
            obtain ⟨d, type₂, vc₂, hplace, hattr₂, hrun⟩ := ih type₁ vc₁ hrest h
            rw [hattr₁] at hattr₂
            refine ⟨d + 1, type₂, vc₂, ?_, hattr₂, fun fuel => ?_⟩
            · rwa [Nat.add_assoc, Nat.add_comm 1 d] at hplace
            · rw [← Nat.add_assoc, hstep, hrun, Nat.add_assoc, Nat.add_comm 1 d]

theorem color_of_stops (hcolor : Vc.IsColor c) : ∃ fg : Bool, c = if fg then 38 else 48 := by
  rcases hcolor with rfl | rfl
  · exact ⟨true, rfl⟩
  · exact ⟨false, rfl⟩

/-- Where the loop always comes to a colour it has no end in the list. -/
theorem setAttrIn_ne_ok (hresume : HasArguments xs →
      (stopsAtColor (xs.drop (resumeIn xs))).isSome) (fuel : ℕ) (type : VcAttrType) (vc vc' : Vc)
    (h : (stopsAtColor (xs.drop p)).isSome) : Vc.setAttrIn xs fuel p type vc ≠ .ok vc' := by
  induction fuel generalizing p type vc with
  | zero => exact nofun
  | succ fuel ih =>
      cases hys : xs.drop p with
      | nil =>
          rw [hys] at h
          cases h
      | cons c ys =>
          obtain ⟨hc, hrest⟩ := drop_eq_cons hys
          by_cases hcolor : Vc.IsColor c
          · obtain ⟨fg, rfl⟩ := color_of_stops hcolor
            by_cases harg : HasArguments xs
            · obtain ⟨type', vc₁, -, hstep⟩ := setAttrIn_color hc harg type vc
              rw [hstep]
              exact ih type' vc₁ (hresume harg)
            · rw [setAttrIn_color_out hc harg]
              exact nofun
          · rw [hys, stopsAtColor_cons xs hcolor] at h
            cases hi : plainItem (xs.headD 0) c with
            | none =>
                rw [hi] at h
                cases h
            | some i =>
                rw [hi] at h
                obtain ⟨type', vc₁, -, hstep⟩ := setAttrIn_plain hc hi type vc
                rw [hstep]
                exact ih type' vc₁ (by rwa [hrest])

end Turns

/-! ## The whole list -/

theorem applyAll_append (items items' : List Item) (a : VcAttr) :
    applyAll (items ++ items') a = applyAll items' (applyAll items a) := List.foldl_append

theorem setAttrIn_stays {xs : List ℕ} (h : StaysInList xs) (vc : Vc) :
    ∃ fuel vc', Vc.setAttrIn xs fuel 0 .none vc = .ok vc' ∧
      vc'.attr = applyAll (takenUp xs) vc.attr := by
  unfold StaysInList at h
  unfold takenUp
  cases hstop : stopsAtColor xs with
  | none =>
      obtain ⟨vc', hattr, hrun⟩ := setAttrIn_run (p := 0) .none vc hstop
      refine ⟨xs.length + 1, vc', hrun _ (by omega), ?_⟩
      rw [hattr, List.append_nil]
      rfl
  | some fg =>
      rw [hstop] at h
      obtain ⟨harg, hend⟩ := h rfl
      obtain ⟨d, type₁, vc₁, hplace, hattr₁, hreach⟩ := setAttrIn_reach (p := 0) .none vc hstop
      obtain ⟨type₂, vc₂, hattr₂, hcolor⟩ := setAttrIn_color hplace harg type₁ vc₁
      obtain ⟨vc₃, hattr₃, hrun⟩ := setAttrIn_run type₂ vc₂ hend
      refine ⟨xs.length + 1 + 1 + d, vc₃, ?_, ?_⟩
      · rw [hreach, hcolor]
        exact hrun _ (by omega)
      · rw [hattr₃, hattr₂, hattr₁, applyAll_append, applyAll_append]
        rfl

theorem setAttrIn_leaves {xs : List ℕ} (h : ¬ StaysInList xs) (fuel : ℕ) (vc vc' : Vc) :
    Vc.setAttrIn xs fuel 0 .none vc ≠ .ok vc' := by
  unfold StaysInList at h
  push Not at h
  obtain ⟨hstop, hmore⟩ := h
  exact setAttrIn_ne_ok (p := 0) (fun harg => Option.isSome_iff_ne_none.mpr (hmore harg))
    fuel .none vc vc' hstop

theorem setAttrIn_succ {xs : List ℕ} {p fuel : ℕ} {type : VcAttrType} {vc vc' : Vc}
    (h : Vc.setAttrIn xs fuel p type vc = .ok vc') :
    Vc.setAttrIn xs (fuel + 1) p type vc = .ok vc' := by
  induction fuel generalizing p type vc with
  | zero => cases h
  | succ fuel ih =>
      rw [Vc.setAttrIn] at h ⊢
      by_cases hend : xs.length ≤ p
      · rwa [if_pos hend] at h ⊢
      rw [if_neg hend, readPar_getD (not_le.mp hend), ok_bind] at h ⊢
      by_cases hcolor : xs.getD p 0 = 38 ∨ xs.getD p 0 = 48
      · rw [if_pos hcolor] at h ⊢
        cases hcall : vc.set256RgbIn xs type (decide (xs.getD p 0 = 38)) with
        | error e =>
            rw [hcall] at h
            cases h
        | ok r =>
            rw [hcall, ok_bind] at h
            rw [ok_bind]
            exact ih h
      rw [if_neg hcolor] at h ⊢
      have hfirst : readPar xs 0 = .ok (xs.getD 0 0) := readPar_getD (by omega)
      by_cases hfg : (30 ≤ xs.getD p 0 ∧ xs.getD p 0 ≤ 39) ∨ (90 ≤ xs.getD p 0 ∧ xs.getD p 0 ≤ 97)
      · rw [if_pos hfg, hfirst, ok_bind] at h ⊢
        exact ih h
      rw [if_neg hfg] at h ⊢
      by_cases hbg : (40 ≤ xs.getD p 0 ∧ xs.getD p 0 ≤ 49) ∨
          (100 ≤ xs.getD p 0 ∧ xs.getD p 0 ≤ 107)
      · rw [if_pos hbg, hfirst, ok_bind] at h ⊢
        exact ih h
      rw [if_neg hbg] at h ⊢
      cases hflag : vc.setAttrFlag (xs.getD p 0) with
      | none => rwa [hflag] at h
      | some vc₁ =>
          rw [hflag] at h
          exact ih h

theorem setAttrIn_mono {xs : List ℕ} {p fuel fuel' : ℕ} {type : VcAttrType} {vc vc' : Vc}
    (hle : fuel ≤ fuel') (h : Vc.setAttrIn xs fuel p type vc = .ok vc') :
    Vc.setAttrIn xs fuel' p type vc = .ok vc' := by
  induction hle with
  | refl => exact h
  | step _ ih => exact setAttrIn_succ ih

theorem setAttrIn_unique {xs : List ℕ} {p fuel fuel' : ℕ} {type : VcAttrType} {vc vc₁ vc₂ : Vc}
    (h : Vc.setAttrIn xs fuel p type vc = .ok vc₁)
    (h' : Vc.setAttrIn xs fuel' p type vc = .ok vc₂) : vc₁ = vc₂ := by
  have hmax := setAttrIn_mono (le_max_left fuel fuel') h
  rw [setAttrIn_mono (le_max_right fuel fuel') h'] at hmax
  cases hmax
  rfl

theorem set256Rgb_of_set256RgbIn {xs : List ℕ} {type : VcAttrType} {vc : Vc} {fg : Bool}
    {r : ℕ × Vc × VcAttrType} (h : vc.set256RgbIn xs type fg = .ok r) :
    vc.set256Rgb (fun i => xs.getD i 0) type fg = r := by
  have harg : HasArguments xs := by
    by_contra hmissing
    rw [set256RgbIn_out hmissing] at h
    cases h
  obtain ⟨hone, hfive, htwo⟩ := harg
  unfold Vc.set256RgbIn at h
  rw [readPar_getD hone, ok_bind] at h
  rw [getElem?_getD hone] at hfive htwo
  simp only [Option.some.injEq] at hfive htwo
  unfold Vc.set256Rgb
  simp only
  by_cases h5 : xs.getD 1 0 = 5
  · rw [if_pos h5, readPar_getD (hfive h5), ok_bind] at h
    rw [if_pos h5]
    cases h
    rfl
  rw [if_neg h5] at h ⊢
  by_cases h2 : xs.getD 1 0 = 2
  · have hlength := htwo h2
    rw [if_pos h2, readPar_getD (by omega), ok_bind, readPar_getD (by omega), ok_bind,
      readPar_getD (by omega), ok_bind] at h
    rw [if_pos h2]
    cases h
    rfl
  · rw [if_neg h2] at h ⊢
    cases h
    rfl

/-- What the loop does on the list, it does on the parameters of an escape sequence. -/
theorem setAttr_of_setAttrIn {xs : List ℕ} {p fuel : ℕ} {type : VcAttrType} {vc vc' : Vc}
    (hlength : xs.length ≤ npar) (h : Vc.setAttrIn xs fuel p type vc = .ok vc') :
    Vc.setAttr (fun i => xs.getD i 0) xs.length fuel p type vc = .ok vc' := by
  induction fuel generalizing p type vc with
  | zero => cases h
  | succ fuel ih =>
      rw [Vc.setAttrIn] at h
      rw [Vc.setAttr]
      by_cases hend : xs.length ≤ p
      · rwa [if_pos hend] at h ⊢
      rw [if_neg hend, readPar_getD (not_le.mp hend), ok_bind] at h
      rw [if_neg hend, if_neg (by omega)]
      have hfirst : readPar xs 0 = .ok (xs.getD 0 0) := readPar_getD (by omega)
      simp only
      by_cases hcolor : xs.getD p 0 = 38 ∨ xs.getD p 0 = 48
      · rw [if_pos hcolor] at h ⊢
        cases hcall : vc.set256RgbIn xs type (decide (xs.getD p 0 = 38)) with
        | error e =>
            rw [hcall] at h
            cases h
        | ok r =>
            rw [hcall, ok_bind] at h
            rw [set256Rgb_of_set256RgbIn hcall]
            exact ih h
      rw [if_neg hcolor] at h ⊢
      by_cases hfg : (30 ≤ xs.getD p 0 ∧ xs.getD p 0 ≤ 39) ∨ (90 ≤ xs.getD p 0 ∧ xs.getD p 0 ≤ 97)
      · rw [if_pos hfg] at h ⊢
        rw [hfirst, ok_bind] at h
        exact ih h
      rw [if_neg hfg] at h ⊢
      by_cases hbg : (40 ≤ xs.getD p 0 ∧ xs.getD p 0 ≤ 49) ∨
          (100 ≤ xs.getD p 0 ∧ xs.getD p 0 ≤ 107)
      · rw [if_pos hbg] at h ⊢
        rw [hfirst, ok_bind] at h
        exact ih h
      rw [if_neg hbg] at h ⊢
      cases hflag : vc.setAttrFlag (xs.getD p 0) with
      | none => rwa [hflag] at h
      | some vc₁ =>
          rw [hflag] at h
          exact ih h

/-- A console without a driver's screen. -/
def initial : Vc := .init 80 25 fun _ => 0#8

theorem setsAttr_iff (xs : List ℕ) : SetsAttr xs ↔
    StaysInList xs ∧ ∀ items, itemsOf xs = some items →
      Effect.ofList items = Effect.ofList (takenUp xs) := by
  constructor
  · intro h
    have hstays : StaysInList xs := by
      by_contra hleaves
      obtain ⟨fuel, vc', hrun, -⟩ := h initial
      exact setAttrIn_leaves hleaves fuel initial vc' hrun
    refine ⟨hstays, fun items hitems => (Effect.applyAll_eq_iff items _).mp fun a => ?_⟩
    obtain ⟨fuel, vc', hrun, happly⟩ := h { initial with attr := a }
    obtain ⟨fuel', vc'', hrun', htaken⟩ := setAttrIn_stays hstays { initial with attr := a }
    rw [← setAttrIn_unique hrun hrun'] at htaken
    exact (happly items hitems).symm.trans htaken
  · rintro ⟨hstays, heffect⟩ vc
    obtain ⟨fuel, vc', hrun, htaken⟩ := setAttrIn_stays hstays vc
    refine ⟨fuel, vc', hrun, fun items hitems => ?_⟩
    rw [htaken]
    exact ((Effect.applyAll_eq_iff items _).mpr (heffect items hitems) vc.attr).symm

/-- Bold and red. -/
theorem not_setsAttr_boldRed : ¬ SetsAttr [1, 31] := by
  intro h
  obtain ⟨fuel, vc', hrun, happly⟩ := h initial
  obtain ⟨vc'', hend, hfg⟩ : ∃ vc'', Vc.setAttrIn [1, 31] 3 0 .none initial = .ok vc'' ∧
      vc''.attr.fgIndexed = 1 := ⟨_, rfl, rfl⟩
  rw [setAttrIn_unique hrun hend] at happly
  have hred := congrArg VcAttr.fgIndexed (happly [.setFlags Vc.vcBold, .indexed true 31] rfl)
  rw [hfg] at hred
  cases hred

end Yak.Console
