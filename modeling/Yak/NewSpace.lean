import Yak.ChunkCoverage

/-!
# The address space of a new program

`arch_valloc_segments` makes a page directory, and page tables and pages for the segments and the
stack.  All their frames are new: none of them is used twice, and none is reached from the page
directory of the process, whose address space is freed next.
-/

namespace Yak.Exec

open Paging (Frame Index Page Machine Has pagePresent pageWritable pageUser frameNo kernelVirtBase)
open Paging.Chunk (Owned AllocatesOutside)
open PageFrames (noFreePage)

/-! ## Places -/

/-- What a frame is there for in the part of an address space which belongs to the user. -/
inductive Place where
  | table (i : Index)
  | page (i j : Index)
  deriving DecidableEq

/-- The first entry of a page directory which belongs to the kernel. -/
def kernelSlot : ℕ := 768

/-- The entry for a place, if it is present, in the page directory `d` or in a page table. -/
def entryOf (m : Machine) (d : Frame) : Place → Option (BitVec 32)
  | .table i =>
      if (i : ℕ) < kernelSlot ∧ Has (m.mem d i) pagePresent then some (m.mem d i) else none
  | .page i j =>
      if (i : ℕ) < kernelSlot ∧ Has (m.mem d i) pagePresent ∧
          Has (m.mem (frameNo (m.mem d i)) j) pagePresent then
        some (m.mem (frameNo (m.mem d i)) j)
      else none

def frameOf (m : Machine) (d : Frame) (p : Place) : Option Frame := (entryOf m d p).map frameNo

/-- Each frame of the user in this address space has one place and one reference. -/
structure Separate (m : Machine) (d : Frame) : Prop where
  inj {p q : Place} {f : Frame} : frameOf m d p = some f → frameOf m d q = some f → p = q
  count {p : Place} {f : Frame} : frameOf m d p = some f → m.counts f = 1#8
  ne {p : Place} : frameOf m d p ≠ some d
  user {p : Place} {e : BitVec 32} : entryOf m d p = some e → Has e pageUser

variable {m m' : Machine} {d c t f g : Frame} {p q : Place} {i j k l : Index} {e e' : BitVec 32}

theorem frameOf_eq_some : frameOf m d p = some f ↔ ∃ e, entryOf m d p = some e ∧ frameNo e = f :=
  Option.map_eq_some_iff

theorem entryOf_table : entryOf m d (.table i) = some e ↔
    (i : ℕ) < kernelSlot ∧ Has (m.mem d i) pagePresent ∧ m.mem d i = e := by
  rw [entryOf, Option.ite_none_right_eq_some, and_assoc, Option.some_inj]

theorem entryOf_page : entryOf m d (.page i j) = some e ↔
    ∃ t, frameOf m d (.table i) = some t ∧ Has (m.mem t j) pagePresent ∧ m.mem t j = e := by
  rw [entryOf, Option.ite_none_right_eq_some, Option.some_inj]
  constructor
  · rintro ⟨⟨hi, hdir, hpresent⟩, he⟩
    exact ⟨_, frameOf_eq_some.mpr ⟨_, entryOf_table.mpr ⟨hi, hdir, rfl⟩, rfl⟩, hpresent, he⟩
  · rintro ⟨t, ht, hpresent, he⟩
    obtain ⟨e', he', rfl⟩ := frameOf_eq_some.mp ht
    obtain ⟨hi, hdir, rfl⟩ := entryOf_table.mp he'
    exact ⟨⟨hi, hdir, hpresent⟩, he⟩

theorem frameOf_table : frameOf m d (.table i) = some t ↔
    (i : ℕ) < kernelSlot ∧ Has (m.mem d i) pagePresent ∧ frameNo (m.mem d i) = t := by
  rw [frameOf_eq_some]
  constructor
  · rintro ⟨e, he, rfl⟩
    obtain ⟨hi, hpresent, rfl⟩ := entryOf_table.mp he
    exact ⟨hi, hpresent, rfl⟩
  · rintro ⟨hi, hpresent, rfl⟩
    exact ⟨_, entryOf_table.mpr ⟨hi, hpresent, rfl⟩, rfl⟩

/-! ## Changes of entries -/

theorem entryOf_congr (hdir : ∀ i : Index, (i : ℕ) < kernelSlot → m'.mem d i = m.mem d i)
    (htable : ∀ i t, frameOf m d (.table i) = some t → m'.mem t = m.mem t) :
    entryOf m' d = entryOf m d := by
  funext p
  cases p with
  | table i =>
      simp only [entryOf]
      by_cases hi : (i : ℕ) < kernelSlot
      · rw [hdir i hi]
      · rw [if_neg fun h => hi h.1, if_neg fun h => hi h.1]
  | page i j =>
      simp only [entryOf]
      by_cases hi : (i : ℕ) < kernelSlot
      · rw [hdir i hi]
        by_cases hpresent : Has (m.mem d i) pagePresent
        · rw [htable i _ (frameOf_table.mpr ⟨hi, hpresent, rfl⟩)]
        · rw [if_neg fun h => hpresent h.2.1, if_neg fun h => hpresent h.2.1]
      · rw [if_neg fun h => hi h.1, if_neg fun h => hi h.1]

theorem entryOf_setPage (h : Separate m d) (ht : frameOf m d (.table i) = some t)
    (hdir : m'.mem d = m.mem d) (htable : m'.mem t = Function.update (m.mem t) j e)
    (hothers : ∀ k g, frameOf m d (.table k) = some g → g ≠ t → m'.mem g = m.mem g)
    (he : Has e pagePresent) :
    entryOf m' d = Function.update (entryOf m d) (.page i j) (some e) := by
  obtain ⟨hi, hpresent, hframe⟩ := frameOf_table.mp ht
  funext p
  cases p with
  | table k =>
      rw [Function.update_of_ne (fun h => by cases h)]
      simp only [entryOf, hdir]
  | page k l =>
      simp only [entryOf, hdir]
      by_cases hk : k = i
      · subst hk
        rw [hframe, htable]
        by_cases hl : l = j
        · subst hl
          rw [Function.update_self, Function.update_self, if_pos ⟨hi, hpresent, he⟩]
        · rw [Function.update_of_ne hl, Function.update_of_ne fun h => hl (Place.page.inj h).2]
          simp only [entryOf, hframe]
      · rw [Function.update_of_ne fun h => hk (Place.page.inj h).1]
        simp only [entryOf]
        by_cases hopen : (k : ℕ) < kernelSlot ∧ Has (m.mem d k) pagePresent
        · have hother := frameOf_table.mpr ⟨hopen.1, hopen.2, rfl⟩
          rw [hothers k _ hother]
          intro heq
          rw [heq] at hother
          exact hk (Place.table.inj (h.inj hother ht))
        · rw [if_neg fun h => hopen ⟨h.1, h.2.1⟩, if_neg fun h => hopen ⟨h.1, h.2.1⟩]

/-- An entry of the page directory is set, for a page table with the pages that there were. -/
theorem entryOf_setTable (hdir : m'.mem d = Function.update (m.mem d) i e)
    (hi : (i : ℕ) < kernelSlot) (he : Has e pagePresent)
    (hothers : ∀ k g, k ≠ i → frameOf m d (.table k) = some g → m'.mem g = m.mem g)
    (hpages : ∀ j, entryOf m d (.page i j) =
      if Has (m'.mem (frameNo e) j) pagePresent then some (m'.mem (frameNo e) j) else none) :
    entryOf m' d = Function.update (entryOf m d) (.table i) (some e) := by
  funext p
  cases p with
  | table k =>
      simp only [entryOf, hdir]
      by_cases hk : k = i
      · subst hk
        rw [Function.update_self, Function.update_self, if_pos ⟨hi, he⟩]
      · rw [Function.update_of_ne hk, Function.update_of_ne fun h => hk (Place.table.inj h)]
        simp only [entryOf]
  | page k j =>
      rw [Function.update_of_ne (fun h => by cases h)]
      by_cases hk : k = i
      · subst hk
        rw [hpages]
        simp only [entryOf, hdir, Function.update_self, hi, he, true_and]
      · simp only [entryOf, hdir, Function.update_of_ne hk]
        by_cases hopen : (k : ℕ) < kernelSlot ∧ Has (m.mem d k) pagePresent
        · rw [hothers k _ hk (frameOf_table.mpr ⟨hopen.1, hopen.2, rfl⟩)]
        · rw [if_neg fun h => hopen ⟨h.1, h.2.1⟩, if_neg fun h => hopen ⟨h.1, h.2.1⟩]

theorem Separate.set (h : Separate m d)
    (hentry : entryOf m' d = Function.update (entryOf m d) p (some e)) (huser : Has e pageUser)
    (hne : frameNo e ≠ d) (hfree : ∀ q, frameOf m d q = some (frameNo e) → q = p)
    (hcount : m'.counts (frameNo e) = 1#8)
    (hcounts : ∀ q f, frameOf m d q = some f → f ≠ frameNo e → m'.counts f = m.counts f) :
    Separate m' d := by
  have hframe : ∀ q f, frameOf m' d q = some f →
      (q = p ∧ f = frameNo e) ∨ (q ≠ p ∧ frameOf m d q = some f) := by
    intro q f hf
    unfold frameOf at hf ⊢
    rw [hentry] at hf
    by_cases hq : q = p
    · subst hq
      rw [Function.update_self] at hf
      exact Or.inl ⟨rfl, (Option.some.inj hf).symm⟩
    · rw [Function.update_of_ne hq] at hf
      exact Or.inr ⟨hq, hf⟩
  refine ⟨?_, ?_, ?_, ?_⟩
  · intro q r f hq hr
    rcases hframe q f hq with ⟨rfl, rfl⟩ | ⟨hqp, hq⟩
    · rcases hframe r _ hr with ⟨rfl, -⟩ | ⟨-, hr⟩
      · rfl
      · exact (hfree r hr).symm
    · rcases hframe r f hr with ⟨rfl, rfl⟩ | ⟨-, hr⟩
      · exact hfree q hq
      · exact h.inj hq hr
  · intro q f hq
    rcases hframe q f hq with ⟨-, rfl⟩ | ⟨hqp, hq⟩
    · exact hcount
    · have hf : f ≠ frameNo e := by
        rintro rfl
        exact hqp (hfree q hq)
      rw [hcounts q f hq hf]
      exact h.count hq
  · intro q hq
    rcases hframe q d hq with ⟨-, hd⟩ | ⟨-, hq⟩
    · exact hne hd.symm
    · exact h.ne hq
  · intro q e' hq
    rw [hentry] at hq
    by_cases hqp : q = p
    · subst hqp
      rw [Function.update_self] at hq
      rwa [← Option.some.inj hq]
    · rw [Function.update_of_ne hqp] at hq
      exact h.user hq

theorem Separate.congr (h : Separate m d) (hentry : entryOf m' d = entryOf m d)
    (hcounts : ∀ q f, frameOf m d q = some f → m'.counts f = m.counts f) : Separate m' d := by
  have hframe : ∀ q, frameOf m' d q = frameOf m d q := fun q => by rw [frameOf, frameOf, hentry]
  refine ⟨?_, ?_, ?_, ?_⟩
  · intro q r f hq hr
    rw [hframe] at hq hr
    exact h.inj hq hr
  · intro q f hq
    rw [hframe] at hq
    rw [hcounts q f hq]
    exact h.count hq
  · intro q hq
    rw [hframe] at hq
    exact h.ne hq
  · intro q e he
    rw [hentry] at he
    exact h.user he

theorem Separate.reenter (h : Separate m d) (hpresent : Has (m.mem d i) pagePresent)
    (he : Has e pagePresent) (huser : Has e pageUser) (hframe : frameNo e = frameNo (m.mem d i)) :
    Separate (m.installed d i e) d ∧ ∀ p, frameOf (m.installed d i e) d p = frameOf m d p := by
  have hdir : (m.installed d i e).mem d = Function.update (m.mem d) i e :=
    Function.update_self ..
  have hothers : ∀ f, f ≠ d → (m.installed d i e).mem f = m.mem f := fun f hf =>
    Function.update_of_ne hf ..
  have hkeep : ∀ k g, frameOf m d (.table k) = some g → (m.installed d i e).mem g = m.mem g :=
    fun k g hg => hothers g fun heq => h.ne (heq ▸ hg)
  rcases Nat.lt_or_ge i kernelSlot with hi | hi
  · have htable : frameOf m d (.table i) = some (frameNo e) :=
      frameOf_table.mpr ⟨hi, hpresent, hframe.symm⟩
    have hentry : entryOf (m.installed d i e) d =
        Function.update (entryOf m d) (.table i) (some e) := by
      refine entryOf_setTable hdir hi he (fun k g _ hg => hkeep k g hg) fun j => ?_
      rw [hkeep i _ htable, entryOf, hframe]
      simp only [hi, hpresent, true_and]
    refine ⟨h.set hentry huser (fun heq => h.ne (heq ▸ htable))
      (fun q hq => h.inj hq htable) (h.count htable) fun _ _ _ _ => rfl, fun p => ?_⟩
    rw [frameOf, hentry]
    by_cases hp : p = .table i
    · subst hp
      rw [Function.update_self, htable]
      rfl
    · rw [Function.update_of_ne hp, frameOf]
  · have hentry : entryOf (m.installed d i e) d = entryOf m d := by
      refine entryOf_congr (fun k hk => ?_) hkeep
      rw [hdir, Function.update_of_ne]
      rintro rfl
      exact absurd hk (not_lt.mpr hi)
    refine ⟨h.congr hentry fun _ _ _ => rfl, fun p => ?_⟩
    rw [frameOf, frameOf, hentry]

theorem Separate.rewrite (h : Separate m d) (m' : Machine)
    (ht : frameOf m d (.table i) = some t) (hf : frameOf m d (.page i j) = some (frameNo e))
    (he : Has e pagePresent) (huser : Has e pageUser)
    (htable : m'.mem = Function.update m.mem t (Function.update (m.mem t) j e))
    (hcounts : m'.counts = m.counts) :
    Separate m' d ∧ ∀ p, frameOf m' d p = frameOf m d p := by
  have hne : t ≠ d := fun heq => h.ne (heq ▸ ht)
  have hdir : m'.mem d = m.mem d := by rw [htable, Function.update_of_ne hne.symm]
  have hentry : entryOf m' d = Function.update (entryOf m d) (.page i j) (some e) :=
    entryOf_setPage h ht hdir (by rw [htable, Function.update_self])
      (fun _ g _ hg => by rw [htable, Function.update_of_ne hg]) he
  refine ⟨h.set hentry huser (fun heq => h.ne (heq ▸ hf)) (fun q hq => h.inj hq hf) ?_ ?_,
    fun p => ?_⟩
  · rw [hcounts]
    exact h.count hf
  · intro q g _ _
    rw [hcounts]
  · rw [frameOf, hentry]
    by_cases hp : p = .page i j
    · subst hp
      rw [Function.update_self, hf]
      rfl
    · rw [Function.update_of_ne hp, frameOf]

/-! ## While it is built -/

/-- The frame is a page table of the page directory `d`. -/
def TableOf (m : Machine) (d t : Frame) : Prop :=
  ∃ i, Has (m.mem d i) pagePresent ∧ frameNo (m.mem d i) = t

/-- The frame is a page table of the page directory, or a page of the user in one of them. -/
def Reached (m : Machine) (d f : Frame) : Prop :=
  TableOf m d f ∨ ∃ t, TableOf m d t ∧
    ∃ j, Has (m.mem t j) pagePresent ∧ Has (m.mem t j) pageUser ∧ frameNo (m.mem t j) = f

/-- An address space is built in the page directory `d`, apart from that of the page directory
`c`.  Where the memory has changed since the machine `m₀`, there are page tables. -/
structure Building (reserved : Set Frame) (c d : Frame) (m₀ m : Machine) : Prop
    extends Separate m d where
  old_owned : Owned reserved m c
  dir_owned : Owned reserved m d
  dirs_ne : c ≠ d
  old_ne : ∀ p, frameOf m d p ≠ some c
  table_ne : ∀ t, TableOf m d t → t ≠ d ∧ t ≠ c
  kernel : ∀ i : Index, kernelSlot ≤ i → Has (m.mem d i) pagePresent →
    Owned reserved m (frameNo (m.mem d i)) ∧ ∀ p, frameOf m d p ≠ some (frameNo (m.mem d i))
  reached : ∀ f, Reached m c f → Owned reserved m f ∧ f ≠ d ∧ ∀ p, frameOf m d p ≠ some f
  changed : ∀ f, f ≠ d → ¬ TableOf m d f → m.mem f = m₀.mem f
  still_owned : ∀ f, Owned reserved m₀ f → Owned reserved m f
  new : ∀ p f, frameOf m d p = some f → ¬ Owned reserved m₀ f

variable {reserved : Set Frame} {m₀ : Machine}

theorem Separate.owned (h : Separate m d) (hf : frameOf m d p = some f) : Owned reserved m f := by
  refine Or.inr ?_
  rw [h.count hf]
  decide

theorem owned_setCount (h : Owned reserved m f)
    (hcounts : m'.counts = Function.update m.counts g 1#8) : Owned reserved m' f := by
  refine h.imp id fun hcount => ?_
  rw [hcounts]
  by_cases hf : f = g
  · rw [hf, Function.update_self]
    decide
  · rwa [Function.update_of_ne hf]

/-- A new frame becomes a page or a page table, in the part of the user or in that of the
kernel. -/
theorem Building.step (h : Building reserved c d m₀ m) (hnew : ¬ Owned reserved m g)
    (hcounts : m'.counts = Function.update m.counts g 1#8)
    (hentry : entryOf m' d = entryOf m d ∨ ∃ p e, frameNo e = g ∧ Has e pageUser ∧
      entryOf m' d = Function.update (entryOf m d) p (some e))
    (htables : ∀ t, TableOf m' d t → TableOf m d t ∨ t = g)
    (hkernel : ∀ i : Index, kernelSlot ≤ i → Has (m'.mem d i) pagePresent →
      (Has (m.mem d i) pagePresent ∧ frameNo (m'.mem d i) = frameNo (m.mem d i)) ∨
        (frameNo (m'.mem d i) = g ∧ entryOf m' d = entryOf m d))
    (hreached : ∀ f, Reached m' c f →
      Reached m c f ∨ (f = g ∧ entryOf m' d = entryOf m d))
    (hmem : ∀ f, f ≠ d → ¬ TableOf m' d f → m'.mem f = m.mem f ∧ ¬ TableOf m d f) :
    Building reserved c d m₀ m' := by
  have hmono : ∀ f, Owned reserved m f → Owned reserved m' f := fun f hf =>
    owned_setCount hf hcounts
  have hne : ∀ f, Owned reserved m f → f ≠ g := by
    rintro f hf rfl
    exact hnew hf
  have hframes : ∀ p f, frameOf m d p = some f → f ≠ g := fun p f hf => hne f (h.owned hf)
  have hsame : ∀ f, f ≠ g → m'.counts f = m.counts f := by
    intro f hf
    rw [hcounts, Function.update_of_ne hf]
  have hgained : ∀ p f, frameOf m' d p = some f → frameOf m d p = some f ∨ f = g := by
    intro p f hf
    unfold frameOf at hf ⊢
    rcases hentry with heq | ⟨q, e, he, -, heq⟩
    · rw [heq] at hf
      exact Or.inl hf
    · rw [heq] at hf
      by_cases hp : p = q
      · subst hp
        rw [Function.update_self] at hf
        exact Or.inr ((Option.some.inj hf).symm.trans he)
      · rw [Function.update_of_ne hp] at hf
        exact Or.inl hf
  have hlost : ∀ p f, entryOf m' d = entryOf m d → frameOf m' d p = some f → f ≠ g := by
    intro p f heq hf
    rw [frameOf, heq] at hf
    exact hframes p f hf
  have hseparate : Separate m' d := by
    rcases hentry with heq | ⟨q, e, rfl, huser, heq⟩
    · exact h.toSeparate.congr heq fun p f hf => hsame f (hframes p f hf)
    · refine h.toSeparate.set heq huser (hne d h.dir_owned).symm
        (fun p hp => absurd rfl (hframes p _ hp)) ?_ fun p f hf _ => hsame f (hframes p f hf)
      rw [hcounts, Function.update_self]
  have hg : Owned reserved m' g := by
    refine Or.inr ?_
    rw [hcounts, Function.update_self]
    decide
  refine
    { toSeparate := hseparate
      old_owned := hmono c h.old_owned
      dir_owned := hmono d h.dir_owned
      dirs_ne := h.dirs_ne
      old_ne := ?_
      table_ne := ?_
      kernel := ?_
      reached := ?_
      changed := ?_
      still_owned := fun f hf => hmono f (h.still_owned f hf)
      new := ?_ }
  · intro p hp
    rcases hgained p c hp with hp | hp
    · exact h.old_ne p hp
    · exact hne c h.old_owned hp
  · intro t ht
    rcases htables t ht with hold | rfl
    · exact h.table_ne t hold
    · exact ⟨(hne d h.dir_owned).symm, (hne c h.old_owned).symm⟩
  · intro i hi hpresent
    rcases hkernel i hi hpresent with ⟨hold, hframe⟩ | ⟨hframe, heq⟩
    · obtain ⟨howned, hfree⟩ := h.kernel i hi hold
      rw [hframe]
      refine ⟨hmono _ howned, fun p hp => ?_⟩
      rcases hgained p _ hp with hp | hp
      · exact hfree p hp
      · exact hne _ howned hp
    · rw [hframe]
      exact ⟨hg, fun p hp => hlost p g heq hp rfl⟩
  · intro f hf
    rcases hreached f hf with hold | ⟨rfl, heq⟩
    · obtain ⟨howned, hfd, hfree⟩ := h.reached f hold
      refine ⟨hmono f howned, hfd, fun p hp => ?_⟩
      rcases hgained p f hp with hp | hp
      · exact hfree p hp
      · exact hne f howned hp
    · exact ⟨hg, (hne d h.dir_owned).symm, fun p hp => hlost p f heq hp rfl⟩
  · intro f hfd hf
    obtain ⟨hsame, htable⟩ := hmem f hfd hf
    rw [hsame]
    exact h.changed f hfd htable
  · intro p f hf howned
    rcases hgained p f hf with hold | rfl
    · exact h.new p f hold howned
    · exact hnew (h.still_owned f howned)

theorem Building.addPage (h : Building reserved c d m₀ m) (hpresent : Has (m.mem d i) pagePresent)
    (hnew : ¬ Owned reserved m (frameNo e)) (he : Has e pagePresent) (huser : Has e pageUser)
    (hmem : m'.mem = Function.update m.mem (frameNo (m.mem d i))
      (Function.update (m.mem (frameNo (m.mem d i))) j e))
    (hcounts : m'.counts = Function.update m.counts (frameNo e) 1#8) :
    Building reserved c d m₀ m' := by
  obtain ⟨htd, htc⟩ := h.table_ne _ ⟨i, hpresent, rfl⟩
  have hdir : m'.mem d = m.mem d := by rw [hmem, Function.update_of_ne htd.symm]
  have hold : m'.mem c = m.mem c := by rw [hmem, Function.update_of_ne htc.symm]
  have hothers : ∀ f, f ≠ frameNo (m.mem d i) → m'.mem f = m.mem f := fun f hf => by
    rw [hmem, Function.update_of_ne hf]
  have htables : ∀ t, TableOf m' d t ↔ TableOf m d t := fun t => by rw [TableOf, TableOf, hdir]
  have htables' : ∀ t, TableOf m' c t ↔ TableOf m c t := fun t => by rw [TableOf, TableOf, hold]
  -- a page table of the kernel has no place
  have hhigh : kernelSlot ≤ (i : ℕ) → entryOf m' d = entryOf m d := fun hi =>
    entryOf_congr (fun k _ => by rw [hdir]) fun k t ht => hothers t fun heq =>
      (h.kernel i hi hpresent).2 _ (heq ▸ ht)
  refine h.step hnew hcounts ?_ (fun t ht => Or.inl ((htables t).mp ht)) ?_ ?_ ?_
  · rcases Nat.lt_or_ge i kernelSlot with hi | hi
    · refine Or.inr ⟨.page i j, e, rfl, huser, ?_⟩
      refine entryOf_setPage h.toSeparate (frameOf_table.mpr ⟨hi, hpresent, rfl⟩) hdir ?_
        (fun k g _ hg => hothers g hg) he
      rw [hmem, Function.update_self]
    · exact Or.inl (hhigh hi)
  · intro k hk hpresent'
    rw [hdir] at hpresent'
    exact Or.inl ⟨hpresent', by rw [hdir]⟩
  · rintro f (ht | ⟨t, ht, k, hp, hu, rfl⟩)
    · exact Or.inl (Or.inl ((htables' f).mp ht))
    · rw [htables'] at ht
      by_cases heq : t = frameNo (m.mem d i) ∧ k = j
      · obtain ⟨rfl, rfl⟩ := heq
        rw [hmem, Function.update_self, Function.update_self]
        refine Or.inr ⟨rfl, hhigh (le_of_not_gt fun hi => ?_)⟩
        exact (h.reached _ (Or.inl ht)).2.2 _ (frameOf_table.mpr ⟨hi, hpresent, rfl⟩)
      · have hsame : m'.mem t k = m.mem t k := by
          rw [hmem]
          by_cases ht' : t = frameNo (m.mem d i)
          · subst ht'
            rw [Function.update_self, Function.update_of_ne fun hk => heq ⟨rfl, hk⟩]
          · rw [Function.update_of_ne ht']
        rw [hsame] at hp hu ⊢
        exact Or.inl (Or.inr ⟨t, ht, k, hp, hu, rfl⟩)
  · intro f hf hnone
    rw [htables] at hnone
    exact ⟨hothers f fun heq => hnone ⟨i, hpresent, heq.symm⟩, hnone⟩

theorem Building.addTable (h : Building reserved c d m₀ m)
    (habsent : ¬ Has (m.mem d i) pagePresent) (hnew : ¬ Owned reserved m (frameNo e))
    (he : Has e pagePresent) (huser : Has e pageUser)
    (hdir : m'.mem d = Function.update (m.mem d) i e)
    (htable : m'.mem (frameNo e) = fun _ => 0#32)
    (hothers : ∀ f, f ≠ d → f ≠ frameNo e → m'.mem f = m.mem f)
    (hcounts : m'.counts = Function.update m.counts (frameNo e) 1#8) :
    Building reserved c d m₀ m' := by
  have hne : ∀ f, Owned reserved m f → f ≠ frameNo e := by
    rintro f hf rfl
    exact hnew hf
  have hold : m'.mem c = m.mem c := hothers c h.dirs_ne (hne c h.old_owned)
  have hentries : ∀ k, k ≠ i → m'.mem d k = m.mem d k := fun k hk => by
    rw [hdir, Function.update_of_ne hk]
  have hempty : ∀ k, ¬ Has (m'.mem (frameNo e) k) pagePresent := fun k => by
    rw [htable]
    exact Paging.Chunk.not_has_zero _
  have hkeep : ∀ k g, frameOf m d (.table k) = some g → m'.mem g = m.mem g := fun k g hg =>
    hothers g (fun heq => h.ne (heq ▸ hg)) (hne g (h.owned hg))
  have hhigh : kernelSlot ≤ (i : ℕ) → entryOf m' d = entryOf m d := fun hi =>
    entryOf_congr (fun k hk => hentries k fun heq => by
      subst heq
      exact absurd hk (not_lt.mpr hi)) hkeep
  refine h.step hnew hcounts ?_ ?_ ?_ ?_ ?_
  · rcases Nat.lt_or_ge i kernelSlot with hi | hi
    · refine Or.inr ⟨.table i, e, rfl, huser, ?_⟩
      refine entryOf_setTable hdir hi he (fun k g _ hg => hkeep k g hg) fun j => ?_
      rw [if_neg (hempty j), entryOf, if_neg fun hh => habsent hh.2.1]
    · exact Or.inl (hhigh hi)
  · rintro t ⟨k, hk, rfl⟩
    by_cases hki : k = i
    · subst hki
      rw [hdir, Function.update_self]
      exact Or.inr rfl
    · rw [hentries k hki] at hk ⊢
      exact Or.inl ⟨k, hk, rfl⟩
  · intro k hk hpresent
    by_cases hki : k = i
    · subst hki
      rw [hdir, Function.update_self]
      exact Or.inr ⟨rfl, hhigh hk⟩
    · rw [hentries k hki] at hpresent ⊢
      exact Or.inl ⟨hpresent, rfl⟩
  · have htables : ∀ t, TableOf m' c t ↔ TableOf m c t := fun t => by rw [TableOf, TableOf, hold]
    rintro f (ht | ⟨t, ht, k, hp, hu, rfl⟩)
    · exact Or.inl (Or.inl ((htables f).mp ht))
    · rw [htables] at ht
      obtain ⟨howned, htd, -⟩ := h.reached t (Or.inl ht)
      rw [hothers t htd (hne t howned)] at hp hu ⊢
      exact Or.inl (Or.inr ⟨t, ht, k, hp, hu, rfl⟩)
  · intro f hf hnone
    refine ⟨hothers f hf fun heq => hnone ⟨i, ?_, ?_⟩, fun ⟨k, hk, hkf⟩ => hnone ?_⟩
    · rwa [hdir, Function.update_self]
    · rw [hdir, Function.update_self, heq]
    · have hki : k ≠ i := by
        rintro rfl
        exact habsent hk
      refine ⟨k, ?_, ?_⟩
      · rwa [hentries k hki]
      · rwa [hentries k hki]

theorem Building.reenter (h : Building reserved c d m₀ m) (hpresent : Has (m.mem d i) pagePresent)
    (he : Has e pagePresent) (huser : Has e pageUser) (hframe : frameNo e = frameNo (m.mem d i)) :
    Building reserved c d m₀ (m.installed d i e) := by
  have hdir : (m.installed d i e).mem d = Function.update (m.mem d) i e :=
    Function.update_self ..
  have hothers : ∀ f, f ≠ d → (m.installed d i e).mem f = m.mem f := fun f hf =>
    Function.update_of_ne hf ..
  have hentries : ∀ k, (Has ((m.installed d i e).mem d k) pagePresent ↔
      Has (m.mem d k) pagePresent) ∧
      frameNo ((m.installed d i e).mem d k) = frameNo (m.mem d k) := by
    intro k
    rw [hdir]
    by_cases hk : k = i
    · subst hk
      rw [Function.update_self]
      exact ⟨iff_of_true he hpresent, hframe⟩
    · rw [Function.update_of_ne hk]
      exact ⟨Iff.rfl, rfl⟩
  have htables : ∀ t, TableOf (m.installed d i e) d t ↔ TableOf m d t := fun t => by
    simp only [TableOf, hentries]
  have hold := hothers c h.dirs_ne
  obtain ⟨hseparate, hframes⟩ := h.toSeparate.reenter hpresent he huser hframe
  refine
    { toSeparate := hseparate
      old_owned := h.old_owned
      dir_owned := h.dir_owned
      dirs_ne := h.dirs_ne
      old_ne := fun p => by rw [hframes]; exact h.old_ne p
      table_ne := fun t ht => h.table_ne t ((htables t).mp ht)
      kernel := ?_
      reached := ?_
      changed := ?_
      still_owned := h.still_owned
      new := fun p f hf => h.new p f ((hframes p).symm.trans hf) }
  · intro k hk hp
    obtain ⟨howned, hfree⟩ := h.kernel k hk ((hentries k).1.mp hp)
    rw [(hentries k).2]
    exact ⟨howned, fun p => by rw [hframes]; exact hfree p⟩
  · intro f hf
    have hreached : Reached m c f := by
      rcases hf with ht | ⟨t, ht, j, hp, hu, rfl⟩
      · rw [TableOf, hold] at ht
        exact Or.inl ht
      · rw [TableOf, hold] at ht
        rw [hothers t (h.reached t (Or.inl ht)).2.1] at hp hu ⊢
        exact Or.inr ⟨t, ht, j, hp, hu, rfl⟩
    obtain ⟨howned, hfd, hfree⟩ := h.reached f hreached
    exact ⟨howned, hfd, fun p => by rw [hframes]; exact hfree p⟩
  · intro f hf hnone
    rw [htables] at hnone
    rw [hothers f hf]
    exact h.changed f hf hnone

/-! ## `virt_map_chunk` -/

section Chunk

variable {alloc : Machine → BitVec 32} {limit pgDir flags old tmp tmp' phys' pgTable : BitVec 32}
  {is : List Index} {m₁ : Machine} (halloc : AllocatesOutside reserved alloc)
  (hflags : frameNo flags = 0#20) (huser : Has flags pageUser)

theorem Building.congr (h : Building reserved c d m₀ m) (hmem : m'.mem = m.mem)
    (hcounts : m'.counts = m.counts) : Building reserved c d m₀ m' := by
  obtain ⟨mem, counts, tmpPage, cr3⟩ := m
  obtain ⟨mem', counts', tmpPage', cr3'⟩ := m'
  obtain rfl : mem' = mem := hmem
  obtain rfl : counts' = counts := hcounts
  exact ⟨⟨h.inj, h.count, h.ne, h.user⟩, h.old_owned, h.dir_owned, h.dirs_ne, h.old_ne, h.table_ne,
    h.kernel, h.reached, h.changed, h.still_owned, h.new⟩

include halloc hflags huser

/-- The page table is filled before it is entered into the page directory. -/
theorem Building.fill (h : Building reserved c d m₀ (m.installed d i e))
    (he : Has e pagePresent) (htmp : m.tmpPage = frameNo e)
    (hrun : mapPages alloc limit flags is tmp 0#32 m = (m', some (tmp', phys'))) :
    Building reserved c d m₀ (m'.installed d i e) ∧ m'.tmpPage = frameNo e ∧ phys' = 0#32 := by
  induction is generalizing tmp m with
  | nil =>
      obtain ⟨rfl, hr⟩ := Prod.mk.inj hrun
      exact ⟨h, htmp, (Prod.mk.inj (Option.some.inj hr)).2.symm⟩
  | cons j is ih =>
      unfold mapPages at hrun
      by_cases hend : tmp > limit
      · rw [if_pos hend] at hrun
        obtain ⟨rfl, hr⟩ := Prod.mk.inj hrun
        exact ⟨h, htmp, (Prod.mk.inj (Option.some.inj hr)).2.symm⟩
      · rw [if_neg hend, if_pos rfl] at hrun
        unfold Machine.pageFrameAlloc at hrun
        by_cases hno : alloc m = BitVec.ofNat 32 noFreePage
        · simp only [hno, if_true] at hrun
          cases hrun
        · simp only [hno, if_false] at hrun
          refine ih ?_ ?_ hrun
          · have hentry : (m.installed d i e).mem d i = e := by
              simp only [Machine.installed, Function.update_self]
            have hframe := Paging.Chunk.frameNo_flags (a := alloc m) hflags
            have hpresent : Has ((m.installed d i e).mem d i) pagePresent := by rwa [hentry]
            have hne : frameNo e ≠ d := by
              rw [← hentry]
              exact (h.table_ne _ ⟨i, hpresent, rfl⟩).1
            refine h.addPage (e := alloc m ||| pagePresent ||| flags) (j := j) hpresent ?_
              (Paging.has_or_left (Paging.has_or_right (by decide)))
              (Paging.has_or_right huser) ?_ ?_
            · rw [hframe]
              exact halloc m hno
            · rw [hentry]
              simp only [Machine.installed, Machine.setTmp, Machine.setTmpPage, Machine.setCount,
                htmp, Function.update_of_ne hne, Function.update_of_ne hne.symm]
              exact Function.update_comm hne ..
            · rw [hframe]
              rfl
          · exact htmp

/-- The page table of a round is there already or gets a new frame. -/
theorem Building.tableOpened (h : Building reserved c d m₀ m)
    (hrun : tableFor alloc old (m.mem d i) m = (m₁, some pgTable)) :
    Building reserved c d m₀ (m₁.installed d i (pgTable ||| pagePresent ||| flags)) ∧
      m₁.tmpPage = frameNo (pgTable ||| pagePresent ||| flags) := by
  have hframe := Paging.Chunk.frameNo_flags (a := pgTable) hflags
  have hpresent : Has (pgTable ||| pagePresent ||| flags) pagePresent :=
    Paging.has_or_left (Paging.has_or_right (by decide))
  have huser' : Has (pgTable ||| pagePresent ||| flags) pageUser := Paging.has_or_right huser
  rw [hframe]
  rcases Paging.Chunk.tableFor_cases hrun with ⟨he, rfl, rfl⟩ | ⟨he, rfl, hno, rfl⟩
  · refine ⟨(h.reenter he hpresent huser' ?_).congr rfl rfl, rfl⟩
    rw [hframe, Paging.frameNo_and_mask]
  · have hnew := halloc m hno
    have hne : frameNo (alloc m) ≠ d := by
      intro heq
      rw [heq] at hnew
      exact hnew h.dir_owned
    refine ⟨h.addTable (e := alloc m ||| pagePresent ||| flags) he ?_ hpresent huser' ?_ ?_ ?_ ?_,
      rfl⟩
    · rwa [hframe]
    · simp only [Machine.installed, Function.update_self, Machine.setTmpPage, Machine.tmpMapPage,
        Function.update_of_ne hne.symm, Machine.setCount]
    · rw [hframe]
      simp only [Machine.installed, Function.update_of_ne hne, Machine.setTmpPage,
        Machine.tmpMapPage, Function.update_self]
    · intro f hfd hf
      rw [hframe] at hf
      simp only [Machine.installed, Function.update_of_ne hfd, Machine.setTmpPage,
        Machine.tmpMapPage, Function.update_of_ne hf, Machine.setCount]
    · rw [hframe]
      rfl

theorem Building.rounds {n k : ℕ} (h : Building reserved c (frameNo pgDir) m₀ m)
    (hrun : mapTables alloc limit pgDir flags old n k tmp 0#32 m =
      .ok (m', true)) : Building reserved c (frameNo pgDir) m₀ m' := by
  induction n generalizing k tmp m with
  | zero =>
      obtain ⟨rfl, -⟩ := Prod.mk.inj (Except.ok.inj hrun)
      exact h
  | succ n ih =>
      obtain ⟨i, m₁, m₂, pgTable, tmp', phys', -, ht, hp, hrest⟩ :=
        Paging.Chunk.mapTables_succ hrun
      have hmapped : Building reserved c (frameNo pgDir) m₀ (m.tmpMapPage pgDir) := h.congr rfl rfl
      obtain ⟨hopened, htmp⟩ := Building.tableOpened halloc hflags huser hmapped ht
      obtain ⟨hfilled, -, rfl⟩ := Building.fill halloc hflags huser hopened
        (Paging.has_or_left (Paging.has_or_right (by decide))) htmp hp
      have hentered : Building reserved c (frameNo pgDir) m₀
          ((m₂.tmpMapPage pgDir).setTmp i (pgTable ||| pagePresent ||| flags)) :=
        hfilled.congr rfl rfl
      exact ih hentered hrest

theorem Building.chunk {start size ret : BitVec 32}
    (h : Building reserved c (frameNo pgDir) m₀ m)
    (hrun : virtMapChunk alloc start size pgDir flags m = .ok (m', ret)) (hret : ret ≠ 0#32) :
    Building reserved c (frameNo pgDir) m₀ m' := by
  unfold virtMapChunk mapChunk at hrun
  obtain ⟨⟨m₁, done⟩, htables, hend⟩ := bind_eq_ok.mp hrun
  cases done with
  | false => exact absurd (congrArg Prod.snd (Except.ok.inj hend)).symm hret
  | true =>
      obtain rfl : m₁.tmpMapPage m.getTmpPage = m' := congrArg Prod.fst (Except.ok.inj hend)
      have hmapped : Building reserved c (frameNo pgDir) m₀ (m.tmpMapPage pgDir) :=
        h.congr rfl rfl
      exact (Building.rounds halloc hflags huser hmapped htables).congr rfl rfl

theorem Building.segment {vaddr size : BitVec 32}
    (h : Building reserved c (frameNo pgDir) m₀ m)
    (hrun : vallocSegment alloc vaddr size pgDir flags m = .ok (m', true)) :
    Building reserved c (frameNo pgDir) m₀ m' := by
  unfold vallocSegment at hrun
  by_cases hsize : size > 0#32
  · rw [if_pos hsize] at hrun
    obtain ⟨⟨m₁, ret⟩, hchunk, hend⟩ := bind_eq_ok.mp hrun
    obtain ⟨rfl, hret⟩ := Prod.mk.inj (Except.ok.inj hend)
    exact Building.chunk halloc hflags huser h hchunk (of_decide_eq_true hret)
  · rw [if_neg hsize] at hrun
    obtain ⟨rfl, -⟩ := Prod.mk.inj (Except.ok.inj hrun)
    exact h

end Chunk

/-! ## All segments -/

/-- The kernel has its own page tables in `init_page_directory`, and `page_frame_alloc` returns
none of their frames and none that the address space of `cr3` consists of. -/
structure Ready (reserved : Set Frame) (k : Kernel) (m : Machine) (cr3 : BitVec 32) : Prop where
  alloc : AllocatesOutside reserved k.alloc
  user_empty : ∀ i : Index, (i : ℕ) < kernelSlot → ¬ Has (k.initPageDirectory i) pagePresent
  kernel_owned : ∀ i, Has (k.initPageDirectory i) pagePresent →
    Owned reserved m (frameNo (k.initPageDirectory i)) ∧
      frameNo (k.initPageDirectory i) ≠ frameNo cr3
  dir_owned : Owned reserved m (frameNo cr3)
  dir_ne : ¬ TableOf m (frameNo cr3) (frameNo cr3)
  reached_owned : ∀ f, Reached m (frameNo cr3) f → Owned reserved m f

variable {k : Kernel} {cr3 : BitVec 32}

theorem Ready.building (h : Ready reserved k m cr3) (hnew : ¬ Owned reserved m d)
    (hdir : m'.mem d = k.initPageDirectory) (hothers : ∀ f, f ≠ d → m'.mem f = m.mem f)
    (hcounts : m'.counts = Function.update m.counts d 1#8) :
    Building reserved (frameNo cr3) d m m' := by
  have hne : ∀ f, Owned reserved m f → f ≠ d := by
    rintro f hf rfl
    exact hnew hf
  have hmono : ∀ f, Owned reserved m f → Owned reserved m' f := fun f hf =>
    owned_setCount hf hcounts
  have hold := hothers _ (hne _ h.dir_owned)
  have hnone : ∀ p, entryOf m' d p = none := by
    intro p
    cases p with
    | table i =>
        rw [entryOf, if_neg]
        rintro ⟨hi, hpresent⟩
        rw [hdir] at hpresent
        exact h.user_empty i hi hpresent
    | page i j =>
        rw [entryOf, if_neg]
        rintro ⟨hi, hpresent, -⟩
        rw [hdir] at hpresent
        exact h.user_empty i hi hpresent
  have hnone' : ∀ p, frameOf m' d p = none := fun p => by rw [frameOf, hnone, Option.map_none]
  refine
    { inj := fun {p q f} hp => by rw [hnone'] at hp; cases hp
      count := fun {p f} hp => by rw [hnone'] at hp; cases hp
      ne := fun {p} hp => by rw [hnone'] at hp; cases hp
      user := fun {p e} hp => by rw [hnone] at hp; cases hp
      old_owned := hmono _ h.dir_owned
      dir_owned := ?_
      dirs_ne := hne _ h.dir_owned
      old_ne := fun p hp => by rw [hnone'] at hp; cases hp
      table_ne := ?_
      kernel := ?_
      reached := ?_
      changed := fun f hf _ => hothers f hf
      still_owned := hmono
      new := fun p f hf => by rw [hnone'] at hf; cases hf }
  · refine Or.inr ?_
    rw [hcounts, Function.update_self]
    decide
  · rintro t ⟨i, hpresent, rfl⟩
    rw [hdir] at hpresent ⊢
    obtain ⟨howned, hcr3⟩ := h.kernel_owned i hpresent
    exact ⟨hne _ howned, hcr3⟩
  · intro i _ hpresent
    rw [hdir] at hpresent ⊢
    refine ⟨hmono _ (h.kernel_owned i hpresent).1, fun p hp => ?_⟩
    rw [hnone'] at hp
    cases hp
  · intro f hf
    have hreached : Reached m (frameNo cr3) f := by
      rcases hf with ht | ⟨t, ht, j, hp, hu, rfl⟩
      · rw [TableOf, hold] at ht
        exact Or.inl ht
      · rw [TableOf, hold] at ht
        rw [hothers t (hne t (h.reached_owned t (Or.inl ht)))] at hp hu ⊢
        exact Or.inr ⟨t, ht, j, hp, hu, rfl⟩
    have howned := h.reached_owned f hreached
    refine ⟨hmono f howned, hne f howned, fun p hp => ?_⟩
    rw [hnone'] at hp
    cases hp

/-- Where `arch_valloc_segments` does not fail, it has made an address space apart. -/
theorem Ready.valloc {image : ExecImage} {pgDir : BitVec 32} (h : Ready reserved k m cr3)
    (hrun : archVallocSegments k image m = .ok (m', some pgDir)) :
    Building reserved (frameNo cr3) (frameNo pgDir) m m' := by
  unfold archVallocSegments Machine.pageFrameAlloc at hrun
  by_cases hno : k.alloc m = BitVec.ofNat 32 noFreePage
  · simp only [hno, if_true] at hrun
    cases hrun
  · simp only [hno, if_false] at hrun
    have hread : frameNo pageUser = 0#20 := by decide
    have hwrite : frameNo (pageUser ||| pageWritable) = 0#20 := by decide
    have hstart : Building reserved (frameNo cr3) (frameNo (k.alloc m)) m
        (((m.setCount (k.alloc m) 1#8).tmpMapPage (k.alloc m)).setTmpPage k.initPageDirectory) :=
      h.building (h.alloc m hno) (Function.update_self ..)
        (fun f hf => Function.update_of_ne hf ..) rfl
    by_cases htext : image.textVaddr > kernelVirtBase
    · rw [if_pos htext] at hrun
      cases hrun
    · rw [if_neg htext] at hrun
      obtain ⟨⟨m₁, done⟩, h₁, hrun⟩ := bind_eq_ok.mp hrun
      cases done with
      | false => cases hrun
      | true =>
        have hb₁ := Building.segment h.alloc hread (by decide) hstart h₁
        by_cases hdata : image.dataVaddr > kernelVirtBase
        · simp only [hdata, if_true] at hrun
          cases hrun
        · simp only [hdata, if_false] at hrun
          obtain ⟨⟨m₂, done⟩, h₂, hrun⟩ := bind_eq_ok.mp hrun
          cases done with
          | false => cases hrun
          | true =>
            have hb₂ := Building.segment h.alloc hwrite (by decide) hb₁ h₂
            obtain ⟨⟨m₃, done⟩, h₃, hrun⟩ := bind_eq_ok.mp hrun
            cases done with
            | false => cases hrun
            | true =>
              have hb₃ := Building.segment h.alloc hread (by decide) hb₂ h₃
              obtain ⟨⟨m₄, done⟩, h₄, hrun⟩ := bind_eq_ok.mp hrun
              cases done with
              | false => cases hrun
              | true =>
                have hb₄ := Building.segment h.alloc hwrite (by decide) hb₃ h₄
                obtain ⟨rfl, hd⟩ := Prod.mk.inj (Except.ok.inj hrun)
                rw [← Option.some.inj hd]
                exact hb₄.congr rfl rfl

end Yak.Exec
