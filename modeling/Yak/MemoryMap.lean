import Yak.PageAlloc

/-!
# The memory map as a list of regions

`mm_init` keeps the available ranges of the boot loader in an array, whose entries
are linked to a list as long as they have a `next` entry.  The module gives the
list of regions which `mm_init` ends with, and their bitmaps, by functions on
lists.  A range of size zero is overwritten by the next one, and of sixteen ranges
the last is left out, because it has no `next` entry.
-/

namespace Yak.PageFrames

open ByteBitmap

/-- A region of the memory map: its physical address and its size. -/
structure Region where
  base : ℕ
  size : ℕ
  deriving DecidableEq

/-- The number of bytes in the bitmap of a region. -/
def Region.bitmapBytes (r : Region) : ℕ := r.size / pageSize / 8 + 1

/-- The number of bytes in the bitmaps of the regions. -/
def bitmapTotal (l : List Region) : ℕ := (l.map Region.bitmapBytes).sum

@[simp] theorem bitmapTotal_nil : bitmapTotal [] = 0 := rfl

@[simp] theorem bitmapTotal_cons (r : Region) (l : List Region) :
    bitmapTotal (r :: l) = r.bitmapBytes + bitmapTotal l := by
  simp [bitmapTotal]

@[simp] theorem bitmapTotal_append (l l' : List Region) :
    bitmapTotal (l ++ l') = bitmapTotal l + bitmapTotal l' := by
  simp [bitmapTotal]

/-- The address and the size are 32 bits wide. -/
structure Region.Fits (r : Region) : Prop where
  base : r.base < 2 ^ 32
  size : r.size < 2 ^ 32

theorem Region.Fits.drop {r : Region} (h : r.Fits) (n : ℕ) :
    Region.Fits ⟨(r.base + n) % 2 ^ 32, r.size - n⟩ :=
  ⟨Nat.mod_lt _ (by decide), Nat.lt_of_le_of_lt (Nat.sub_le _ _) h.size⟩

namespace Boot

variable (boot : Boot)

def region (e : BootEntry) : Region := ⟨e.addrLow.toNat, e.lenLow.toNat⟩

/-- The ranges which `enter_into_mmap` has entered, starting from these. -/
def entered : List Region → List BootEntry → List Region
  | l, [] => l
  | l, e :: es =>
      if e.type = Memory.multibootMemoryAvailable then
        let sized := l.filter fun r => r.size ≠ 0
        if sized.length < maxMmapEntries then entered (sized ++ [region e]) es else l
      else entered l es

/-- The sum of the sizes, up to the first range which is not entered. -/
def sizeSum : ℕ → List Region → List BootEntry → ℕ
  | sum, _, [] => sum
  | sum, l, e :: es =>
      if e.type = Memory.multibootMemoryAvailable then
        let sum := (sum + e.lenLow.toNat) % 2 ^ 32
        let sized := l.filter fun r => r.size ≠ 0
        if sized.length < maxMmapEntries then sizeSum sum (sized ++ [region e]) es else sum
      else sizeSum sum l es

def totalMem : ℕ := sizeSum 0 [] boot.entries

def kernelSize : ℕ := (boot.kendAddr + (2 ^ 32 - boot.kstartAddr)) % 2 ^ 32

/-- What is left of a region when the kernel is taken out. -/
def withoutKernel (r : Region) : Region :=
  if r.base = boot.kstartAddr ∧ boot.kernelSize < r.size then
    ⟨(r.base + boot.kernelSize) % 2 ^ 32, r.size - boot.kernelSize⟩
  else r

/-- The number of bytes which `reserve_bitmaps` reserves. -/
def reserved : ℕ := (boot.totalMem / (pageSize * 8 * pageSize) + 1) * pageSize

/-- The regions before the bitmaps are reserved. -/
def unreserved : List Region :=
  ((entered [] boot.entries).take (maxMmapEntries - 1)).map boot.withoutKernel

/-- The first region with more than `need` bytes loses that many. -/
def carve (need : ℕ) : List Region → List Region
  | [] => []
  | r :: l =>
      if need < r.size then ⟨(r.base + need) % 2 ^ 32, r.size - need⟩ :: l else r :: carve need l

/-- The regions which `mm_init` ends with. -/
def regions : List Region := carve boot.reserved boot.unreserved

/-- The address of the first bitmap. -/
def bitmapBase : ℕ :=
  ((boot.unreserved.find? fun r => boot.reserved < r.size).map Region.base).getD 0

/-- The address of the bitmap of region `i`. -/
def bitmapStart (i : ℕ) : ℕ := (boot.bitmapBase + bitmapTotal (boot.regions.take i)) % 2 ^ 32

end Boot

namespace Memory

variable {mm mm' : Memory} {boot : Boot} {mmap mmap' : ℕ → MmapEntry} {bitmaps : ℕ → MmapBitmap}
  {l pre post : List Region} {r r' : Region} {mem : Bytes}

/-! ## The list in the array -/

/-- The entries up to the first one without `next` are these regions. -/
structure Maps (mmap : ℕ → MmapEntry) (l : List Region) : Prop where
  length_lt : l.length < maxMmapEntries
  entry : ∀ i r, l[i]? = some r → mmap i = ⟨r.base, r.size, some (i + 1)⟩
  last : (mmap l.length).next = none

theorem Maps.entry_middle (h : Maps mmap (pre ++ r :: post)) :
    mmap pre.length = ⟨r.base, r.size, some (pre.length + 1)⟩ :=
  h.entry _ _ (by simp)

theorem Maps.next_append (h : Maps mmap (pre ++ [])) : (mmap pre.length).next = none := by
  have hlast := h.last
  rw [List.append_nil] at hlast
  exact hlast

theorem Maps.set (h : Maps mmap (pre ++ r :: post)) (r' : Region) :
    Maps (Function.update mmap pre.length ⟨r'.base, r'.size, some (pre.length + 1)⟩)
      (pre ++ r' :: post) where
  length_lt := by
    have hlt := h.length_lt
    simp only [List.length_append, List.length_cons] at hlt ⊢
    exact hlt
  entry i x hx := by
    by_cases hi : i = pre.length
    · subst hi
      rw [List.getElem?_append_right le_rfl, Nat.sub_self] at hx
      obtain rfl := Option.some.inj hx
      rw [Function.update_self]
    · rw [Function.update_of_ne hi]
      apply h.entry
      rw [List.getElem?_append] at hx ⊢
      split at hx
      next hlt => rwa [if_pos hlt]
      next hlt =>
        rw [if_neg hlt]
        obtain ⟨k, hk⟩ : ∃ k, i - pre.length = k + 1 := ⟨i - pre.length - 1, by omega⟩
        rw [hk, List.getElem?_cons_succ] at hx ⊢
        exact hx
  last := by
    have hlast := h.last
    simp only [List.length_append, List.length_cons] at hlast ⊢
    rw [Function.update_of_ne (by omega)]
    exact hlast

/-! ## The ranges of the boot loader -/

/-- The ranges with a size. -/
def kept (l : List Region) : List Region := l.filter fun r => r.size ≠ 0

/-- The array holds these ranges, of which only the last one can have no size. -/
structure Entered (mmap : ℕ → MmapEntry) (l : List Region) : Prop where
  length_le : l.length ≤ maxMmapEntries
  empty : ∃ empties, l = kept l ++ empties ∧ empties.length ≤ 1
  entry : ∀ i r, l[i]? = some r →
    mmap i = ⟨r.base, r.size, if i + 1 < maxMmapEntries then some (i + 1) else none⟩
  rest : ∀ i, l.length ≤ i → mmap i = ⟨0, 0, none⟩

theorem Entered.size_ne_zero (h : Entered mmap l) {i : ℕ} (hi : i < (kept l).length) :
    (mmap i).size ≠ 0 := by
  obtain ⟨empties, hl, _⟩ := h.empty
  have hprefix : kept l <+: l := ⟨empties, hl.symm⟩
  rw [h.entry i _ (List.prefix_iff_getElem?.mp hprefix i hi)]
  have hmem : (kept l)[i] ∈ kept l := List.getElem_mem hi
  simpa using List.of_mem_filter hmem

theorem Entered.size_eq_zero (h : Entered mmap l) : (mmap (kept l).length).size = 0 := by
  obtain ⟨empties, hl, _⟩ := h.empty
  cases empties with
  | nil =>
      rw [List.append_nil] at hl
      rw [← hl, h.rest _ le_rfl]
  | cons z empties =>
      have hget : (kept l ++ z :: empties)[(kept l).length]? = some z := by simp
      rw [← hl] at hget
      have hnone : (z :: empties).filter (fun r => r.size ≠ 0) = [] := by
        have hfilter := congrArg kept hl
        unfold kept at hfilter
        rw [List.filter_append, List.filter_filter] at hfilter
        simpa using hfilter
      rw [h.entry _ z hget]
      simpa using List.filter_eq_nil_iff.mp hnone z List.mem_cons_self

theorem Entered.findFree (h : Entered mmap l) :
    ((List.range maxMmapEntries).find? fun i => (mmap i).size = 0) =
      if (kept l).length < maxMmapEntries then some (kept l).length else none := by
  split
  next hlt =>
    rw [List.find?_range_eq_some]
    refine ⟨by simpa using h.size_eq_zero, List.mem_range.mpr hlt, ?_⟩
    intro j hj
    simpa using h.size_ne_zero hj
  next hge =>
    rw [List.find?_eq_none]
    intro i hi
    rw [List.mem_range] at hi
    simpa using h.size_ne_zero (show i < (kept l).length by omega)

theorem Entered.enter (h : Entered mmap l) (hlt : (kept l).length < maxMmapEntries) (r : Region) :
    Entered
      (Function.update mmap (kept l).length
        ⟨r.base, r.size,
          if (kept l).length + 1 < maxMmapEntries then some ((kept l).length + 1) else none⟩)
      (kept l ++ [r]) := by
  obtain ⟨empties, hl, hlength⟩ := h.empty
  have hle : l.length ≤ (kept l).length + 1 := by
    rw [hl, List.length_append, ← hl]
    omega
  refine ⟨?_, ?_, ?_, ?_⟩
  · rw [List.length_append, List.length_singleton]
    exact hlt
  · have hkept : kept (kept l ++ [r]) = kept l ++ kept [r] := by
      unfold kept
      rw [List.filter_append, List.filter_filter]
      simp
    rw [hkept]
    by_cases hr : r.size = 0
    · exact ⟨[r], by simp [kept, hr], le_rfl⟩
    · exact ⟨[], by simp [kept, hr], Nat.zero_le _⟩
  · intro i x hx
    by_cases hi : i = (kept l).length
    · subst hi
      rw [List.getElem?_append_right le_rfl, Nat.sub_self] at hx
      obtain rfl := Option.some.inj hx
      rw [Function.update_self]
    · have hi' : i < (kept l).length := by
        have hlt' := (List.getElem?_eq_some_iff.mp hx).1
        rw [List.length_append, List.length_singleton] at hlt'
        omega
      rw [Function.update_of_ne hi]
      apply h.entry
      rw [List.getElem?_append_left hi'] at hx
      rw [hl, List.getElem?_append_left hi']
      exact hx
  · intro i hi
    rw [List.length_append, List.length_singleton] at hi
    rw [Function.update_of_ne (by omega)]
    exact h.rest i (by omega)

theorem Entered.enterAll (es : List BootEntry) (h : Entered mm.mmap l) :
    Entered (mm.enterAll es).mmap (Boot.entered l es) ∧
      (mm.enterAll es).totalMem = Boot.sizeSum mm.totalMem l es ∧
      (mm.enterAll es).mmapBitmaps = mm.mmapBitmaps := by
  induction es generalizing mm l with
  | nil => exact ⟨h, rfl, rfl⟩
  | cons e es ih =>
      unfold Memory.enterAll Boot.entered Boot.sizeSum
      split
      next =>
        unfold enterIntoMmap
        dsimp only
        rw [h.findFree]
        change Entered _ (if (kept l).length < maxMmapEntries then _ else _) ∧
          _ = (if (kept l).length < maxMmapEntries then _ else _) ∧ _
        by_cases hlt : (kept l).length < maxMmapEntries
        · rw [if_pos hlt, if_pos hlt, if_pos hlt]
          exact ih (h.enter hlt (Boot.region e))
        · rw [if_neg hlt, if_neg hlt, if_neg hlt]
          exact ⟨h, rfl, rfl⟩
      next => exact ih h

theorem Entered.maps (h : Entered mmap l) : Maps mmap (l.take (maxMmapEntries - 1)) where
  length_lt := by
    rw [List.length_take, maxMmapEntries]
    omega
  entry i r hr := by
    rw [List.getElem?_take] at hr
    split at hr
    next hi =>
      rw [h.entry i r hr, if_pos (by omega)]
    next => cases hr
  last := by
    have hle := h.length_le
    rw [List.length_take]
    by_cases hlt : maxMmapEntries - 1 < l.length
    · rw [Nat.min_eq_left (by omega)]
      have hget := List.getElem?_eq_getElem hlt
      rw [h.entry _ _ hget, if_neg (by unfold maxMmapEntries; omega)]
    · rw [Nat.min_eq_right (by omega), h.rest _ le_rfl]

theorem entered_bss (mem : Bytes) : Entered (bss mem).mmap [] where
  length_le := Nat.zero_le _
  empty := ⟨[], rfl, Nat.zero_le _⟩
  entry _ _ hr := by cases hr
  rest _ _ := rfl

/-! ## The kernel and the bitmaps are taken out -/

theorem Maps.takeKernel (pre post : List Region) {fuel : ℕ} (h : Maps mmap (pre ++ post))
    (hrun : takeKernel boot.kstartAddr boot.kernelSize mmap fuel pre.length = .ok mmap') :
    Maps mmap' (pre ++ post.map boot.withoutKernel) := by
  induction post generalizing mmap fuel pre with
  | nil =>
      cases fuel with
      | zero => cases hrun
      | succ fuel =>
          rw [Memory.takeKernel, h.next_append] at hrun
          rw [← Except.ok.inj hrun]
          exact h
  | cons r post ih =>
      cases fuel with
      | zero => cases hrun
      | succ fuel =>
          have hstep : ∀ mmap₁ r', Maps mmap₁ (pre ++ r' :: post) →
              Memory.takeKernel boot.kstartAddr boot.kernelSize mmap₁ fuel (pre.length + 1) =
                .ok mmap' →
              Maps mmap' (pre ++ r' :: post.map boot.withoutKernel) := by
            intro mmap₁ r' h₁ hrun₁
            rw [List.append_cons] at h₁ ⊢
            have hlength : (pre ++ [r']).length = pre.length + 1 := by simp
            rw [← hlength] at hrun₁
            exact ih (pre ++ [r']) h₁ hrun₁
          rw [Memory.takeKernel, h.entry_middle] at hrun
          dsimp only at hrun
          rw [List.map_cons, Boot.withoutKernel]
          split at hrun
          next hcond =>
            rw [if_pos hcond]
            exact hstep _ _ (h.set _) hrun
          next hcond =>
            rw [if_neg hcond]
            split at hrun
            next => cases hrun
            next => exact hstep _ _ h hrun

theorem Maps.findSpace (pre post : List Region) {need fuel i : ℕ} (h : Maps mmap (pre ++ post))
    (hrun : findSpace mmap need fuel pre.length = some i) :
    ∃ front r back, post = front ++ r :: back ∧ i = (pre ++ front).length ∧ need < r.size ∧
      ∀ x ∈ front, ¬need < x.size := by
  induction post generalizing fuel pre with
  | nil =>
      cases fuel with
      | zero => cases hrun
      | succ fuel =>
          rw [Memory.findSpace, h.next_append] at hrun
          cases hrun
  | cons r post ih =>
      cases fuel with
      | zero => cases hrun
      | succ fuel =>
          rw [Memory.findSpace, h.entry_middle] at hrun
          dsimp only at hrun
          split at hrun
          next hneed =>
            obtain rfl := Option.some.inj hrun
            exact ⟨[], r, post, rfl, by rw [List.append_nil], hneed, nofun⟩
          next hneed =>
            rw [List.append_cons] at h
            have hlength : (pre ++ [r]).length = pre.length + 1 := by simp
            rw [← hlength] at hrun
            obtain ⟨front, x, back, hpost, hi, hx, hfront⟩ := ih (pre ++ [r]) h hrun
            refine ⟨r :: front, x, back, by rw [hpost]; rfl, ?_, hx, ?_⟩
            · rw [hi, List.append_cons pre r front]
            · intro y hy
              rcases List.mem_cons.mp hy with rfl | hy
              · exact hneed
              · exact hfront y hy

theorem carve_append {need : ℕ} {front back : List Region} (hneed : need < r.size)
    (hfront : ∀ x ∈ front, ¬need < x.size) :
    Boot.carve need (front ++ r :: back) =
      front ++ ⟨(r.base + need) % 2 ^ 32, r.size - need⟩ :: back := by
  induction front with
  | nil => exact if_pos hneed
  | cons x front ih =>
      rw [List.cons_append, Boot.carve, if_neg (hfront x List.mem_cons_self),
        ih fun y hy => hfront y (List.mem_cons_of_mem x hy)]
      rfl

theorem find?_append {need : ℕ} {front back : List Region} (hneed : need < r.size)
    (hfront : ∀ x ∈ front, ¬need < x.size) :
    (front ++ r :: back).find? (fun x => need < x.size) = some r := by
  rw [List.find?_append, List.find?_eq_none.mpr (by simpa using hfront), Option.none_or,
    List.find?_cons_of_pos (by simpa using hneed)]

/-! ## The bitmaps -/

theorem setupBitmaps_of_lt {fuel i base j : ℕ} (hj : j < i) :
    setupBitmaps mmap bitmaps fuel i base j = bitmaps j := by
  induction fuel generalizing bitmaps i base with
  | zero => rfl
  | succ fuel ih =>
      rw [setupBitmaps]
      cases (mmap i).next with
      | none => rfl
      | some _ =>
          dsimp only
          rw [ih (by omega), Function.update_of_ne (by omega)]

/-- The bitmap which is set up for a region. -/
def freshBitmap (base : ℕ) (r : Region) : MmapBitmap :=
  ⟨base, r.bitmapBytes, 0, 8 * r.bitmapBytes⟩

theorem freePages_eq (hr : r.size < 2 ^ 32) :
    r.bitmapBytes <<< 3 % 2 ^ 32 = 8 * r.bitmapBytes := by
  unfold Region.bitmapBytes pageSize
  rw [Nat.shiftLeft_eq, Nat.mod_eq_of_lt (by omega)]
  omega

theorem Maps.setupBitmaps {fuel base : ℕ} (h : Maps mmap (pre ++ post))
    (bitmaps : ℕ → MmapBitmap)
    (hsize : ∀ r ∈ post, r.size < 2 ^ 32) (hfuel : post.length < fuel) (hbase : base < 2 ^ 32) :
    (∀ k r, post[k]? = some r → setupBitmaps mmap bitmaps fuel pre.length base (pre.length + k) =
      freshBitmap ((base + bitmapTotal (post.take k)) % 2 ^ 32) r) ∧
    ∀ j, pre.length + post.length ≤ j →
      setupBitmaps mmap bitmaps fuel pre.length base j = bitmaps j := by
  induction post generalizing bitmaps fuel base pre with
  | nil =>
      obtain ⟨fuel, rfl⟩ := Nat.exists_eq_succ_of_ne_zero (Nat.ne_zero_of_lt hfuel)
      rw [Memory.setupBitmaps, h.next_append]
      exact ⟨nofun, fun _ _ => rfl⟩
  | cons r post ih =>
      obtain ⟨fuel, rfl⟩ := Nat.exists_eq_succ_of_ne_zero (Nat.ne_zero_of_lt hfuel)
      rw [Memory.setupBitmaps, h.entry_middle]
      dsimp only
      rw [List.append_cons] at h
      have hlength : (pre ++ [r]).length = pre.length + 1 := by simp
      rw [show r.size / pageSize / 8 + 1 = r.bitmapBytes from rfl]
      obtain ⟨hset, hrest⟩ := ih h (Function.update bitmaps pre.length
          ⟨base, r.bitmapBytes, 0, r.bitmapBytes <<< 3 % 2 ^ 32⟩)
        (fun x hx => hsize x (List.mem_cons_of_mem r hx)) (Nat.lt_of_succ_lt_succ hfuel)
        (Nat.mod_lt (base + r.bitmapBytes) (by decide))
      rw [hlength] at hset hrest
      constructor
      · intro k x hx
        cases k with
        | zero =>
            obtain rfl := Option.some.inj hx
            rw [show pre.length + 0 = pre.length from rfl,
              setupBitmaps_of_lt (Nat.lt_add_one _), Function.update_self,
              freePages_eq (hsize r List.mem_cons_self), List.take_zero, bitmapTotal_nil,
              Nat.add_zero, Nat.mod_eq_of_lt hbase]
            rfl
        | succ k =>
            rw [show pre.length + (k + 1) = pre.length + 1 + k by omega, hset k x hx,
              List.take_succ_cons, bitmapTotal_cons, Nat.mod_add_mod, Nat.add_assoc]
      · intro j hj
        rw [List.length_cons] at hj
        rw [hrest j (by omega), Function.update_of_ne (by omega)]

theorem clearBitmaps_of_zero {fuel i a : ℕ} (ha : mem a = 0#8) :
    clearBitmaps mmap bitmaps mem fuel i a = 0#8 := by
  induction fuel generalizing mem i with
  | zero => exact ha
  | succ fuel ih =>
      rw [clearBitmaps]
      cases (mmap i).next with
      | none => exact ha
      | some _ =>
          apply ih
          unfold memset
          split
          next => rfl
          next => exact ha

theorem Maps.clearBitmaps {fuel k a : ℕ} (h : Maps mmap (pre ++ post))
    (hfuel : post.length < fuel) (hk : k < post.length)
    (hle : (bitmaps (pre.length + k)).base ≤ a)
    (hlt : a < (bitmaps (pre.length + k)).base + (bitmaps (pre.length + k)).size) :
    clearBitmaps mmap bitmaps mem fuel pre.length a = 0#8 := by
  induction post generalizing mem fuel pre k with
  | nil => cases hk
  | cons r post ih =>
      obtain ⟨fuel, rfl⟩ := Nat.exists_eq_succ_of_ne_zero (Nat.ne_zero_of_lt hfuel)
      rw [Memory.clearBitmaps, h.entry_middle]
      dsimp only
      cases k with
      | zero =>
          apply clearBitmaps_of_zero
          exact if_pos ⟨hle, hlt⟩
      | succ k =>
          rw [List.append_cons] at h
          have hlength : (pre ++ [r]).length = pre.length + 1 := by simp
          have hindex : pre.length + (k + 1) = (pre ++ [r]).length + k := by omega
          rw [hindex] at hle hlt
          rw [← hlength]
          exact ih h (Nat.lt_of_succ_lt_succ hfuel) (Nat.lt_of_succ_lt_succ hk) hle hlt

/-! ## What `mm_init` leaves -/

/-- The regions and their bitmaps, all of them clear. -/
structure Initial (mm : Memory) (boot : Boot) : Prop where
  ne_nil : boot.regions ≠ []
  maps : Maps mm.mmap boot.regions
  bitmap : ∀ i r, boot.regions[i]? = some r → mm.mmapBitmaps i = freshBitmap (boot.bitmapStart i) r
  rest : ∀ i, boot.regions.length ≤ i → mm.mmapBitmaps i = ⟨0, 0, 0, 0⟩
  clear : ∀ i r, boot.regions[i]? = some r → ∀ a, boot.bitmapStart i ≤ a →
    a < boot.bitmapStart i + r.bitmapBytes → mm.mem a = 0#8

theorem fits_of_entered (es : List BootEntry) (h : ∀ r ∈ l, r.Fits) :
    ∀ r ∈ Boot.entered l es, r.Fits := by
  induction es generalizing l with
  | nil => exact h
  | cons e es ih =>
      unfold Boot.entered
      split
      next =>
        dsimp only
        split
        next =>
          apply ih
          intro r hr
          rcases List.mem_append.mp hr with hr | hr
          · exact h r (List.mem_of_mem_filter hr)
          · rw [List.mem_singleton.mp hr]
            exact ⟨e.addrLow.isLt, e.lenLow.isLt⟩
        next => exact h
      next => exact ih h

theorem fits_of_unreserved (boot : Boot) : ∀ r ∈ boot.unreserved, r.Fits := by
  intro r hr
  obtain ⟨r', hr', rfl⟩ := List.mem_map.mp hr
  have hfits := fits_of_entered boot.entries (l := []) nofun r' (List.mem_of_mem_take hr')
  unfold Boot.withoutKernel
  split
  next => exact hfits.drop _
  next => exact hfits

theorem fits_of_carve {need : ℕ} (h : ∀ r ∈ l, r.Fits) : ∀ r ∈ Boot.carve need l, r.Fits := by
  induction l with
  | nil => nofun
  | cons r l ih =>
      have hl := fun x hx => h x (List.mem_cons_of_mem r hx)
      unfold Boot.carve
      split
      next =>
        intro x hx
        rcases List.mem_cons.mp hx with rfl | hx
        · exact (h r List.mem_cons_self).drop need
        · exact hl x hx
      next =>
        intro x hx
        rcases List.mem_cons.mp hx with rfl | hx
        · exact h x List.mem_cons_self
        · exact ih hl x hx

theorem fits_of_regions (boot : Boot) : ∀ r ∈ boot.regions, r.Fits :=
  fits_of_carve (fits_of_unreserved boot)

theorem reserveIn_mmapBitmaps (need i : ℕ) : (mm.reserveIn need i).mmapBitmaps =
    setupBitmaps (mm.reserveIn need i).mmap mm.mmapBitmaps maxMmapEntries 0 (mm.mmap i).base :=
  rfl

theorem reserveIn_mem (need i : ℕ) : (mm.reserveIn need i).mem =
    clearBitmaps (mm.reserveIn need i).mmap (mm.reserveIn need i).mmapBitmaps mm.mem
      maxMmapEntries 0 :=
  rfl

theorem Maps.reserveBitmaps (h : Maps mm.mmap boot.unreserved)
    (htotal : mm.totalMem = boot.totalMem) (hbitmaps : mm.mmapBitmaps = fun _ => ⟨0, 0, 0, 0⟩)
    (hrun : mm.reserveBitmaps = .ok mm') : mm'.Initial boot := by
  unfold Memory.reserveBitmaps at hrun
  dsimp only at hrun
  rw [htotal, show (boot.totalMem / (pageSize * 8 * pageSize) + 1) * pageSize = boot.reserved
    from rfl] at hrun
  split at hrun
  next => cases hrun
  next i hspace =>
    split at hrun
    next => cases hrun
    next =>
      obtain rfl := Except.ok.inj hrun
      obtain ⟨front, r, back, hl, hi, hneed, hfront⟩ := Maps.findSpace [] boot.unreserved h hspace
      rw [List.nil_append] at hi
      have hfits := fits_of_unreserved boot
      have hregions : boot.regions =
          front ++ ⟨(r.base + boot.reserved) % 2 ^ 32, r.size - boot.reserved⟩ :: back := by
        unfold Boot.regions
        rw [hl]
        exact carve_append hneed hfront
      have hbase : boot.bitmapBase = r.base := by
        unfold Boot.bitmapBase
        rw [hl, find?_append hneed hfront]
        rfl
      rw [hl] at h hfits
      have hentry : mm.mmap i = ⟨r.base, r.size, some (i + 1)⟩ := by
        rw [hi]
        exact h.entry_middle
      have hmaps : Maps (mm.reserveIn boot.reserved i).mmap ([] ++ boot.regions) := by
        rw [List.nil_append, hregions]
        unfold Memory.reserveIn
        dsimp only
        rw [hentry, hi]
        exact h.set ⟨(r.base + boot.reserved) % 2 ^ 32, r.size - boot.reserved⟩
      have hfuel : boot.regions.length < maxMmapEntries := hmaps.length_lt
      have hmapBase : (mm.mmap i).base = boot.bitmapBase := by rw [hentry, hbase]
      have hlt : boot.bitmapBase < 2 ^ 32 := by
        rw [hbase]
        exact (hfits r (by simp)).base
      obtain ⟨hset, hrest⟩ := hmaps.setupBitmaps mm.mmapBitmaps
        (fun r hr => (fits_of_regions boot r hr).size) hfuel hlt
      have hbitmap : ∀ k r, boot.regions[k]? = some r →
          (mm.reserveIn boot.reserved i).mmapBitmaps k = freshBitmap (boot.bitmapStart k) r := by
        intro k r hr
        have hk := hset k r hr
        rw [List.length_nil, Nat.zero_add] at hk
        rw [reserveIn_mmapBitmaps, hmapBase, hk]
        rfl
      refine ⟨by simp [hregions], hmaps, hbitmap, ?_, ?_⟩
      · intro k hk
        have hzero := hrest k (by rwa [List.length_nil, Nat.zero_add])
        rw [reserveIn_mmapBitmaps, hmapBase]
        rw [List.length_nil, hbitmaps] at hzero
        rw [hbitmaps]
        exact hzero
      · intro k r hr a hle hlt
        have hk := (List.getElem?_eq_some_iff.mp hr).1
        have hindex : ([] : List Region).length + k = k := Nat.zero_add k
        rw [reserveIn_mem]
        refine hmaps.clearBitmaps hfuel hk ?_ ?_
        all_goals
          rw [hindex, hbitmap k r hr]
          assumption

theorem initial_of_mmInit (h : mmInit boot mem = .ok mm) : mm.Initial boot := by
  unfold mmInit at h
  dsimp only at h
  split at h
  next => cases h
  next =>
    obtain ⟨mmap, hkernel, hreserve⟩ := bind_eq_ok.mp h
    obtain ⟨hentered, htotal, hbitmaps⟩ := (entered_bss mem).enterAll boot.entries
    have hmaps : Maps mmap boot.unreserved := Maps.takeKernel [] _ hentered.maps hkernel
    refine Maps.reserveBitmaps ?_ ?_ ?_ hreserve
    · exact hmaps
    · exact htotal
    · exact hbitmaps

end Memory

end Yak.PageFrames
