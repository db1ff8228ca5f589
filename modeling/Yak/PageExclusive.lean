import Yak.FrameQueue

/-!
# Exclusive use of page frames

The pages of the first region are handed out from 0 on, in order, up to the one
whose number is the size of the bitmap in bytes.  The next call hands out page 1 of
the region again.
-/

namespace Yak.PageFrames

open ByteBitmap

/-- The allocator, and the frames which are handed out and not released. -/
structure Session where
  mm : Memory
  live : List ℕ

inductive Op where
  | pageFrameAlloc
  | pageIncreaseCount (page : ℕ)
  | pageDecreaseCount (page : ℕ)
  | pageFrameFree (page : ℕ)
  deriving DecidableEq

namespace Session

def step (s : Session) : Op → Except Halt Session
  | .pageFrameAlloc => do
      let (ret, mm) ← s.mm.pageFrameAlloc
      .ok ⟨mm, if ret = noFreePage then s.live else ret :: s.live⟩
  | .pageIncreaseCount page => do
      let mm ← s.mm.pageIncreaseCount page
      .ok ⟨mm, s.live⟩
  | .pageDecreaseCount page => do
      let mm ← s.mm.pageDecreaseCount page
      .ok ⟨mm, s.live⟩
  | .pageFrameFree page => do
      let mm ← s.mm.pageFrameFree page
      .ok ⟨mm, if s.mm.Shared page then s.live else s.live.erase page⟩

/-- Only frames in use are freed. -/
def Admissible (s : Session) : List Op → Prop
  | [] => True
  | op :: ops =>
      (∀ page, op = .pageFrameFree page → page ∈ s.live) ∧
        match s.step op with
        | .ok s' => s'.Admissible ops
        | .error _ => True

/-- No call returns a frame which is in use. -/
def Exclusive (s : Session) : List Op → Prop
  | [] => True
  | op :: ops =>
      (op = .pageFrameAlloc → ∀ ret mm, s.mm.pageFrameAlloc = .ok (ret, mm) →
        ret ≠ noFreePage → ret ∉ s.live) ∧
        match s.step op with
        | .ok s' => s'.Exclusive ops
        | .error _ => True

end Session

namespace Memory

variable {mm mm' : Memory} {page : ℕ}

/-! ## What `mm_init` leaves -/

/-- After `a` allocations the first `a` pages of the first region are marked, up
to the one at which `scan_bitmap` gives up. -/
structure FirstRegion (mm : Memory) (a : ℕ) : Prop where
  next : (mm.mmap 0).next ≠ none
  small : (mm.mmapBitmaps 0).size * pageSize < 2 ^ 32
  pos : 1 ≤ (mm.mmapBitmaps 0).size
  le : a ≤ (mm.mmapBitmaps 0).size + 1
  freePages : (mm.mmapBitmaps 0).freePages = 8 * (mm.mmapBitmaps 0).size - a
  nextFree : (mm.mmapBitmaps 0).nextFree =
    if a ≤ (mm.mmapBitmaps 0).size then a else noFreePage
  bits : ∀ k ≤ (mm.mmapBitmaps 0).size,
    getBit mm.mem (8 * (mm.mmapBitmaps 0).base + k) = decide (k < a)

theorem firstRegion_of_mmInit {boot : Boot} {mem : Bytes} (h : mmInit boot mem = .ok mm) :
    mm.FirstRegion 0 := by
  have hinit := initial_of_mmInit h
  obtain ⟨r, l, hl⟩ := List.exists_cons_of_ne_nil hinit.ne_nil
  have hr : boot.regions[0]? = some r := by rw [hl, List.getElem?_cons_zero]
  have hfits := fits_of_regions boot r (List.mem_of_getElem? hr)
  have hdrawn := hinit.drawn
  have hbitmap := hdrawn.bitmap 0 r hr
  have hsize := hfits.size
  refine ⟨?_, ?_, ?_, Nat.zero_le _, ?_, ?_, ?_⟩
  · rw [hdrawn.maps.entry 0 r hr]
    nofun
  all_goals rw [hbitmap]
  · unfold Region.bitmapBytes pageSize
    dsimp only
    omega
  · exact r.bitmapBytes_pos
  · rfl
  · exact hdrawn.bits 0 r hr

/-! ## Calls which do not allocate -/

theorem FirstRegion.setCount {a : ℕ} (h : mm.FirstRegion a) (page : ℕ) (c : BitVec 8) :
    (mm.setCount page c).FirstRegion a :=
  ⟨h.next, h.small, h.pos, h.le, h.freePages, h.nextFree, h.bits⟩

/-! ## Allocation -/

/-- The address of a page of the first region. -/
def frame (mm : Memory) (k : ℕ) : ℕ := (k * pageSize + (mm.mmap 0).base) % 2 ^ 32

theorem FirstRegion.frame_inj {a j k : ℕ} (h : mm.FirstRegion a)
    (hj : j ≤ (mm.mmapBitmaps 0).size) (hk : k ≤ (mm.mmapBitmaps 0).size)
    (heq : mm.frame j = mm.frame k) : j = k := by
  have hsmall := h.small
  unfold frame pageSize at heq
  unfold pageSize at hsmall
  omega

theorem FirstRegion.findBitmap {a : ℕ} (h : mm.FirstRegion a) :
    mm.findBitmap maxMmapEntries 0 = 0 := by
  have hpos := h.pos
  have hle := h.le
  have hfree := h.freePages
  rw [maxMmapEntries, Memory.findBitmap, if_neg h.next, if_pos]
  omega

theorem FirstRegion.nextFreeAfter {a : ℕ} (h : mm.FirstRegion a)
    (ha : a ≤ (mm.mmapBitmaps 0).size) :
    nextFreeAfter (setBit mm.mem (8 * (mm.mmapBitmaps 0).base + (mm.mmapBitmaps 0).nextFree))
      (mm.mmapBitmaps 0) =
      .ok (if a + 1 ≤ (mm.mmapBitmaps 0).size then a + 1 else noFreePage) := by
  have hpos := h.pos
  have hfree := h.freePages
  have hnext := h.nextFree
  rw [if_pos ha] at hnext
  unfold Memory.nextFreeAfter
  rw [if_pos (by omega), hnext]
  obtain ⟨fuel, hfuel⟩ : ∃ fuel, 8 * (mm.mmapBitmaps 0).size - a = fuel + 2 :=
    ⟨8 * (mm.mmapBitmaps 0).size - a - 2, by omega⟩
  rw [hfuel, scanBitmap, getBit_setBit, decide_eq_true rfl, Bool.true_or, if_pos rfl]
  split
  next hsize => rw [if_neg (by omega)]
  next hsize =>
    have hclear := h.bits (a + 1) (by omega)
    rw [decide_eq_false (by omega)] at hclear
    have hne : ¬8 * (mm.mmapBitmaps 0).base + (a + 1) = 8 * (mm.mmapBitmaps 0).base + a := by omega
    rw [scanBitmap, getBit_setBit, hclear, decide_eq_false hne, Bool.or_false,
      if_neg Bool.false_ne_true, if_pos (by omega)]

/-- One allocation takes the next page of the first region. -/
theorem FirstRegion.pageFrameAlloc {a ret : ℕ} (h : mm.FirstRegion a)
    (ha : a ≤ (mm.mmapBitmaps 0).size) (hrun : mm.pageFrameAlloc = .ok (ret, mm')) :
    ret = mm.frame a ∧ mm'.FirstRegion (a + 1) ∧ mm'.mmap = mm.mmap ∧
      (mm'.mmapBitmaps 0).size = (mm.mmapBitmaps 0).size := by
  have hpos := h.pos
  have hfree := h.freePages
  have hnext := h.nextFree
  rw [if_pos ha] at hnext
  unfold Memory.pageFrameAlloc at hrun
  rw [h.findBitmap, if_neg (by omega)] at hrun
  unfold allocIn at hrun
  dsimp only at hrun
  rw [h.nextFreeAfter ha, ok_bind] at hrun
  split at hrun
  next => cases hrun
  next =>
    obtain ⟨rfl, rfl⟩ := Prod.mk.inj (Except.ok.inj hrun)
    refine ⟨by rw [hnext]; rfl, ⟨h.next, ?_, ?_, ?_, ?_, ?_, ?_⟩, rfl, ?_⟩
    all_goals simp only [Function.update_self]
    · exact h.small
    · exact h.pos
    · omega
    · omega
    · intro k hk
      rw [getBit_setBit, h.bits k hk, hnext]
      by_cases hka : k = a
      · simp [hka]
      · have hne : ¬8 * (mm.mmapBitmaps 0).base + k = 8 * (mm.mmapBitmaps 0).base + a := by omega
        rw [decide_eq_false hne, Bool.false_or]
        congr 1
        apply propext
        omega

/-- The frames up to the one at which `scan_bitmap` gives up have a reference
count. -/
def Counted (mm : Memory) : Prop :=
  (mm.mmap 0).base + ((mm.mmapBitmaps 0).size + 1) * pageSize ≤ nrReferenceCounts * pageSize

theorem Counted.frame_eq (h : mm.Counted) {k : ℕ} (hk : k ≤ (mm.mmapBitmaps 0).size) :
    mm.frame k = k * pageSize + (mm.mmap 0).base ∧ mm.frame k / pageSize < nrReferenceCounts := by
  unfold Counted nrReferenceCounts pageSize at h
  unfold frame nrReferenceCounts pageSize
  omega

theorem FirstRegion.alloc_ok {a : ℕ} (h : mm.FirstRegion a) (ha : a ≤ (mm.mmapBitmaps 0).size)
    (hcounted : mm.Counted) : ∃ mm', mm.pageFrameAlloc = .ok (mm.frame a, mm') := by
  have hpos := h.pos
  have hfree := h.freePages
  have hnext := h.nextFree
  rw [if_pos ha] at hnext
  have hlt := (hcounted.frame_eq ha).2
  unfold Memory.pageFrameAlloc
  rw [h.findBitmap, if_neg (by omega)]
  unfold allocIn
  dsimp only
  rw [h.nextFreeAfter ha, ok_bind, hnext, show (a * pageSize + (mm.mmap 0).base) % 2 ^ 32 =
    mm.frame a from rfl, if_neg (by omega)]
  exact ⟨_, rfl⟩

/-- With all pages up to that one in use, page 1 is handed out again. -/
theorem FirstRegion.alloc_again (h : mm.FirstRegion ((mm.mmapBitmaps 0).size + 1))
    (hcounted : mm.Counted) : ∃ mm', mm.pageFrameAlloc = .ok (mm.frame 1, mm') := by
  have hpos := h.pos
  have hfree := h.freePages
  have hnext := h.nextFree
  rw [if_neg (by omega)] at hnext
  have hlt := (hcounted.frame_eq hpos).2
  have hscan : Memory.nextFreeAfter
      (setBit mm.mem (8 * (mm.mmapBitmaps 0).base + (mm.mmapBitmaps 0).nextFree))
      (mm.mmapBitmaps 0) = .ok noFreePage := by
    unfold Memory.nextFreeAfter
    rw [if_pos (by omega), hnext]
    apply scanBitmap_of_set hpos
    · unfold noFreePage
      omega
    · intro j hj _
      rw [getBit_setBit, h.bits j hj, decide_eq_true (Nat.lt_succ_of_le hj), Bool.or_true]
  unfold Memory.pageFrameAlloc
  rw [h.findBitmap, if_neg (by omega)]
  unfold allocIn
  dsimp only
  rw [hscan, ok_bind, hnext, show (noFreePage * pageSize + (mm.mmap 0).base) % 2 ^ 32 =
    mm.frame 1 from rfl, if_neg (by omega)]
  exact ⟨_, rfl⟩

end Memory

namespace Session

open Memory

variable {s s' : Session} {a : ℕ}

/-- The frames in use are among the first `a` pages of the first region. -/
structure Fresh (s : Session) (a : ℕ) : Prop where
  region : s.mm.FirstRegion a
  live : ∀ page ∈ s.live, ∃ k < a, page = s.mm.frame k

theorem Fresh.not_mem (h : s.Fresh a) (ha : a ≤ (s.mm.mmapBitmaps 0).size) :
    s.mm.frame a ∉ s.live := by
  intro hmem
  obtain ⟨k, hk, heq⟩ := h.live _ hmem
  have hsame := h.region.frame_inj ha (by omega) heq
  omega

theorem Fresh.alloc (h : s.Fresh a) (ha : a ≤ (s.mm.mmapBitmaps 0).size)
    (hstep : s.step .pageFrameAlloc = .ok s') :
    s'.Fresh (a + 1) ∧ (s'.mm.mmapBitmaps 0).size = (s.mm.mmapBitmaps 0).size := by
  obtain ⟨⟨ret, mm⟩, halloc, hs'⟩ := bind_eq_ok.mp hstep
  obtain rfl := Except.ok.inj hs'
  obtain ⟨rfl, hregion, hmap, hsize⟩ := h.region.pageFrameAlloc ha halloc
  have hframe : ∀ k, mm.frame k = s.mm.frame k := by
    intro k
    unfold frame
    rw [hmap]
  refine ⟨⟨hregion, ?_⟩, hsize⟩
  intro page hpage
  have hcases : page = s.mm.frame a ∨ page ∈ s.live := by
    dsimp only at hpage
    split at hpage
    next => exact Or.inr hpage
    next => exact List.mem_cons.mp hpage
  rcases hcases with rfl | hpage
  · exact ⟨a, Nat.lt_succ_self a, (hframe a).symm⟩
  · obtain ⟨k, hk, heq⟩ := h.live page hpage
    exact ⟨k, by omega, heq.trans (hframe k).symm⟩

/-- The other calls change nothing but counts. -/
theorem Fresh.other (h : s.Fresh a) {op : Op} (hop : op ≠ .pageFrameAlloc)
    (hstep : s.step op = .ok s') :
    s'.Fresh a ∧ (s'.mm.mmapBitmaps 0).size = (s.mm.mmapBitmaps 0).size := by
  have hcount : ∃ page c, s'.mm = s.mm.setCount page c ∧ ∀ p ∈ s'.live, p ∈ s.live := by
    cases op with
    | pageFrameAlloc => exact (hop rfl).elim
    | pageIncreaseCount page =>
        obtain ⟨mm, hmm, hs'⟩ := bind_eq_ok.mp hstep
        obtain rfl := Except.ok.inj hs'
        obtain ⟨c, hc⟩ := pageIncreaseCount_eq hmm
        exact ⟨page, c, hc, fun _ hp => hp⟩
    | pageDecreaseCount page =>
        obtain ⟨mm, hmm, hs'⟩ := bind_eq_ok.mp hstep
        obtain rfl := Except.ok.inj hs'
        obtain ⟨c, hc⟩ := pageDecreaseCount_eq hmm
        exact ⟨page, c, hc, fun _ hp => hp⟩
    | pageFrameFree page =>
        obtain ⟨mm, hmm, hs'⟩ := bind_eq_ok.mp hstep
        obtain rfl := Except.ok.inj hs'
        obtain ⟨c, hc⟩ := pageFrameFree_eq hmm
        refine ⟨page, c, hc, ?_⟩
        intro p hp
        dsimp only at hp
        split at hp
        next => exact hp
        next => exact List.mem_of_mem_erase hp
  obtain ⟨page, c, hmm, hlive⟩ := hcount
  refine ⟨⟨?_, ?_⟩, ?_⟩
  · rw [hmm]
    exact h.region.setCount page c
  · intro p hp
    obtain ⟨k, hk, heq⟩ := h.live p (hlive p hp)
    refine ⟨k, hk, ?_⟩
    rw [hmm]
    exact heq
  · rw [hmm]
    rfl

theorem Fresh.exclusive (ops : List Op) (h : s.Fresh a)
    (hcount : a + ops.count .pageFrameAlloc ≤ (s.mm.mmapBitmaps 0).size + 1) :
    s.Exclusive ops := by
  induction ops generalizing s a with
  | nil => trivial
  | cons op ops ih =>
      by_cases hop : op = .pageFrameAlloc
      · subst hop
        rw [List.count_cons_self] at hcount
        have ha : a ≤ (s.mm.mmapBitmaps 0).size := by omega
        refine ⟨?_, ?_⟩
        · intro _ ret mm halloc _
          obtain ⟨rfl, _⟩ := h.region.pageFrameAlloc ha halloc
          exact h.not_mem ha
        · cases hstep : s.step .pageFrameAlloc with
          | error _ => trivial
          | ok s' =>
              obtain ⟨h', hsize⟩ := h.alloc ha hstep
              exact ih h' (by omega)
      · rw [List.count_cons_of_ne (fun heq => hop heq)] at hcount
        refine ⟨fun heq => (hop heq).elim, ?_⟩
        cases hstep : s.step op with
        | error _ => trivial
        | ok s' =>
            obtain ⟨h', hsize⟩ := h.other hop hstep
            exact ih h' (by omega)

/-! ## One allocation too many -/

/-- Page 1 of the first region is in use from its allocation on. -/
structure Held (s : Session) (a : ℕ) : Prop extends Fresh s a where
  counted : s.mm.Counted
  held : 2 ≤ a → s.mm.frame 1 ∈ s.live

theorem Held.alloc (h : s.Held a) (ha : a ≤ (s.mm.mmapBitmaps 0).size) :
    ∃ s', s.step .pageFrameAlloc = .ok s' ∧ s'.Held (a + 1) ∧
      (s'.mm.mmapBitmaps 0).size = (s.mm.mmapBitmaps 0).size := by
  obtain ⟨mm, halloc⟩ := h.region.alloc_ok ha h.counted
  obtain ⟨_, _, hmap, hsize⟩ := h.region.pageFrameAlloc ha halloc
  have hstep : s.step .pageFrameAlloc =
      .ok ⟨mm, if s.mm.frame a = noFreePage then s.live else s.mm.frame a :: s.live⟩ := by
    unfold step
    dsimp only
    rw [halloc, ok_bind]
  have hframe : mm.frame 1 = s.mm.frame 1 := by
    unfold frame
    rw [hmap]
  refine ⟨_, hstep, ⟨(h.toFresh.alloc ha hstep).1, ?_, ?_⟩, hsize⟩
  · have hcounted := h.counted
    unfold Counted at hcounted ⊢
    rw [hmap, hsize]
    exact hcounted
  · intro htwo
    show mm.frame 1 ∈ _
    rw [hframe]
    by_cases hone : a = 1
    · have heq := (h.counted.frame_eq ha).1
      rw [hone] at heq ⊢
      have hne : s.mm.frame 1 ≠ noFreePage := by
        unfold noFreePage pageSize at *
        omega
      rw [if_neg hne]
      exact List.mem_cons_self
    · have hmem := h.held (by omega)
      split
      next => exact hmem
      next => exact List.mem_cons_of_mem _ hmem

theorem Held.not_exclusive (n : ℕ) (h : s.Held a)
    (hn : (s.mm.mmapBitmaps 0).size + 1 < a + n) :
    ¬s.Exclusive (List.replicate n .pageFrameAlloc) := by
  induction n generalizing s a with
  | zero =>
      have hle := h.region.le
      omega
  | succ n ih =>
      rw [List.replicate_succ]
      rintro ⟨hfirst, hrest⟩
      by_cases ha : a ≤ (s.mm.mmapBitmaps 0).size
      · obtain ⟨s', hstep, h', hsize⟩ := h.alloc ha
        rw [hstep] at hrest
        exact ih h' (by omega) hrest
      · have hpos := h.region.pos
        have hlast : a = (s.mm.mmapBitmaps 0).size + 1 := by
          have hle := h.region.le
          omega
        have hregion := h.region
        rw [hlast] at hregion
        obtain ⟨mm, halloc⟩ := hregion.alloc_again h.counted
        have heq := (h.counted.frame_eq hpos).1
        have hne : s.mm.frame 1 ≠ noFreePage := by
          unfold noFreePage pageSize at *
          omega
        exact hfirst rfl _ mm halloc hne (h.held (by omega))

theorem admissible_replicate (n : ℕ) : s.Admissible (List.replicate n .pageFrameAlloc) := by
  induction n generalizing s with
  | zero => trivial
  | succ n ih =>
      refine ⟨nofun, ?_⟩
      cases s.step .pageFrameAlloc with
      | error _ => trivial
      | ok s' => exact ih

/-- Frames are exclusive in all runs with a number of allocations exactly when it
is at most the number of bytes in the bitmap of the first region, and one.  The
second part needs a reference count for each of these frames. -/
theorem exclusive_iff_few_allocs {boot : Boot} {mem : Bytes} {mm : Memory}
    (hboot : mmInit boot mem = .ok mm) (n : ℕ) :
    (n ≤ (mm.mmapBitmaps 0).size + 1 →
      ∀ ops, Admissible ⟨mm, []⟩ ops → ops.count .pageFrameAlloc = n → Exclusive ⟨mm, []⟩ ops) ∧
    (mm.Counted → (mm.mmapBitmaps 0).size + 1 < n →
      ∃ ops, Admissible ⟨mm, []⟩ ops ∧ ops.count .pageFrameAlloc = n ∧
        ¬Exclusive ⟨mm, []⟩ ops) := by
  have hregion := firstRegion_of_mmInit hboot
  constructor
  · intro hn ops _ hcount
    refine Fresh.exclusive ops (s := ⟨mm, []⟩) (a := 0) ⟨hregion, nofun⟩ ?_
    rw [Nat.zero_add, hcount]
    exact hn
  · intro hcounted hn
    refine ⟨List.replicate n .pageFrameAlloc, admissible_replicate n, List.count_replicate_self, ?_⟩
    refine Held.not_exclusive n (s := ⟨mm, []⟩) (a := 0) ⟨⟨hregion, nofun⟩, hcounted, nofun⟩ ?_
    rw [Nat.zero_add]
    exact hn

/-! ## A small machine -/

/-- Three pages at address 0, and four megabytes with the kernel in front. -/
def smallBoot : Boot where
  entries := [⟨1, 0, 0x3000⟩, ⟨2, 0x3000, 0x1000⟩, ⟨1, 0x100000, 0x400000⟩]
  kstartAddr := 0x100000
  kendAddr := 0x140000

def smallMemory : Memory :=
  match mmInit smallBoot fun _ => 0#8 with
  | .ok mm => mm
  | .error _ => bss fun _ => 0#8

theorem mmInit_smallBoot : mmInit smallBoot (fun _ => 0#8) = .ok smallMemory := rfl

theorem exclusive_iff_few_allocs_smallBoot :
    (∀ ops, Admissible ⟨smallMemory, []⟩ ops → ops.count .pageFrameAlloc = 2 →
      Exclusive ⟨smallMemory, []⟩ ops) ∧
    ∃ ops, Admissible ⟨smallMemory, []⟩ ops ∧ ops.count .pageFrameAlloc = 3 ∧
      ¬Exclusive ⟨smallMemory, []⟩ ops :=
  ⟨(exclusive_iff_few_allocs mmInit_smallBoot 2).1 (by decide +kernel),
    (exclusive_iff_few_allocs mmInit_smallBoot 3).2 (by unfold Counted; decide +kernel)
      (by decide +kernel)⟩

/-- The third allocation returns the frame of the second. -/
theorem not_exclusive_smallBoot :
    mmInit smallBoot (fun _ => 0#8) = .ok smallMemory ∧
      Admissible ⟨smallMemory, []⟩ (List.replicate 3 .pageFrameAlloc) ∧
      ¬Exclusive ⟨smallMemory, []⟩ (List.replicate 3 .pageFrameAlloc) := by
  refine ⟨rfl, admissible_replicate 3, ?_⟩
  have hheld : Held ⟨smallMemory, []⟩ 0 :=
    ⟨⟨firstRegion_of_mmInit mmInit_smallBoot, nofun⟩, by unfold Counted; decide +kernel, nofun⟩
  exact hheld.not_exclusive 3 (by decide +kernel)

end Session

end Yak.PageFrames
