import Yak.PageExclusive

/-!
# Release and exhaustion of page frames

Two properties which callers of the allocator rely on: that `page_frame_free`
returns a frame, and that `page_frame_alloc` reports the lack of one.  Neither
holds in a state which is reached from `mm_init`, but for the states named below.
`page_frame_free` leaves the bitmaps as they are, and the entry behind the last
region has a `next_free` of 0, which `page_frame_alloc` takes for a corruption.
-/

namespace Yak.PageFrames

open ByteBitmap

namespace Memory

variable {mm mm' : Memory} {page f : ℕ} {boot : Boot} {mem : Bytes} {q q' : List ℕ}

/-- The frame at which the next allocation looks. -/
def nextFrame (mm : Memory) : ℕ :=
  let i := mm.findBitmap maxMmapEntries 0
  ((mm.mmapBitmaps i).nextFree * pageSize + (mm.mmap i).base) % 2 ^ 32

/-- Some region has a free page, and the next one in line is a frame with a
reference count whose address is not the error value. -/
structure CanAlloc (mm : Memory) : Prop where
  free : ∃ i, (mm.mmapBitmaps i).freePages ≠ 0
  hasCount : HasCount mm.nextFrame
  ne : mm.nextFrame ≠ noFreePage

/-! ## The queue and the counts of free pages -/

theorem pending_ne_nil {t : ℕ → ℕ} {i k : ℕ} {l : List Region} {r : Region}
    (hr : l[k]? = some r) (hlt : t (i + k) < 8 * r.bitmapBytes) : pending t i l ≠ [] := by
  induction l generalizing i k with
  | nil => cases hr
  | cons x l ih =>
      rw [pending]
      cases k with
      | zero =>
          obtain rfl := Option.some.inj hr
          rw [x.drop_frames (show t i < 8 * x.bitmapBytes from hlt)]
          exact List.cons_ne_nil _ _
      | succ k =>
          have hne := ih (i := i + 1) (k := k) hr (by rwa [Nat.add_right_comm, Nat.add_assoc])
          simp [hne]

theorem pending_congr {t t' : ℕ → ℕ} {i : ℕ} {l : List Region}
    (h : ∀ k r, l[k]? = some r → t (i + k) = t' (i + k)) : pending t i l = pending t' i l := by
  induction l generalizing i with
  | nil => rfl
  | cons x l ih =>
      have hhead := h 0 x rfl
      rw [pending, pending, show t i = t' i from hhead, ih]
      intro k r hr
      have hk := h (k + 1) r hr
      rwa [← Nat.add_assoc, Nat.add_right_comm] at hk

/-- The queue ends when there are no free pages any more. -/
theorem Serves.ne_nil_iff (h : mm.Serves boot q) :
    q ≠ [] ↔ ∃ i, (mm.mmapBitmaps i).freePages ≠ 0 := by
  obtain ⟨t, hdrawn, rfl⟩ := h
  constructor
  · intro hne
    rcases hdrawn.findBitmap_zero with ⟨_, hnil⟩ | ⟨i, r, hr, _, hlt, _⟩
    · exact (hne hnil).elim
    · refine ⟨i, ?_⟩
      rw [hdrawn.bitmap i r hr]
      exact Nat.sub_ne_zero_of_lt hlt
  · rintro ⟨i, hfree⟩
    cases hr : boot.regions[i]? with
    | none =>
        rw [hdrawn.rest i (List.getElem?_eq_none_iff.mp hr)] at hfree
        exact (hfree rfl).elim
    | some r =>
        rw [hdrawn.bitmap i r hr] at hfree
        apply pending_ne_nil hr
        rw [Nat.zero_add]
        exact Nat.lt_of_sub_ne_zero hfree

theorem Serves.nextFrame (h : mm.Serves boot (f :: q)) : mm.nextFrame = f := by
  obtain ⟨t, hdrawn, hq⟩ := h
  unfold Memory.nextFrame
  dsimp only
  rcases hdrawn.findBitmap_zero with ⟨_, hnil⟩ | ⟨i, r, hr, hfind, _, hcons⟩
  · rw [hq] at hnil
    cases hnil
  · rw [hq] at hcons
    rw [hfind, hdrawn.bitmap i r hr, hdrawn.maps.entry i r hr]
    exact (List.cons.inj hcons).1.symm

/-- The counts of free pages determine the queue. -/
theorem Serves.unique (h : mm.Serves boot q) (h' : mm'.Serves boot q')
    (hfree : ∀ i, (mm'.mmapBitmaps i).freePages = (mm.mmapBitmaps i).freePages) : q' = q := by
  obtain ⟨t, hdrawn, rfl⟩ := h
  obtain ⟨t', hdrawn', rfl⟩ := h'
  apply pending_congr
  intro k r hr
  rw [Nat.zero_add]
  have hk := hfree k
  rw [hdrawn.bitmap k r hr, hdrawn'.bitmap k r hr] at hk
  have hle := hdrawn.le k r hr
  have hle' := hdrawn'.le k r hr
  dsimp only at hk
  omega

theorem Serves.alloc_iff (h : mm.Serves boot q) :
    mm.CanAlloc ↔ ∃ f mm', mm.pageFrameAlloc = .ok (f, mm') ∧ f ≠ noFreePage := by
  constructor
  · rintro ⟨hfree, hcount, hne⟩
    obtain ⟨f, q, rfl⟩ := List.exists_cons_of_ne_nil (h.ne_nil_iff.mpr hfree)
    rw [h.nextFrame] at hcount hne
    obtain ⟨mm', halloc, _⟩ := h.alloc_cons.1 hcount
    exact ⟨f, mm', halloc, hne⟩
  · rintro ⟨f, mm', halloc, hne⟩
    cases q with
    | nil =>
        rw [h.alloc_nil] at halloc
        cases halloc
    | cons f' q =>
        by_cases hcount : HasCount f'
        · obtain ⟨mm₁, halloc', _⟩ := h.alloc_cons.1 hcount
          obtain ⟨rfl, _⟩ := Prod.mk.inj (Except.ok.inj (halloc.symm.trans halloc'))
          refine ⟨h.ne_nil_iff.mp nofun, ?_, ?_⟩
          · rwa [h.nextFrame]
          · rwa [h.nextFrame]
        · rw [h.alloc_cons.2 hcount] at halloc
          cases halloc

/-! ## Exhaustion -/

/-- Without a free page the error value is returned and nothing changes, and with
one a frame is returned. -/
structure Reported (mm : Memory) : Prop where
  none : (∀ i, (mm.mmapBitmaps i).freePages = 0) → mm.pageFrameAlloc = .ok (noFreePage, mm)
  some : (∃ i, (mm.mmapBitmaps i).freePages ≠ 0) →
    ∃ f mm', mm.pageFrameAlloc = .ok (f, mm') ∧ f ≠ noFreePage

/-- If all frames have a reference count then all of them can be handed out. -/
theorem Serves.exhaust (h : mm.Serves boot q) (hreach : Reachable boot mem mm)
    (hcount : ∀ f ∈ q, HasCount f) : ∃ mm', Reachable boot mem mm' ∧ mm'.Serves boot [] := by
  induction q generalizing mm with
  | nil => exact ⟨mm, hreach, h⟩
  | cons f q ih =>
      obtain ⟨mm', halloc, hserves⟩ := h.alloc_cons.1 (hcount f List.mem_cons_self)
      exact ih hserves (hreach.pageFrameAlloc halloc) fun f' hf' =>
        hcount f' (List.mem_cons_of_mem f hf')

/-- The lack of a frame is never reported. -/
theorem reported_iff_canAlloc (h : Reachable boot mem mm) : mm.Reported ↔ mm.CanAlloc := by
  obtain ⟨q, hq⟩ := h.serves
  constructor
  · rintro ⟨hnone, hsome⟩
    apply hq.alloc_iff.mpr
    by_cases hfree : ∃ i, (mm.mmapBitmaps i).freePages ≠ 0
    · exact hsome hfree
    · have hnil : q = [] := by
        by_contra hne
        exact hfree (hq.ne_nil_iff.mp hne)
      subst hnil
      have hok := hnone fun i => by_contra fun hne => hfree ⟨i, hne⟩
      rw [hq.alloc_nil] at hok
      cases hok
  · intro hcan
    refine ⟨?_, fun _ => hq.alloc_iff.mp hcan⟩
    intro hzero
    obtain ⟨i, hne⟩ := hcan.free
    exact (hne (hzero i)).elim

theorem canAlloc_smallMemory : Session.smallMemory.CanAlloc :=
  ⟨⟨0, by decide⟩, by decide, by decide⟩

theorem reported_smallMemory : Session.smallMemory.Reported :=
  (reported_iff_canAlloc (.mmInit Session.mmInit_smallBoot)).mpr canAlloc_smallMemory

/-- When the two regions of the small machine are used up, the next call panics. -/
theorem not_reported_smallBoot : ∃ mm, Reachable Session.smallBoot (fun _ => 0#8) mm ∧
    (∀ i, (mm.mmapBitmaps i).freePages = 0) ∧
    mm.pageFrameAlloc = .error (.panic "Memory map bitmaps corrupted") ∧ ¬mm.Reported := by
  have hreach : Reachable Session.smallBoot (fun _ => 0#8) Session.smallMemory :=
    .mmInit Session.mmInit_smallBoot
  obtain ⟨mm, hmm, hnil⟩ := (serves_of_mmInit Session.mmInit_smallBoot).exhaust hreach
    (by decide +kernel)
  have hzero : ∀ i, (mm.mmapBitmaps i).freePages = 0 := by
    intro i
    by_contra hne
    exact hnil.ne_nil_iff.mpr ⟨i, hne⟩ rfl
  refine ⟨mm, hmm, hzero, hnil.alloc_nil, ?_⟩
  intro hreported
  have hok := hreported.none hzero
  rw [hnil.alloc_nil] at hok
  cases hok

/-! ## Release -/

/-- The frame of a clear bit. -/
def Allocatable (mm : Memory) (page : ℕ) : Prop :=
  ∃ i k, k < 8 * (mm.mmapBitmaps i).size ∧
    getBit mm.mem (8 * (mm.mmapBitmaps i).base + k) = false ∧
    page = (k * pageSize + (mm.mmap i).base) % 2 ^ 32

/-- The frame of a set bit, and of no clear one. -/
def Taken (mm : Memory) (page : ℕ) : Prop :=
  (∃ i k, k < 8 * (mm.mmapBitmaps i).size ∧
    getBit mm.mem (8 * (mm.mmapBitmaps i).base + k) = true ∧
    page = (k * pageSize + (mm.mmap i).base) % 2 ^ 32) ∧ ¬mm.Allocatable page

/-- `page_get_count` -/
def pageGetCount (mm : Memory) (page : ℕ) : ℤ := (mm.referenceCounts (page / pageSize)).toInt

def freeTimes (page : ℕ) : ℕ → Memory → Except Halt Memory
  | 0, mm => .ok mm
  | k + 1, mm => do
      let mm ← mm.pageFrameFree page
      freeTimes page k mm

/-- A frame which is handed out next and freed is back as before, a shared one only
has a lower count, and it is back after as many frees as it has references. -/
structure Returned (mm : Memory) : Prop where
  restored : ∀ f mm₁, mm.pageFrameAlloc = .ok (f, mm₁) → f ≠ noFreePage →
    ∃ mm₂, mm₁.pageFrameFree f = .ok mm₂ ∧ mm₂.mem = mm.mem ∧
      (∀ i, (mm₂.mmapBitmaps i).freePages = (mm.mmapBitmaps i).freePages) ∧
      ∀ page, mm₂.Allocatable page ↔ mm.Allocatable page
  lowered : ∀ page, HasCount page → 1 < mm.pageGetCount page →
    mm.pageFrameFree page =
      .ok (mm.setCount page (mm.referenceCounts (page / pageSize) - 1#8))
  last : ∀ page (k : ℕ), HasCount page → mm.Taken page → mm.pageGetCount page = k → 0 < k →
    (∀ j < k, ∃ mm', freeTimes page j mm = .ok mm' ∧ ¬mm'.Allocatable page) ∧
      ∃ mm', freeTimes page k mm = .ok mm' ∧ mm'.Allocatable page

theorem slt_pred (c : BitVec 8) (h : 1 < c.toInt) : (0#8).slt (c - 1#8) = true := by
  decide +revert

theorem pageFrameFree_of_shared (hpage : HasCount page) (h : 1 < mm.pageGetCount page) :
    mm.pageFrameFree page =
      .ok (mm.setCount page (mm.referenceCounts (page / pageSize) - 1#8)) := by
  unfold pageFrameFree
  dsimp only
  rw [if_neg (Nat.not_le_of_lt hpage), if_pos (slt_pred _ h)]

theorem allocatable_setCount (p : ℕ) (c : BitVec 8) :
    (mm.setCount p c).Allocatable page ↔ mm.Allocatable page :=
  Iff.rfl

/-- Frees do not change which frames can be handed out. -/
theorem allocatable_of_freeTimes {k : ℕ} (h : freeTimes page k mm = .ok mm') :
    mm'.Allocatable page ↔ mm.Allocatable page := by
  induction k generalizing mm with
  | zero => rw [Except.ok.inj h]
  | succ k ih =>
      obtain ⟨mm₁, hfree, hrest⟩ := bind_eq_ok.mp h
      obtain ⟨c, rfl⟩ := pageFrameFree_eq hfree
      exact (ih hrest).trans (allocatable_setCount page c)

/-- A frame which is handed out does not come back. -/
theorem Serves.not_restored {mm₁ mm₂ : Memory} (h : mm.Serves boot q)
    (halloc : mm.pageFrameAlloc = .ok (f, mm₁)) (hfree : mm₁.pageFrameFree f = .ok mm₂) :
    ¬∀ i, (mm₂.mmapBitmaps i).freePages = (mm.mmapBitmaps i).freePages := by
  intro hsame
  obtain ⟨c, rfl⟩ := pageFrameFree_eq hfree
  cases q with
  | nil =>
      rw [h.alloc_nil] at halloc
      cases halloc
  | cons f' q =>
      by_cases hcount : HasCount f'
      · obtain ⟨mm₁', halloc', hserves⟩ := h.alloc_cons.1 hcount
        obtain ⟨_, rfl⟩ := Prod.mk.inj (Except.ok.inj (halloc.symm.trans halloc'))
        have heq := h.unique (hserves.setCount f c) hsame
        simp at heq
      · rw [h.alloc_cons.2 hcount] at halloc
        cases halloc

/-- Frames are returned only where none can be handed out and none is in use. -/
theorem returned_iff_nothing_to_free (h : Reachable boot mem mm) :
    mm.Returned ↔ ¬mm.CanAlloc ∧
      ∀ page, HasCount page → mm.Taken page → mm.pageGetCount page ≤ 0 := by
  obtain ⟨q, hq⟩ := h.serves
  constructor
  · rintro ⟨hrestored, _, hlast⟩
    constructor
    · intro hcan
      obtain ⟨f, mm₁, halloc, hne⟩ := hq.alloc_iff.mp hcan
      obtain ⟨mm₂, hfree, _, hsame, _⟩ := hrestored f mm₁ halloc hne
      exact hq.not_restored halloc hfree hsame
    · intro page hcount htaken
      by_contra hpos
      obtain ⟨k, hk⟩ := Int.eq_ofNat_of_zero_le (show 0 ≤ mm.pageGetCount page by omega)
      obtain ⟨_, mm', hfree, hback⟩ := hlast page k hcount htaken hk (by omega)
      exact htaken.2 ((allocatable_of_freeTimes hfree).mp hback)
  · rintro ⟨hnone, hunused⟩
    refine ⟨?_, fun page => pageFrameFree_of_shared, ?_⟩
    · intro f mm₁ halloc hne
      exact (hnone (hq.alloc_iff.mpr ⟨f, mm₁, halloc, hne⟩)).elim
    · intro page k hcount htaken hk hpos
      have hle := hunused page hcount htaken
      omega

theorem returned_iff_nothing_to_free_smallMemory : ¬Session.smallMemory.Returned := fun hreturned =>
  ((returned_iff_nothing_to_free (.mmInit Session.mmInit_smallBoot)).mp hreturned).1
    canAlloc_smallMemory

/-- The first frame of the small machine is handed out, and freed in vain. -/
theorem not_returned_smallBoot :
    mmInit Session.smallBoot (fun _ => 0#8) = .ok Session.smallMemory ∧
      ¬Session.smallMemory.Returned := by
  refine ⟨rfl, fun hreturned => ?_⟩
  have hserves := serves_of_mmInit Session.mmInit_smallBoot
  obtain ⟨f, mm₁, halloc, hne⟩ := hserves.alloc_iff.mp canAlloc_smallMemory
  obtain ⟨mm₂, hfree, _, hsame, _⟩ := hreturned.restored f mm₁ halloc hne
  exact hserves.not_restored halloc hfree hsame

end Memory

end Yak.PageFrames
