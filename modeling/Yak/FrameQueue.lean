import Yak.MemoryMap

/-!
# The order in which page frames are handed out

`scan_bitmap` gives up when it meets a set bit whose number is the size of the
bitmap in bytes, and stores `NO_FREE_PAGE`, which is 1, in `next_free`.  From then
on page 1 of the region is handed out, until the count of free pages, which is the
number of bits in the bitmap, comes to zero.  `page_frame_free` decrements the count
of a page twice and never gives a page back.  So the frames which the allocator
hands out form a queue, whose content is fixed by `mm_init`.
-/

namespace Yak.PageFrames

open ByteBitmap

namespace Region

/-- The address of a page of the region. -/
def frame (r : Region) (k : ℕ) : ℕ := (k * pageSize + r.base) % 2 ^ 32

/-- The value of `next_free` after so many allocations. -/
def nextFree (r : Region) (k : ℕ) : ℕ := if k ≤ r.bitmapBytes then k else noFreePage

/-- The frames which are handed out, in order. -/
def frames (r : Region) : List ℕ :=
  (List.range (8 * r.bitmapBytes)).map fun k => r.frame (r.nextFree k)

variable (r : Region) {k : ℕ}

theorem bitmapBytes_pos : 1 ≤ r.bitmapBytes := Nat.le_add_left _ _

theorem nextFree_le (k : ℕ) : r.nextFree k ≤ r.bitmapBytes := by
  unfold nextFree
  split
  next hle => exact hle
  next => exact r.bitmapBytes_pos

theorem drop_frames (hk : k < 8 * r.bitmapBytes) :
    r.frames.drop k = r.frame (r.nextFree k) :: r.frames.drop (k + 1) := by
  have hlength : k < r.frames.length := by simpa [frames] using hk
  rw [List.drop_eq_getElem_cons hlength]
  simp [frames]

theorem drop_frames_eq_nil (hk : 8 * r.bitmapBytes ≤ k) : r.frames.drop k = [] := by
  simpa [frames] using hk

end Region

/-- The frame has a reference count. -/
def HasCount (f : ℕ) : Prop := f / pageSize < nrReferenceCounts

instance (f : ℕ) : Decidable (HasCount f) := inferInstanceAs (Decidable (_ < _))

/-- The frames of the regions from `i` on which are not handed out, after `t i`
allocations in each region `i`. -/
def pending (t : ℕ → ℕ) : ℕ → List Region → List ℕ
  | _, [] => []
  | i, r :: l => r.frames.drop (t i) ++ pending t (i + 1) l

theorem pending_zero (i : ℕ) (l : List Region) :
    pending (fun _ => 0) i l = l.flatMap Region.frames := by
  induction l generalizing i with
  | nil => rfl
  | cons r l ih => rw [pending, ih, List.flatMap_cons, List.drop_zero]

/-- The allocations in regions before these do not matter. -/
theorem pending_update {t : ℕ → ℕ} {i j n : ℕ} (l : List Region) (hj : j < i) :
    pending (Function.update t j n) i l = pending t i l := by
  induction l generalizing i with
  | nil => rfl
  | cons r l ih => rw [pending, pending, ih (by omega), Function.update_of_ne (by omega)]

namespace Memory

variable {mm mm' : Memory} {page : ℕ} {l pre post : List Region} {r : Region} {start t : ℕ → ℕ}
  {boot : Boot} {mem : Bytes}

/-! ## The state after some allocations -/

/-- Region `i` has its bitmap at `start i`, and `t i` allocations were made in it. -/
structure Drawn (mm : Memory) (l : List Region) (start t : ℕ → ℕ) : Prop where
  maps : Maps mm.mmap l
  le : ∀ i r, l[i]? = some r → t i ≤ 8 * r.bitmapBytes
  bitmap : ∀ i r, l[i]? = some r →
    mm.mmapBitmaps i = ⟨start i, r.bitmapBytes, r.nextFree (t i), 8 * r.bitmapBytes - t i⟩
  rest : ∀ i, l.length ≤ i → mm.mmapBitmaps i = ⟨0, 0, 0, 0⟩
  bits : ∀ i r, l[i]? = some r → ∀ k ≤ r.bitmapBytes,
    getBit mm.mem (8 * start i + k) = decide (k < t i)
  apart : ∀ i j r x, l[i]? = some r → l[j]? = some x → i ≠ j →
    start i + r.bitmapBytes ≤ start j ∨ start j + x.bitmapBytes ≤ start i

theorem Drawn.setCount (h : mm.Drawn l start t) (page : ℕ) (c : BitVec 8) :
    (mm.setCount page c).Drawn l start t :=
  ⟨h.maps, h.le, h.bitmap, h.rest, h.bits, h.apart⟩

/-! ## The search for a region -/

/-- The search ends behind the regions, or at the first one with pages left. -/
theorem Drawn.findBitmap {fuel : ℕ} (pre post : List Region) (h : mm.Drawn (pre ++ post) start t)
    (hfuel : post.length < fuel) :
    (mm.findBitmap fuel pre.length = (pre ++ post).length ∧ pending t pre.length post = []) ∨
    ∃ i r, (pre ++ post)[i]? = some r ∧ mm.findBitmap fuel pre.length = i ∧
      t i < 8 * r.bitmapBytes ∧ pre.length ≤ i ∧
      pending t pre.length post =
        r.frame (r.nextFree (t i)) :: pending (Function.update t i (t i + 1)) pre.length post := by
  induction post generalizing fuel pre with
  | nil =>
      obtain ⟨fuel, rfl⟩ := Nat.exists_eq_succ_of_ne_zero (Nat.ne_zero_of_lt hfuel)
      left
      rw [Memory.findBitmap, if_pos h.maps.next_append, List.append_nil]
      exact ⟨rfl, rfl⟩
  | cons r post ih =>
      obtain ⟨fuel, rfl⟩ := Nat.exists_eq_succ_of_ne_zero (Nat.ne_zero_of_lt hfuel)
      have hget : (pre ++ r :: post)[pre.length]? = some r := by simp
      have hnext : (mm.mmap pre.length).next ≠ none := by
        rw [h.maps.entry_middle]
        nofun
      rw [Memory.findBitmap, if_neg hnext, h.bitmap _ r hget]
      dsimp only
      by_cases hleft : t pre.length < 8 * r.bitmapBytes
      · right
        refine ⟨pre.length, r, hget, if_pos (by omega), hleft, le_rfl, ?_⟩
        rw [pending, pending, r.drop_frames hleft, Function.update_self,
          pending_update _ (Nat.lt_add_one _)]
        rfl
      · have hnil := r.drop_frames_eq_nil (Nat.le_of_not_lt hleft)
        rw [if_neg (by omega)]
        rw [List.append_cons] at h ⊢
        have hlength : (pre ++ [r]).length = pre.length + 1 := by simp
        have hih := ih (pre ++ [r]) h (Nat.lt_of_succ_lt_succ hfuel)
        rw [hlength] at hih
        rcases hih with ⟨hfind, hpending⟩ | ⟨i, x, hx, hfind, hlt, hle, hpending⟩
        · left
          rw [pending, hnil, hpending]
          exact ⟨hfind, rfl⟩
        · right
          refine ⟨i, x, hx, hfind, hlt, by omega, ?_⟩
          rw [pending, pending, hnil, Function.update_of_ne (by omega), hnil, hpending]
          rfl

theorem Drawn.findBitmap_zero (h : mm.Drawn l start t) :
    (mm.findBitmap maxMmapEntries 0 = l.length ∧ pending t 0 l = []) ∨
    ∃ i r, l[i]? = some r ∧ mm.findBitmap maxMmapEntries 0 = i ∧ t i < 8 * r.bitmapBytes ∧
      pending t 0 l =
        r.frame (r.nextFree (t i)) :: pending (Function.update t i (t i + 1)) 0 l := by
  rcases Drawn.findBitmap [] l h h.maps.length_lt with hnil | ⟨i, r, hr, hfind, hlt, _, hq⟩
  · exact Or.inl hnil
  · exact Or.inr ⟨i, r, hr, hfind, hlt, hq⟩

/-! ## The allocation in a region -/

theorem scanBitmap_of_set {base size fuel k : ℕ} (hk : k ≤ size) (hfuel : size - k < fuel)
    (hset : ∀ j ≤ size, k ≤ j → getBit mem (8 * base + j) = true) :
    scanBitmap mem base size fuel k = .ok noFreePage := by
  induction fuel generalizing k with
  | zero => omega
  | succ fuel ih =>
      rw [scanBitmap, if_pos (hset k hk le_rfl)]
      split
      next => rfl
      next hne => exact ih (by omega) (by omega) fun j hj hkj => hset j hj (by omega)

/-- The marked bits of a bitmap after one more allocation. -/
theorem Drawn.bits_setBit {i j k : ℕ} {x : Region} (h : mm.Drawn l start t) (hr : l[i]? = some r)
    (hx : l[j]? = some x) (hk : k ≤ x.bitmapBytes) :
    getBit (setBit mm.mem (8 * start i + r.nextFree (t i))) (8 * start j + k) =
      decide (k < Function.update t i (t i + 1) j) := by
  have hpos := r.bitmapBytes_pos
  have hle := r.nextFree_le (t i)
  rw [getBit_setBit, h.bits j x hx k hk]
  by_cases hji : j = i
  · subst hji
    obtain rfl := Option.some.inj (hr.symm.trans hx)
    rw [Function.update_self]
    unfold Region.nextFree noFreePage
    split
    next hcount =>
      rw [← Bool.decide_or]
      congr 1
      apply propext
      omega
    next hcount =>
      rw [decide_eq_true (show k < t j by omega), Bool.or_true,
        decide_eq_true (show k < t j + 1 by omega)]
  · rw [Function.update_of_ne hji]
    have hne : ¬8 * start j + k = 8 * start i + r.nextFree (t i) := by
      have hposx := x.bitmapBytes_pos
      have hapart := h.apart j i x r hx hr hji
      omega
    rw [decide_eq_false hne, Bool.false_or]

theorem Drawn.nextFreeAfter {i : ℕ} (h : mm.Drawn l start t) (hr : l[i]? = some r)
    (hlt : t i < 8 * r.bitmapBytes) :
    nextFreeAfter (setBit mm.mem (8 * start i + r.nextFree (t i))) (mm.mmapBitmaps i) =
      .ok (r.nextFree (t i + 1)) := by
  have hbits := fun k (hk : k ≤ r.bitmapBytes) => h.bits_setBit hr hr hk
  rw [Function.update_self] at hbits
  have hpos := r.bitmapBytes_pos
  rw [h.bitmap i r hr]
  unfold Memory.nextFreeAfter
  dsimp only
  by_cases hlast : 8 * r.bitmapBytes - t i - 1 = 0
  · rw [if_neg (by omega), Region.nextFree, if_neg (by omega)]
  · rw [if_pos hlast]
    by_cases hle : t i + 1 ≤ r.bitmapBytes
    · -- The next bit is clear, and the scan stops there.
      have hnow : r.nextFree (t i) = t i := if_pos (by omega)
      have hset := hbits (t i) (by omega)
      have hclear := hbits (t i + 1) hle
      rw [hnow] at hset hclear ⊢
      rw [decide_eq_true (Nat.lt_add_one _)] at hset
      rw [decide_eq_false (Nat.lt_irrefl _)] at hclear
      obtain ⟨fuel, hfuel⟩ : ∃ fuel, 8 * r.bitmapBytes - t i = fuel + 2 :=
        ⟨8 * r.bitmapBytes - t i - 2, by omega⟩
      rw [hfuel, scanBitmap, if_pos hset, if_neg (by omega), scanBitmap, hclear, if_neg nofun,
        Region.nextFree, if_pos hle]
    · -- All bits up to the size of the bitmap are set.
      rw [Region.nextFree, Region.nextFree, if_neg hle]
      apply scanBitmap_of_set
      · split
        next => assumption
        next => exact hpos
      · unfold noFreePage
        split
        all_goals omega
      · intro j hj _
        have hset := hbits j hj
        unfold Region.nextFree at hset
        rw [hset, decide_eq_true (by omega)]

theorem Drawn.allocIn {i : ℕ} (h : mm.Drawn l start t) (hr : l[i]? = some r)
    (hlt : t i < 8 * r.bitmapBytes) :
    (HasCount (r.frame (r.nextFree (t i))) →
      ∃ mm', mm.allocIn i = .ok (r.frame (r.nextFree (t i)), mm') ∧
        mm'.Drawn l start (Function.update t i (t i + 1))) ∧
    (¬HasCount (r.frame (r.nextFree (t i))) → mm.allocIn i = .error .outOfBounds) := by
  have hi := (List.getElem?_eq_some_iff.mp hr).1
  have hbits := fun j (x : Region) (hx : l[j]? = some x) k (hk : k ≤ x.bitmapBytes) =>
    h.bits_setBit hr hx hk
  have hscan := h.nextFreeAfter hr hlt
  rw [h.bitmap i r hr] at hscan
  unfold Memory.allocIn
  dsimp only
  rw [h.bitmap i r hr, h.maps.entry i r hr]
  dsimp only
  rw [hscan, ok_bind, show (r.nextFree (t i) * pageSize + r.base) % 2 ^ 32 =
    r.frame (r.nextFree (t i)) from rfl]
  constructor
  · intro hcounted
    refine ⟨_, if_neg (Nat.not_le_of_lt hcounted), h.maps, ?_, ?_, ?_, hbits, h.apart⟩
    · intro j x hx
      by_cases hji : j = i
      · subst hji
        obtain rfl := Option.some.inj (hr.symm.trans hx)
        rw [Function.update_self]
        exact hlt
      · rw [Function.update_of_ne hji]
        exact h.le j x hx
    · intro j x hx
      by_cases hji : j = i
      · subst hji
        obtain rfl := Option.some.inj (hr.symm.trans hx)
        dsimp only
        rw [Function.update_self, Function.update_self, Nat.sub_sub]
      · dsimp only
        rw [Function.update_of_ne hji, Function.update_of_ne hji]
        exact h.bitmap j x hx
    · intro j hj
      have hji : j ≠ i := by omega
      dsimp only
      rw [Function.update_of_ne hji]
      exact h.rest j hj
  · intro hcounted
    exact if_pos (Nat.le_of_not_lt hcounted)

/-- An allocation takes the first frame of the queue.  Without one it panics. -/
theorem Drawn.pageFrameAlloc (h : mm.Drawn l start t) :
    (pending t 0 l = [] ∧
      mm.pageFrameAlloc = .error (.panic "Memory map bitmaps corrupted")) ∨
    ∃ f t', pending t 0 l = f :: pending t' 0 l ∧
      (HasCount f → ∃ mm', mm.pageFrameAlloc = .ok (f, mm') ∧ mm'.Drawn l start t') ∧
      (¬HasCount f → mm.pageFrameAlloc = .error .outOfBounds) := by
  unfold Memory.pageFrameAlloc
  dsimp only
  rcases h.findBitmap_zero with ⟨hfind, hnil⟩ | ⟨i, r, hr, hfind, hlt, hq⟩
  · left
    rw [hfind, h.rest _ le_rfl]
    exact ⟨hnil, rfl⟩
  · right
    refine ⟨_, _, hq, ?_⟩
    rw [hfind, if_neg]
    · exact h.allocIn hr hlt
    · rw [h.bitmap i r hr]
      dsimp only
      omega

/-! ## Calls which do not allocate -/

/-- `page_frame_free` never comes to its end. -/
theorem not_giveBack (c : BitVec 8) (h : ¬(0#8).slt c = true) : c - 1#8 ≠ 0#8 := by
  intro hzero
  have hone : c = 1#8 := by
    rw [← BitVec.sub_add_cancel c 1#8, hzero]
    rfl
  exact h (by rw [hone]; decide)

theorem pageFrameFree_eq (h : mm.pageFrameFree page = .ok mm') :
    ∃ c, mm' = mm.setCount page c := by
  unfold pageFrameFree at h
  dsimp only at h
  split at h
  next => cases h
  next =>
    split at h
    next => exact ⟨_, (Except.ok.inj h).symm⟩
    next hslt =>
      split at h
      next => cases h
      next =>
        split at h
        next => exact ⟨_, (Except.ok.inj h).symm⟩
        next hzero => exact (hzero (not_giveBack _ hslt)).elim

theorem pageIncreaseCount_eq (h : mm.pageIncreaseCount page = .ok mm') :
    ∃ c, mm' = mm.setCount page c := by
  unfold pageIncreaseCount at h
  split at h
  next => cases h
  next => exact ⟨_, (Except.ok.inj h).symm⟩

theorem pageDecreaseCount_eq (h : mm.pageDecreaseCount page = .ok mm') :
    ∃ c, mm' = mm.setCount page c := by
  unfold pageDecreaseCount at h
  split at h
  next => cases h
  next => exact ⟨_, (Except.ok.inj h).symm⟩

/-! ## The queue -/

/-- The allocator hands out these frames, in this order. -/
def Serves (mm : Memory) (boot : Boot) (q : List ℕ) : Prop :=
  ∃ t, mm.Drawn boot.regions boot.bitmapStart t ∧ pending t 0 boot.regions = q

theorem bitmapTotal_le (h : ∀ r ∈ l, r.Fits) : bitmapTotal l ≤ 131073 * l.length := by
  induction l with
  | nil => exact Nat.zero_le _
  | cons r l ih =>
      have hl := ih fun x hx => h x (List.mem_cons_of_mem r hx)
      have hr := (h r List.mem_cons_self).size
      rw [bitmapTotal_cons, List.length_cons]
      unfold Region.bitmapBytes pageSize
      omega

theorem bitmapTotal_take {i j : ℕ} (hr : l[i]? = some r) (hij : i < j) :
    bitmapTotal (l.take i) + r.bitmapBytes ≤ bitmapTotal (l.take j) := by
  obtain ⟨hi, hget⟩ := List.getElem?_eq_some_iff.mp hr
  have hprefix : l.take i ++ [r] <+: l.take j := by
    rw [← hget, List.take_append_getElem]
    exact List.take_prefix_take_left (by omega)
  obtain ⟨rest, hrest⟩ := hprefix
  rw [← hrest]
  simp

theorem bitmapTotal_regions_lt (h : boot.regions.length < maxMmapEntries) :
    bitmapTotal boot.regions < 2 ^ 31 := by
  have hle := bitmapTotal_le (fits_of_regions boot)
  unfold maxMmapEntries at h
  omega

/-- The bitmaps have no byte in common. -/
theorem bitmapStart_apart (h : boot.regions.length < maxMmapEntries) {i j : ℕ} {x : Region}
    (hr : boot.regions[i]? = some r) (hx : boot.regions[j]? = some x) (hij : i < j) :
    boot.bitmapStart i + r.bitmapBytes ≤ boot.bitmapStart j ∨
      boot.bitmapStart j + x.bitmapBytes ≤ boot.bitmapStart i := by
  have htotal := bitmapTotal_regions_lt h
  have hi := bitmapTotal_take hr hij
  have hj := bitmapTotal_take hx (Nat.lt_add_one j)
  have hle : bitmapTotal (boot.regions.take (j + 1)) ≤ bitmapTotal boot.regions := by
    conv_rhs => rw [← List.take_append_drop (j + 1) boot.regions, bitmapTotal_append]
    exact Nat.le_add_right _ _
  unfold Boot.bitmapStart
  omega

theorem Initial.drawn (h : mm.Initial boot) :
    mm.Drawn boot.regions boot.bitmapStart fun _ => 0 where
  maps := h.maps
  le _ _ _ := Nat.zero_le _
  bitmap i r hr := by
    rw [h.bitmap i r hr, Region.nextFree, if_pos (Nat.zero_le _)]
    rfl
  rest := h.rest
  bits i r hr k hk := by
    have hpos := r.bitmapBytes_pos
    unfold getBit
    rw [h.clear i r hr _ (by omega) (by omega)]
    simp
  apart i j r x hr hx hij := by
    rcases Nat.lt_or_gt_of_ne hij with hlt | hlt
    · exact bitmapStart_apart h.maps.length_lt hr hx hlt
    · exact (bitmapStart_apart h.maps.length_lt hx hr hlt).symm

/-- The frames which are handed out from `mm_init` on. -/
theorem serves_of_mmInit (h : mmInit boot mem = .ok mm) :
    mm.Serves boot (boot.regions.flatMap Region.frames) :=
  ⟨_, (initial_of_mmInit h).drawn, pending_zero 0 _⟩

theorem Serves.setCount {q : List ℕ} (h : mm.Serves boot q) (page : ℕ) (c : BitVec 8) :
    (mm.setCount page c).Serves boot q := by
  obtain ⟨t, hdrawn, hq⟩ := h
  exact ⟨t, hdrawn.setCount page c, hq⟩

theorem Serves.alloc_nil (h : mm.Serves boot []) :
    mm.pageFrameAlloc = .error (.panic "Memory map bitmaps corrupted") := by
  obtain ⟨t, hdrawn, hq⟩ := h
  rcases hdrawn.pageFrameAlloc with ⟨_, herror⟩ | ⟨f, t', hcons, _⟩
  · exact herror
  · rw [hq] at hcons
    cases hcons

theorem Serves.alloc_cons {f : ℕ} {q : List ℕ} (h : mm.Serves boot (f :: q)) :
    (HasCount f → ∃ mm', mm.pageFrameAlloc = .ok (f, mm') ∧ mm'.Serves boot q) ∧
      (¬HasCount f → mm.pageFrameAlloc = .error .outOfBounds) := by
  obtain ⟨t, hdrawn, hq⟩ := h
  rcases hdrawn.pageFrameAlloc with ⟨hnil, _⟩ | ⟨f', t', hcons, hok, herror⟩
  · rw [hq] at hnil
    cases hnil
  · obtain ⟨rfl, hq'⟩ := List.cons.inj (hq.symm.trans hcons)
    refine ⟨fun hcount => ?_, herror⟩
    obtain ⟨mm', halloc, hdrawn'⟩ := hok hcount
    exact ⟨mm', halloc, t', hdrawn', hq'.symm⟩

/-- The states after a run of the calls of the allocator. -/
inductive Reachable (boot : Boot) (mem : Bytes) : Memory → Prop
  | mmInit {mm : Memory} : mmInit boot mem = .ok mm → Reachable boot mem mm
  | pageFrameAlloc {mm mm' : Memory} {ret : ℕ} : Reachable boot mem mm →
      mm.pageFrameAlloc = .ok (ret, mm') → Reachable boot mem mm'
  | pageFrameFree {mm mm' : Memory} {page : ℕ} : Reachable boot mem mm →
      mm.pageFrameFree page = .ok mm' → Reachable boot mem mm'
  | pageIncreaseCount {mm mm' : Memory} {page : ℕ} : Reachable boot mem mm →
      mm.pageIncreaseCount page = .ok mm' → Reachable boot mem mm'
  | pageDecreaseCount {mm mm' : Memory} {page : ℕ} : Reachable boot mem mm →
      mm.pageDecreaseCount page = .ok mm' → Reachable boot mem mm'

theorem Reachable.serves (h : Reachable boot mem mm) : ∃ q, mm.Serves boot q := by
  induction h with
  | mmInit hinit => exact ⟨_, serves_of_mmInit hinit⟩
  | pageFrameAlloc _ halloc ih =>
      obtain ⟨q, hq⟩ := ih
      cases q with
      | nil =>
          rw [hq.alloc_nil] at halloc
          cases halloc
      | cons f q =>
          by_cases hcount : HasCount f
          · obtain ⟨mm', hok, hserves⟩ := hq.alloc_cons.1 hcount
            obtain ⟨_, rfl⟩ := Prod.mk.inj (Except.ok.inj (hok.symm.trans halloc))
            exact ⟨q, hserves⟩
          · rw [hq.alloc_cons.2 hcount] at halloc
            cases halloc
  | pageFrameFree _ hfree ih =>
      obtain ⟨q, hq⟩ := ih
      obtain ⟨c, rfl⟩ := pageFrameFree_eq hfree
      exact ⟨q, hq.setCount _ c⟩
  | pageIncreaseCount _ hcount ih =>
      obtain ⟨q, hq⟩ := ih
      obtain ⟨c, rfl⟩ := pageIncreaseCount_eq hcount
      exact ⟨q, hq.setCount _ c⟩
  | pageDecreaseCount _ hcount ih =>
      obtain ⟨q, hq⟩ := ih
      obtain ⟨c, rfl⟩ := pageDecreaseCount_eq hcount
      exact ⟨q, hq.setCount _ c⟩

end Memory

end Yak.PageFrames
