import Mathlib.Data.List.TakeWhile
import Yak.PageExclusive

/-!
# Memory which is handed out, and memory which holds the bitmaps

Two properties of what `mm_init` sets up.  The bitmaps have no byte in common and a
bit for each page, but several small regions together can need more bytes than are
reserved.  Of each region as many pages are handed out as its bitmap has bytes, and
one more; whether these are usable depends on the memory map alone.
-/

namespace Yak.PageFrames

open ByteBitmap

/-- An entry of the memory map with all of its 64-bit address and length. -/
structure MultibootEntry extends BootEntry where
  addrHigh : BitVec 32
  lenHigh : BitVec 32

def MultibootEntry.addr (e : MultibootEntry) : ℕ := e.addrHigh.toNat * 2 ^ 32 + e.addrLow.toNat

def MultibootEntry.len (e : MultibootEntry) : ℕ := e.lenHigh.toNat * 2 ^ 32 + e.lenLow.toNat

namespace Memory

variable {mm mm' : Memory} {boot : Boot} {mem : Bytes} {l : List Region} {r : Region} {q : List ℕ}

/-! ## The space for the bitmaps -/

/-- The address of byte `x` of bitmap `i`. -/
def bitmapByte (mm : Memory) (i x : ℕ) : ℕ := ((mm.mmapBitmaps i).base + x) % 2 ^ 32

/-- The bitmaps have no byte in common and a bit for each page, and are inside the
reserved pages. -/
structure BitmapsFit (mm : Memory) (boot : Boot) : Prop where
  disjoint : ∀ i j x y, i ≠ j → x < (mm.mmapBitmaps i).size → y < (mm.mmapBitmaps j).size →
    mm.bitmapByte i x ≠ mm.bitmapByte j y
  pages : ∀ i, (mm.mmapBitmaps i).size ≠ 0 →
    (mm.mmap i).size / pageSize ≤ 8 * (mm.mmapBitmaps i).size
  inside : ∀ i x, x < (mm.mmapBitmaps i).size →
    ∃ y < boot.reserved, mm.bitmapByte i x = (boot.bitmapBase + y) % 2 ^ 32

/-- The bitmaps stand one behind the other. -/
theorem Initial.bitmapByte (h : mm.Initial boot) {i x : ℕ} (hx : x < (mm.mmapBitmaps i).size) :
    ∃ r, boot.regions[i]? = some r ∧ x < r.bitmapBytes ∧
      mm.bitmapByte i x = (boot.bitmapBase + (bitmapTotal (boot.regions.take i) + x)) % 2 ^ 32 := by
  cases hr : boot.regions[i]? with
  | none =>
      rw [h.rest i (List.getElem?_eq_none_iff.mp hr)] at hx
      cases hx
  | some r =>
      have hbitmap := h.bitmap i r hr
      unfold Memory.bitmapByte
      rw [hbitmap] at hx ⊢
      refine ⟨r, rfl, hx, ?_⟩
      unfold freshBitmap Boot.bitmapStart
      rw [Nat.mod_add_mod, Nat.add_assoc]

theorem bitmapTotal_take_le (l : List Region) (i : ℕ) :
    bitmapTotal (l.take i) ≤ bitmapTotal l := by
  conv_rhs => rw [← List.take_append_drop i l, bitmapTotal_append]
  exact Nat.le_add_right _ _

theorem offset_lt {i x : ℕ} (hr : l[i]? = some r) (hx : x < r.bitmapBytes) :
    bitmapTotal (l.take i) + x < bitmapTotal l := by
  have hnext := bitmapTotal_take hr (Nat.lt_add_one i)
  have hle := bitmapTotal_take_le l (i + 1)
  omega

theorem exists_offset {y : ℕ} (hy : y < bitmapTotal l) :
    ∃ i r x, l[i]? = some r ∧ x < r.bitmapBytes ∧ y = bitmapTotal (l.take i) + x := by
  induction l generalizing y with
  | nil => cases hy
  | cons r l ih =>
      rw [bitmapTotal_cons] at hy
      by_cases hlt : y < r.bitmapBytes
      · exact ⟨0, r, y, rfl, hlt, by simp⟩
      · obtain ⟨i, x, k, hx, hk, hi⟩ := ih (y := y - r.bitmapBytes) (by omega)
        refine ⟨i + 1, x, k, hx, hk, ?_⟩
        rw [List.take_succ_cons, bitmapTotal_cons]
        omega

theorem sizeSum_lt {sum : ℕ} (es : List BootEntry) (h : sum < 2 ^ 32) :
    Boot.sizeSum sum l es < 2 ^ 32 := by
  induction es generalizing sum l with
  | nil => exact h
  | cons e es ih =>
      unfold Boot.sizeSum
      split
      next =>
        dsimp only
        split
        next => exact ih (Nat.mod_lt _ (by decide))
        next => exact Nat.mod_lt _ (by decide)
      next => exact ih h

theorem reserved_lt (boot : Boot) : boot.reserved < 2 ^ 32 := by
  have hsum : boot.totalMem < 2 ^ 32 := sizeSum_lt boot.entries (by decide)
  unfold Boot.reserved pageSize
  omega

theorem Initial.disjoint (h : mm.Initial boot) {i j x y : ℕ} (hij : i < j)
    (hx : x < (mm.mmapBitmaps i).size) (hy : y < (mm.mmapBitmaps j).size) :
    mm.bitmapByte i x ≠ mm.bitmapByte j y := by
  obtain ⟨r, hr, hxr, hbytex⟩ := h.bitmapByte hx
  obtain ⟨z, hz, hyz, hbytey⟩ := h.bitmapByte hy
  have hlt := offset_lt hz hyz
  have htotal := bitmapTotal_regions_lt h.maps.length_lt
  have hnext := bitmapTotal_take hr hij
  omega

/-- The bitmaps fit exactly if the sum of their sizes is not more than what is
reserved for them. -/
theorem bitmapsFit_iff_le_reserved (h : mmInit boot mem = .ok mm) :
    mm.BitmapsFit boot ↔ bitmapTotal boot.regions ≤ boot.reserved := by
  have hinit := initial_of_mmInit h
  have htotal := bitmapTotal_regions_lt hinit.maps.length_lt
  have hreserved := reserved_lt boot
  constructor
  · intro hfit
    by_contra hgt
    obtain ⟨i, r, x, hr, hx, hi⟩ := exists_offset (Nat.lt_of_not_le hgt)
    have hsize : x < (mm.mmapBitmaps i).size := by rwa [hinit.bitmap i r hr]
    obtain ⟨y, hy, hbyte⟩ := hfit.inside i x hsize
    obtain ⟨_, _, _, hbyte'⟩ := hinit.bitmapByte hsize
    omega
  · intro hle
    refine ⟨?_, ?_, ?_⟩
    · intro i j x y hij hx hy
      rcases Nat.lt_or_gt_of_ne hij with hlt | hlt
      · exact hinit.disjoint hlt hx hy
      · exact (hinit.disjoint hlt hy hx).symm
    · intro i hne
      cases hr : boot.regions[i]? with
      | none =>
          rw [hinit.rest i (List.getElem?_eq_none_iff.mp hr)] at hne
          exact (hne rfl).elim
      | some r =>
          rw [hinit.bitmap i r hr, hinit.maps.entry i r hr]
          unfold freshBitmap Region.bitmapBytes
          dsimp only
          omega
    · intro i x hx
      obtain ⟨r, hr, hxr, hbyte⟩ := hinit.bitmapByte hx
      exact ⟨_, Nat.lt_of_lt_of_le (offset_lt hr hxr) hle, hbyte⟩

theorem bitmapsFit_iff_le_reserved_smallBoot : Session.smallMemory.BitmapsFit Session.smallBoot :=
  (bitmapsFit_iff_le_reserved Session.mmInit_smallBoot).mpr (by decide +kernel)

/-- Twelve single pages below one megabyte, and the kernel in the rest of 128
megabytes. -/
def crowdedBoot : Boot where
  entries := (List.range 12).map (fun i => ⟨1, BitVec.ofNat 32 (0x2000 * i), 0x1000⟩) ++
    [⟨1, 0x100000, 0x7FF3000⟩]
  kstartAddr := 0x100000
  kendAddr := 0x140000

def crowdedMemory : Memory :=
  match mmInit crowdedBoot fun _ => 0#8 with
  | .ok mm => mm
  | .error _ => bss fun _ => 0#8

/-- The last bitmap ends three bytes behind the page which is reserved. -/
theorem not_bitmapsFit_crowdedBoot :
    mmInit crowdedBoot (fun _ => 0#8) = .ok crowdedMemory ∧
      ¬crowdedMemory.BitmapsFit crowdedBoot := by
  refine ⟨rfl, fun hfit => ?_⟩
  obtain ⟨y, hy, hbyte⟩ := hfit.inside 12 4086 (by decide +kernel)
  have hlast : crowdedMemory.bitmapByte 12 4086 = 0x140000 + 4098 := by decide +kernel
  have hreserved : crowdedBoot.reserved = 4096 := by decide +kernel
  have hbase : crowdedBoot.bitmapBase = 0x140000 := by decide +kernel
  omega

/-! ## The frames which are handed out -/

/-- A run of `page_frame_alloc`, and what it returns. -/
def allocs : ℕ → Memory → Except Halt (List ℕ × Memory)
  | 0, mm => .ok ([], mm)
  | n + 1, mm => do
      let (f, mm) ← mm.pageFrameAlloc
      let (fs, mm) ← allocs n mm
      .ok (f :: fs, mm)

/-- The frame is available memory, and keeps off the kernel and the pages of the
bitmaps. -/
structure Usable (mm : Memory) (es : List MultibootEntry) (boot : Boot) (f : ℕ) : Prop where
  available : ∃ e ∈ es, e.type = multibootMemoryAvailable ∧ e.addr ≤ f ∧
    f + pageSize ≤ e.addr + e.len
  kernel : ∀ a, f ≤ a → a < f + pageSize → ¬(boot.kstartAddr ≤ a ∧ a < boot.kendAddr)
  bitmaps : ∀ a, f ≤ a → a < f + pageSize → ∀ i x, x < (mm.mmapBitmaps i).size →
    a / pageSize ≠ mm.bitmapByte i x / pageSize

/-- The first pages of the regions, one more of each region than its bitmap has bytes. -/
def firstPages (l : List Region) : List ℕ :=
  l.flatMap fun r => (List.range (r.bitmapBytes + 1)).map r.frame

/-- The other allocations in a region hand out page 1 of it. -/
theorem frames_eq (r : Region) : r.frames =
    (List.range (r.bitmapBytes + 1)).map r.frame ++
      List.replicate (7 * r.bitmapBytes - 1) (r.frame 1) := by
  have hpos := r.bitmapBytes_pos
  unfold Region.frames
  rw [show 8 * r.bitmapBytes = (r.bitmapBytes + 1) + (7 * r.bitmapBytes - 1) by omega,
    List.range_add, List.map_append]
  refine congrArg₂ (· ++ ·) ?_ ?_
  · apply List.map_congr_left
    intro k hk
    rw [List.mem_range] at hk
    rw [Region.nextFree, if_pos (by omega)]
  · rw [List.eq_replicate_iff]
    refine ⟨by simp, ?_⟩
    intro f hf
    obtain ⟨x, hx, rfl⟩ := List.mem_map.mp hf
    obtain ⟨k, _, rfl⟩ := List.mem_map.mp hx
    rw [Region.nextFree, if_neg (by omega)]
    rfl

/-- The other allocations in a region hand out nothing new. -/
theorem mem_takeWhile_frames (p : ℕ → Bool) {f : ℕ} (l : List Region) :
    f ∈ (l.flatMap Region.frames).takeWhile p ↔ f ∈ (firstPages l).takeWhile p := by
  unfold firstPages
  induction l with
  | nil => rw [List.flatMap_nil, List.flatMap_nil]
  | cons r l ih =>
      rw [List.flatMap_cons, List.flatMap_cons, frames_eq, List.append_assoc]
      have hmem : r.frame 1 ∈ (List.range (r.bitmapBytes + 1)).map r.frame := by
        have hpos := r.bitmapBytes_pos
        exact List.mem_map.mpr ⟨1, List.mem_range.mpr (by omega), rfl⟩
      generalize (List.range (r.bitmapBytes + 1)).map r.frame = pages at hmem ⊢
      by_cases hall : ∀ x ∈ pages, p x
      · have hreplicate : ∀ x ∈ List.replicate (7 * r.bitmapBytes - 1) (r.frame 1), p x := by
          intro x hx
          rw [List.eq_of_mem_replicate hx]
          exact hall _ hmem
        rw [List.takeWhile_append_of_pos hall, List.takeWhile_append_of_pos hall,
          List.takeWhile_append_of_pos hreplicate, List.mem_append, List.mem_append,
          List.mem_append, ih]
        constructor
        · rintro (hf | hf | hf)
          · exact Or.inl hf
          · rw [List.eq_of_mem_replicate hf]
            exact Or.inl hmem
          · exact Or.inr hf
        · rintro (hf | hf)
          · exact Or.inl hf
          · exact Or.inr (Or.inr hf)
      · have hstop : ∀ rest : List ℕ, (pages ++ rest).takeWhile p = pages.takeWhile p := by
          intro rest
          rw [List.takeWhile_append, if_neg]
          intro hlength
          apply hall
          rw [← List.takeWhile_eq_self_iff]
          exact (List.takeWhile_prefix p).eq_of_length hlength
        rw [hstop, hstop]

/-- The frames which are handed out, up to the first one without a reference count. -/
def servedFrames (boot : Boot) : List ℕ := (firstPages boot.regions).takeWhile fun f => HasCount f

theorem Serves.allocs (h : mm.Serves boot q) {n : ℕ} {fs : List ℕ}
    (hrun : mm.allocs n = .ok (fs, mm')) :
    ∀ f ∈ fs, f ∈ q.takeWhile fun f => HasCount f := by
  induction n generalizing mm q fs with
  | zero =>
      obtain ⟨rfl, _⟩ := Prod.mk.inj (Except.ok.inj hrun)
      nofun
  | succ n ih =>
      obtain ⟨⟨f, mm₁⟩, halloc, hrest⟩ := bind_eq_ok.mp hrun
      obtain ⟨⟨fs', mm₂⟩, hrun', hfs⟩ := bind_eq_ok.mp hrest
      obtain ⟨rfl, rfl⟩ := Prod.mk.inj (Except.ok.inj hfs)
      cases q with
      | nil =>
          rw [h.alloc_nil] at halloc
          cases halloc
      | cons f' q =>
          by_cases hcount : HasCount f'
          · obtain ⟨mm₁', halloc', hserves⟩ := h.alloc_cons.1 hcount
            obtain ⟨rfl, rfl⟩ := Prod.mk.inj (Except.ok.inj (halloc'.symm.trans halloc))
            rw [List.takeWhile_cons_of_pos (by simpa using hcount)]
            intro x hx
            rcases List.mem_cons.mp hx with rfl | hx
            · exact List.mem_cons_self
            · exact List.mem_cons_of_mem _ (ih hserves hrun' x hx)
          · rw [h.alloc_cons.2 hcount] at halloc
            cases halloc

theorem Serves.exists_allocs (h : mm.Serves boot q) {f : ℕ}
    (hf : f ∈ q.takeWhile fun f => HasCount f) :
    ∃ n fs mm', mm.allocs n = .ok (fs, mm') ∧ f ∈ fs := by
  induction q generalizing mm with
  | nil => cases hf
  | cons x q ih =>
      by_cases hcount : HasCount x
      · obtain ⟨mm₁, halloc, hserves⟩ := h.alloc_cons.1 hcount
        rw [List.takeWhile_cons_of_pos (by simpa using hcount)] at hf
        have hrun : ∀ n fs mm₂, mm₁.allocs n = .ok (fs, mm₂) →
            mm.allocs (n + 1) = .ok (x :: fs, mm₂) := by
          intro n fs mm₂ hrest
          rw [Memory.allocs, halloc, ok_bind]
          dsimp only
          rw [hrest, ok_bind]
        rcases List.mem_cons.mp hf with rfl | hf
        · exact ⟨1, [f], mm₁, hrun 0 [] mm₁ rfl, List.mem_cons_self⟩
        · obtain ⟨n, fs, mm₂, hrest, hmem⟩ := ih hserves hf
          exact ⟨n + 1, x :: fs, mm₂, hrun n fs mm₂ hrest, List.mem_cons_of_mem x hmem⟩
      · rw [List.takeWhile_cons_of_neg (by simpa using hcount)] at hf
        cases hf

/-- Only usable memory is handed out exactly if the first pages of each region are
usable, one more than its bitmap has bytes. -/
theorem allocs_usable_iff {es : List MultibootEntry} {kstart kend : ℕ}
    (h : mmInit ⟨es.map MultibootEntry.toBootEntry, kstart, kend⟩ mem = .ok mm) :
    (∀ n fs mm', mm.allocs n = .ok (fs, mm') → ∀ f ∈ fs, f ≠ noFreePage →
      mm.Usable es ⟨es.map MultibootEntry.toBootEntry, kstart, kend⟩ f) ↔
    ∀ f ∈ servedFrames ⟨es.map MultibootEntry.toBootEntry, kstart, kend⟩, f ≠ noFreePage →
      mm.Usable es ⟨es.map MultibootEntry.toBootEntry, kstart, kend⟩ f := by
  have hserves := serves_of_mmInit h
  constructor
  · intro hall f hf hne
    obtain ⟨n, fs, mm', hrun, hmem⟩ := hserves.exists_allocs ((mem_takeWhile_frames _ _).mpr hf)
    exact hall n fs mm' hrun f hmem hne
  · intro hserved n fs mm' hrun f hf hne
    exact hserved f ((mem_takeWhile_frames _ _).mp (hserves.allocs hrun f hf)) hne

/-- Two pages at address 0, of which the first one takes the bitmaps, and four
megabytes with the kernel in front. -/
def twoPages : List MultibootEntry :=
  [{ type := 1, addrLow := 0, lenLow := 0x2000, addrHigh := 0, lenHigh := 0 },
    { type := 1, addrLow := 0x100000, lenLow := 0x400000, addrHigh := 0, lenHigh := 0 }]

def twoPagesBoot : Boot := ⟨twoPages.map MultibootEntry.toBootEntry, 0x100000, 0x140000⟩

def twoPagesMemory : Memory :=
  match mmInit twoPagesBoot fun _ => 0#8 with
  | .ok mm => mm
  | .error _ => bss fun _ => 0#8

theorem mmInit_twoPages : mmInit twoPagesBoot (fun _ => 0#8) = .ok twoPagesMemory := rfl

theorem not_usable_twoPages : ¬twoPagesMemory.Usable twoPages twoPagesBoot 0x2000 := by
  intro husable
  obtain ⟨e, he, _, hle, hend⟩ := husable.available
  revert hle hend
  revert e
  decide

theorem allocs_usable_iff_twoPages :
    ¬∀ n fs mm', twoPagesMemory.allocs n = .ok (fs, mm') → ∀ f ∈ fs, f ≠ noFreePage →
      twoPagesMemory.Usable twoPages twoPagesBoot f := fun hall =>
  not_usable_twoPages
    ((allocs_usable_iff mmInit_twoPages).mp hall 0x2000 (by decide +kernel) (by decide))

/-- The second allocation returns the page behind the two. -/
theorem not_allocs_usable_twoPages :
    mmInit twoPagesBoot (fun _ => 0#8) = .ok twoPagesMemory ∧
      ∃ mm', twoPagesMemory.allocs 2 = .ok ([0x1000, 0x2000], mm') ∧
        ¬twoPagesMemory.Usable twoPages twoPagesBoot 0x2000 := by
  refine ⟨rfl, ?_⟩
  obtain ⟨⟨fs, mm'⟩, hrun, hfs⟩ := exists_of_map_decide (x := twoPagesMemory.allocs 2)
    (P := fun a => a.1 = [0x1000, 0x2000]) (by decide +kernel)
  obtain rfl : fs = [0x1000, 0x2000] := hfs
  exact ⟨mm', hrun, not_usable_twoPages⟩

end Memory

end Yak.PageFrames
