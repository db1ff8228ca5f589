import Yak.FaultHandler

/-!
# Pages of the kernel

A transcription of `kernel_virt_map_page`, which maps a frame behind the kernel.  The
first page table is `init_page_table`.  Further ones are reached through the page at
`VIRT_ADDR_TMP_PAGE`, but the address which is returned is the one that the same entry
of the first table would have.  Nor is the entry of that page kept free.
-/

namespace Yak.Paging

open PageFrames (noFreePage)

/-- `VIRT_ADDR_TMP_PAGE` -/
def virtAddrTmpPage : BitVec 32 := 0xC03FF000#32

/-- What `current_pg_table` points to. -/
inductive PgTable where
  | null
  | initPageTable
  | tmpPage
  deriving DecidableEq

/-- Physical memory, and the frames of `init_page_directory` and `init_page_table`. -/
structure KernelMap where
  mem : Frame → Page
  dirFrame : Frame
  tableFrame : Frame
  currentPgTable : PgTable

namespace KernelMap

/-- The entry of the temporary page in `init_page_table`. -/
def tmpIndex : Index := pgTabIndex virtAddrTmpPage

def set (k : KernelMap) (f : Frame) (i : Index) (e : BitVec 32) : KernelMap :=
  { k with mem := Function.update k.mem f (Function.update (k.mem f) i e) }

/-- `tmp_map_page` -/
def tmpMapPage (k : KernelMap) (page : BitVec 32) : KernelMap :=
  k.set k.tableFrame tmpIndex (page ||| pagePresent ||| pageWritable)

/-- The frame of the table which `current_pg_table` points to. -/
def currentFrame (k : KernelMap) : Frame :=
  match k.currentPgTable with
  | .tmpPage => frameNo (k.mem k.tableFrame tmpIndex)
  | _ => k.tableFrame

/-- The first entry among these which is not present. -/
def firstFree (page : Page) (l : List Index) : Option Index :=
  l.find? fun i => ¬Has (page i) pagePresent

/-- The slots of the page directory from the first one of the kernel on, but for the last. -/
def kernelSlots : List Index := ((List.finRange 1024).drop 768).take 255

/-- The address which is returned for an entry of a table. -/
def entryAddr (i : Index) : BitVec 32 := kernelVirtBase ||| BitVec.ofNat 32 i <<< 12

/-- The part of `kernel_virt_map_page` for a table which is full. -/
def newTable (alloc : KernelMap → BitVec 32) (k : KernelMap) (page : BitVec 32) :
    Except Halt (BitVec 32 × KernelMap) :=
  let p := alloc k
  if p = BitVec.ofNat 32 noFreePage then .error (.panic "Out of physical memory")
  else
    let k := k.tmpMapPage p
    match firstFree (k.mem k.dirFrame) kernelSlots with
    | none => .error (.panic "Out of space in kernel page directory")
    | some j =>
        let k := k.set k.dirFrame j (p ||| pagePresent ||| pageWritable)
        let k := { k with currentPgTable := .tmpPage }
        .ok (entryAddr 0, k.set k.currentFrame 0 (page ||| pageWritable ||| pagePresent))

/-- The first lines of `kernel_virt_map_page`. -/
def started (k : KernelMap) : KernelMap :=
  if k.currentPgTable = .null then { k with currentPgTable := .initPageTable } else k

/-- `kernel_virt_map_page` -/
def kernelVirtMapPage (alloc : KernelMap → BitVec 32) (k : KernelMap) (page : BitVec 32) :
    Except Halt (BitVec 32 × KernelMap) :=
  let k := k.started
  match firstFree (k.mem k.currentFrame) (List.finRange 1024) with
  | none => newTable alloc k page
  | some i => .ok (entryAddr i, k.set k.currentFrame i (page ||| pageWritable ||| pagePresent))

/-! ## Successive calls -/

/-- The entry of an address in `init_page_directory`. -/
def walk (k : KernelMap) (va : BitVec 32) : Option (BitVec 32) :=
  let e := k.mem k.dirFrame (pgDirIndex va)
  if Has e pagePresent then some (k.mem (frameNo e) (pgTabIndex va)) else none

/-- The address is mapped to this frame, for writing. -/
def MapsTo (k : KernelMap) (va : BitVec 32) (f : Frame) : Prop :=
  ∃ e, k.walk va = some e ∧ Has e pagePresent ∧ Has e pageWritable ∧ frameNo e = f

/-- Each call for these frames returns an address which is not one of the earlier ones,
nor the one of the temporary page, and which is mapped to the frame. -/
def MapsAll (alloc : KernelMap → BitVec 32) (k : KernelMap) (earlier : List (BitVec 32)) :
    List Frame → Prop
  | [] => True
  | f :: fs => ∃ va k', kernelVirtMapPage alloc k (f.setWidth 32 <<< 12) = .ok (va, k') ∧
      va ∉ earlier ∧ va ≠ virtAddrTmpPage ∧ k'.MapsTo va f ∧ MapsAll alloc k' (va :: earlier) fs

/-- The state which the bootstrap code leaves: the directory has `init_page_table` in the
slot of the kernel, and no call was made. -/
structure Booted (k : KernelMap) : Prop where
  current : k.currentPgTable ≠ .tmpPage
  ne : k.dirFrame ≠ k.tableFrame
  present : Has (k.mem k.dirFrame 768) pagePresent
  table : frameNo (k.mem k.dirFrame 768) = k.tableFrame

/-- The entries of `init_page_table` which are not used, but for the one of the temporary
page. -/
def freeEntries (k : KernelMap) : Finset Index :=
  {i | i ≠ tmpIndex ∧ ¬Has (k.mem k.tableFrame i) pagePresent}

variable {k k' : KernelMap} {alloc : KernelMap → BitVec 32} {f g : Frame} {i j : Index}
  {page va e : BitVec 32} {earlier : List (BitVec 32)}

theorem index_entryAddr (i : Index) : pgDirIndex (entryAddr i) = 768 ∧ pgTabIndex (entryAddr i) = i := by
  decide +kernel +revert

theorem entryAddr_inj (h : entryAddr i = entryAddr j) : i = j := by
  rw [← (index_entryAddr i).2, h, (index_entryAddr j).2]

theorem entryAddr_tmpIndex : entryAddr tmpIndex = virtAddrTmpPage := by decide

theorem has_entry (page : BitVec 32) : Has (page ||| pageWritable ||| pagePresent) pagePresent ∧
    Has (page ||| pageWritable ||| pagePresent) pageWritable :=
  ⟨has_or_right (by decide), has_or_left (has_or_right (by decide))⟩

theorem frameNo_mapped (f : Frame) :
    frameNo (f.setWidth 32 <<< 12 ||| pageWritable ||| pagePresent) = f := by
  rw [frameNo_or (by decide), frameNo_or (by decide), frameNo_shiftLeft]

theorem set_mem_self : (k.set f i e).mem f = Function.update (k.mem f) i e :=
  Function.update_self _ _ _

theorem set_mem_of_ne (h : g ≠ f) : (k.set f i e).mem g = k.mem g := Function.update_of_ne h _ _

theorem set_mem_of_index_ne (h : j ≠ i) : (k.set f i e).mem g j = k.mem g j := by
  by_cases hgf : g = f
  · rw [hgf, set_mem_self, Function.update_of_ne h]
  · rw [set_mem_of_ne hgf]

@[simp] theorem set_dirFrame : (k.set f i e).dirFrame = k.dirFrame := rfl

@[simp] theorem set_tableFrame : (k.set f i e).tableFrame = k.tableFrame := rfl

@[simp] theorem started_mem : k.started.mem = k.mem := by
  unfold started
  split <;> rfl

@[simp] theorem started_dirFrame : k.started.dirFrame = k.dirFrame := by
  unfold started
  split <;> rfl

@[simp] theorem started_tableFrame : k.started.tableFrame = k.tableFrame := by
  unfold started
  split <;> rfl

theorem Booted.started (h : k.Booted) : k.started.Booted where
  current := by
    unfold KernelMap.started
    split
    next => nofun
    next => exact h.current
  ne := by simpa using h.ne
  present := by simpa using h.present
  table := by simpa using h.table

theorem Booted.currentFrame (h : k.Booted) : k.currentFrame = k.tableFrame := by
  have hcurrent := h.current
  unfold KernelMap.currentFrame
  split
  next heq => exact (hcurrent heq).elim
  next => rfl

theorem Booted.set (h : k.Booted) (i : Index) (e : BitVec 32) :
    (k.set k.tableFrame i e).Booted where
  current := h.current
  ne := h.ne
  present := by
    rw [set_dirFrame, set_mem_of_ne h.ne]
    exact h.present
  table := by
    rw [set_dirFrame, set_mem_of_ne h.ne]
    exact h.table

/-- As long as the first table is in use, its entries are mapped where they belong. -/
theorem Booted.walk (h : k.Booted) (i : Index) :
    k.walk (entryAddr i) = some (k.mem k.tableFrame i) := by
  unfold KernelMap.walk
  dsimp only
  rw [(index_entryAddr i).1, (index_entryAddr i).2, if_pos h.present, h.table]

/-! ## A call -/

theorem firstFree_eq_some {p : Page} {l : List Index} (h : firstFree p l = some i) :
    ¬Has (p i) pagePresent := by
  simpa using List.find?_some h

theorem exists_firstFree {p : Page} (hi : ¬Has (p i) pagePresent) :
    ∃ j, firstFree p (List.finRange 1024) = some j ∧ j ≤ i := by
  unfold firstFree
  cases hfind : (List.finRange 1024).find? fun i => ¬Has (p i) pagePresent with
  | none =>
      have hnone := List.find?_eq_none.mp hfind i (List.mem_finRange i)
      exact (hnone (by simpa using hi)).elim
  | some j =>
      refine ⟨j, rfl, ?_⟩
      obtain ⟨_, front, back, hsplit, hfront⟩ := List.find?_eq_some_iff_append.mp hfind
      have hsorted := List.pairwise_lt_finRange 1024
      have hmem := List.mem_finRange i
      rw [hsplit] at hsorted hmem
      rcases List.mem_append.mp hmem with hmem | hmem
      · have hused := hfront i hmem
        simp [hi] at hused
      · rcases List.mem_cons.mp hmem with rfl | hmem
        · exact le_rfl
        · exact ((List.pairwise_cons.mp (List.pairwise_append.mp hsorted).2.1).1 i hmem).le

theorem mem_freeEntries : i ∈ k.freeEntries ↔
    i ≠ tmpIndex ∧ ¬Has (k.mem k.tableFrame i) pagePresent := by
  simp [freeEntries]

theorem freeEntries_set (h : Has e pagePresent) :
    (k.set k.tableFrame i e).freeEntries = k.freeEntries.erase i := by
  ext j
  rw [mem_freeEntries, Finset.mem_erase, mem_freeEntries, set_tableFrame, set_mem_self]
  by_cases hji : j = i
  · rw [hji, Function.update_self]
    simp [h]
  · rw [Function.update_of_ne hji]
    simp [hji]

/-- With an entry of the first table left, the call takes one of them. -/
theorem Booted.call (h : k.Booted) (alloc : KernelMap → BitVec 32)
    (hfree : k.freeEntries.Nonempty) (f : Frame) :
    ∃ i ∈ k.freeEntries, ∃ k', kernelVirtMapPage alloc k (f.setWidth 32 <<< 12) =
        .ok (entryAddr i, k') ∧ k'.Booted ∧ k'.tableFrame = k.tableFrame ∧
      k'.freeEntries = k.freeEntries.erase i ∧ k'.MapsTo (entryAddr i) f ∧
      ∀ j ≠ i, k'.mem k.tableFrame j = k.mem k.tableFrame j := by
  obtain ⟨i₀, hi₀⟩ := hfree
  obtain ⟨hne, hunused⟩ := mem_freeEntries.mp hi₀
  obtain ⟨i, hfirst, hle⟩ := exists_firstFree hunused
  have htmp : tmpIndex = 1023 := by decide
  have hi : i ∈ k.freeEntries := by
    refine mem_freeEntries.mpr ⟨?_, firstFree_eq_some hfirst⟩
    rw [htmp] at hne ⊢
    intro heq
    rw [heq] at hle
    exact hne (le_antisymm (Fin.le_last i₀) hle)
  have hstarted := h.started
  have hset := hstarted.set i (f.setWidth 32 <<< 12 ||| pageWritable ||| pagePresent)
  have hentry := has_entry (f.setWidth 32 <<< 12)
  refine ⟨i, hi, _, ?_, hset, ?_, ?_, ?_, ?_⟩
  · unfold kernelVirtMapPage
    dsimp only
    rw [hstarted.currentFrame, started_mem, started_tableFrame, hfirst]
  · rw [set_tableFrame, started_tableFrame]
  · rw [freeEntries_set hentry.1]
    unfold freeEntries
    rw [started_mem, started_tableFrame]
  · refine ⟨_, hset.walk i, ?_⟩
    rw [set_tableFrame, set_mem_self, Function.update_self, frameNo_mapped]
    exact ⟨hentry.1, hentry.2, rfl⟩
  · intro j hj
    rw [started_tableFrame, set_mem_self, Function.update_of_ne hj, started_mem]

/-- The address of an entry of the first table in use. -/
def UsedAddr (k : KernelMap) (va : BitVec 32) : Prop :=
  ∃ i, va = entryAddr i ∧ i ∉ k.freeEntries

theorem Booted.mapsAll (h : k.Booted) (fs : List Frame) (hearlier : ∀ va ∈ earlier, k.UsedAddr va)
    (hlen : fs.length ≤ k.freeEntries.card) : MapsAll alloc k earlier fs := by
  induction fs generalizing k earlier with
  | nil => trivial
  | cons f fs ih =>
      rw [List.length_cons] at hlen
      obtain ⟨i, hi, k', hcall, hbooted, _, hfree, hmaps, _⟩ :=
        h.call alloc (Finset.card_pos.mp (by omega)) f
      have hcard := Finset.card_erase_add_one hi
      refine ⟨entryAddr i, k', hcall, ?_, ?_, hmaps, ih hbooted ?_ (by rw [hfree]; omega)⟩
      · intro hmem
        obtain ⟨j, heq, hj⟩ := hearlier _ hmem
        rw [entryAddr_inj heq] at hi
        exact hj hi
      · rw [← entryAddr_tmpIndex]
        exact fun heq => (mem_freeEntries.mp hi).1 (entryAddr_inj heq)
      · intro va hva
        rcases List.mem_cons.mp hva with rfl | hva
        · exact ⟨i, rfl, by rw [hfree]; exact Finset.notMem_erase i _⟩
        · obtain ⟨j, rfl, hj⟩ := hearlier va hva
          exact ⟨j, rfl, by rw [hfree]; exact fun hmem => hj (Finset.mem_of_mem_erase hmem)⟩

/-- The first entry of the first table is not mapped to the frame, or was returned
earlier. -/
def FirstTaken (k : KernelMap) (earlier : List (BitVec 32)) (g : Frame) : Prop :=
  Has (k.mem k.tableFrame 0) pagePresent →
    frameNo (k.mem k.tableFrame 0) ≠ g ∨ entryAddr 0 ∈ earlier

/-- A call which starts a new table returns the address of the first entry of the first
table, and leaves that entry as it is. -/
theorem Booted.newTable (h : k.Booted) (halloc : frameNo (alloc k) ≠ k.tableFrame)
    (hcall : newTable alloc k page = .ok (va, k')) :
    va = entryAddr 0 ∧ k'.walk (entryAddr 0) = some (k.mem k.tableFrame 0) := by
  unfold KernelMap.newTable at hcall
  dsimp only at hcall
  split at hcall
  next => cases hcall
  next =>
    split at hcall
    next => cases hcall
    next j hfirst =>
      obtain ⟨rfl, rfl⟩ := Prod.mk.inj (Except.ok.inj hcall)
      refine ⟨rfl, ?_⟩
      have htmp : (k.tmpMapPage (alloc k)).mem k.dirFrame = k.mem k.dirFrame := set_mem_of_ne h.ne
      have hslot : (768 : Index) ≠ j := by
        rintro rfl
        rw [show (k.tmpMapPage (alloc k)).dirFrame = k.dirFrame from rfl, htmp] at hfirst
        exact firstFree_eq_some hfirst h.present
      generalize hk₂ : KernelMap.mk _ _ _ _ = k₂
      have hdir : k₂.dirFrame = k.dirFrame := by rw [← hk₂]; rfl
      have htable : k₂.tableFrame = k.tableFrame := by rw [← hk₂]; rfl
      have hmem : k₂.mem = ((k.tmpMapPage (alloc k)).set k.dirFrame j
          (alloc k ||| pagePresent ||| pageWritable)).mem := by rw [← hk₂]; rfl
      have hcurrent : k₂.currentFrame = frameNo (alloc k) := by
        rw [← hk₂]
        show frameNo (((k.tmpMapPage (alloc k)).set k.dirFrame j _).mem k.tableFrame tmpIndex) = _
        rw [set_mem_of_ne h.ne.symm]
        unfold tmpMapPage
        rw [set_mem_self, Function.update_self, frameNo_or (by decide), frameNo_or (by decide)]
      have hentry : k₂.mem k.tableFrame 0 = k.mem k.tableFrame 0 := by
        rw [hmem, set_mem_of_ne h.ne.symm]
        exact set_mem_of_index_ne (by decide)
      have hslot768 : k₂.mem k.dirFrame 768 = k.mem k.dirFrame 768 := by
        rw [hmem, set_mem_of_index_ne hslot]
        exact set_mem_of_index_ne (by decide)
      unfold KernelMap.walk
      dsimp only
      rw [(index_entryAddr 0).1, (index_entryAddr 0).2, set_dirFrame, hdir,
        set_mem_of_index_ne (by decide), hslot768, if_pos h.present, h.table,
        set_mem_of_ne (by rw [hcurrent]; exact halloc.symm), hentry]

/-- Without an entry left, the address is that of the temporary page or of the first
entry. -/
theorem Booted.not_mapsAll (h : k.Booted) (hnone : k.freeEntries = ∅)
    (halloc : frameNo (alloc k.started) ≠ k.tableFrame) (htaken : k.FirstTaken earlier g)
    (fs : List Frame) : ¬MapsAll alloc k earlier (g :: fs) := by
  rintro ⟨va, k', hcall, hnew, hne, ⟨e, hwalk, _, _, hframe⟩, _⟩
  have hstarted := h.started
  unfold kernelVirtMapPage at hcall
  dsimp only at hcall
  rw [hstarted.currentFrame, started_mem, started_tableFrame] at hcall
  cases hfirst : firstFree (k.mem k.tableFrame) (List.finRange 1024) with
  | some i =>
      rw [hfirst] at hcall
      obtain ⟨rfl, _⟩ := Prod.mk.inj (Except.ok.inj hcall)
      have hi : i = tmpIndex := by
        by_contra hne'
        have hmem := mem_freeEntries.mpr ⟨hne', firstFree_eq_some hfirst⟩
        rw [hnone] at hmem
        exact Finset.notMem_empty i hmem
      exact hne (by rw [hi, entryAddr_tmpIndex])
  | none =>
      rw [hfirst] at hcall
      obtain ⟨rfl, hfirstWalk⟩ := hstarted.newTable (by rwa [started_tableFrame]) hcall
      rw [hfirstWalk, started_mem, started_tableFrame] at hwalk
      obtain rfl := Option.some.inj hwalk
      have hpresent : Has (k.mem k.tableFrame 0) pagePresent := by
        by_contra hnot
        obtain ⟨j, hj, _⟩ := exists_firstFree hnot
        rw [hfirst] at hj
        cases hj
      rcases htaken hpresent with hother | hmem
      · exact hother hframe
      · exact hnew hmem

theorem Booted.not_mapsAll_replicate (h : k.Booted)
    (halloc : ∀ k', frameNo (alloc k') ≠ k.tableFrame) (htaken : k.FirstTaken earlier g) (n : ℕ)
    (hn : k.freeEntries.card < n) : ¬MapsAll alloc k earlier (List.replicate n g) := by
  induction n generalizing k earlier with
  | zero => omega
  | succ n ih =>
      rw [List.replicate_succ]
      by_cases hnone : k.freeEntries = ∅
      · exact h.not_mapsAll hnone (halloc _) htaken _
      · rintro ⟨va, k', hcall, _, _, _, hrest⟩
        obtain ⟨i, hi, k'', hcall', hbooted, htable, hfree, hmaps, hother⟩ :=
          h.call alloc (Finset.nonempty_iff_ne_empty.mpr hnone) g
        obtain ⟨rfl, rfl⟩ := Prod.mk.inj (Except.ok.inj (hcall.symm.trans hcall'))
        have hcard := Finset.card_erase_add_one hi
        refine ih hbooted (by rwa [htable]) ?_ (by rw [hfree]; omega) hrest
        intro hpresent
        by_cases hzero : i = 0
        · rw [hzero]
          exact Or.inr List.mem_cons_self
        · rw [htable, hother 0 (Ne.symm hzero)] at hpresent ⊢
          exact (htaken hpresent).imp_right (List.mem_cons_of_mem _)

/-- The addresses are new and right for all frames exactly if there are not more calls
than entries left in the first table. -/
theorem mapsAll_iff_le_freeEntries (h : k.Booted)
    (halloc : ∀ k', frameNo (alloc k') ≠ k.tableFrame) (n : ℕ) :
    (∀ fs : List Frame, fs.length = n → MapsAll alloc k [] fs) ↔ n ≤ k.freeEntries.card := by
  constructor
  · intro hall
    by_contra hlt
    have htaken : k.FirstTaken [] (frameNo (k.mem k.tableFrame 0) + 1) := by
      intro _
      left
      intro heq
      exact absurd heq (by simp)
    exact h.not_mapsAll_replicate halloc htaken n (by omega)
      (hall _ List.length_replicate)
  · intro hle fs hfs
    exact h.mapsAll fs nofun (by omega)

/-- A kernel which ends at 1.25 megabytes, and has its tables in front of that. -/
def bootMap : KernelMap where
  mem f i :=
    if f = 0x13E#20 then if i = 768 then 0x13F003#32 else 0#32
    else if f = 0x13F#20 then if i < 320 then BitVec.ofNat 32 i <<< 12 ||| 3#32 else 0#32
    else 0#32
  dirFrame := 0x13E#20
  tableFrame := 0x13F#20
  currentPgTable := .null

theorem booted_bootMap : bootMap.Booted :=
  ⟨by decide, by decide, by decide, by decide⟩

theorem card_freeEntries_bootMap : bootMap.freeEntries.card = 703 := by decide +kernel

theorem mapsAll_iff_le_freeEntries_bootMap :
    MapsAll (fun _ => 0x200000#32) bootMap [] (List.replicate 703 1#20) :=
  (mapsAll_iff_le_freeEntries booted_bootMap (fun _ => by decide) 703).mpr
    card_freeEntries_bootMap.ge _ List.length_replicate

/-- One more call returns the address of the temporary page. -/
theorem not_mapsAll_bootMap : bootMap.Booted ∧
    ¬∀ n, ∀ fs : List Frame, fs.length = n → MapsAll (fun _ => 0x200000#32) bootMap [] fs := by
  refine ⟨booted_bootMap, fun hall => ?_⟩
  refine booted_bootMap.not_mapsAll_replicate (fun _ => by decide) ?_ 704
    (by rw [card_freeEntries_bootMap]; decide) (hall 704 (List.replicate 704 1#20)
      List.length_replicate)
  exact fun _ => Or.inl (by decide +kernel)

end KernelMap

end Yak.Paging
