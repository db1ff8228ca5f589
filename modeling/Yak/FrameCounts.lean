import Yak.ChunkMapping
import Yak.MemoryIsolation
import Yak.Teardown

/-!
# Reference counts of the frames of users

Runs of `virt_map_chunk`, `arch_fork`, `page_set_writable` and `free_address_space` for the
processes of the table.  `page_frame_free` takes a second reference, so that a frame of the user
is never given back, and a run keeps its counts as long as no frame loses its last process.
-/

namespace Yak.Paging.Machine

open Process (Slot)

variable {m : Machine} {role : Frame → Role} {f : Frame}

/-! ## The number of entries for a frame -/

/-- The entries of the page tables of the users that map the frame. -/
def entriesFor (m : Machine) (f : Frame) : Set (Slot × Index × Index) :=
  {x | m.frameAt x.1 x.2.1 x.2.2 = some f}

/-- The number of present entries in the page tables of the users that map the frame. -/
noncomputable def number (m : Machine) (f : Frame) : ℕ := (m.entriesFor f).ncard

theorem number_ne_zero (h : m.Mapped f) : m.number f ≠ 0 := by
  obtain ⟨q, i, j, hf⟩ := h
  have hmem : (q, i, j) ∈ m.entriesFor f := hf
  exact Set.ncard_ne_zero_of_mem hmem (Set.toFinite _)

theorem number_eq_zero (h : ¬ m.Mapped f) : m.number f = 0 := by
  have hnone : m.entriesFor f = ∅ := by
    ext ⟨q, i, j⟩
    exact iff_of_false (fun hf => h ⟨q, i, j, hf⟩) (Set.notMem_empty _)
  rw [number, hnone, Set.ncard_empty]

/-- No process maps a frame twice. -/
theorem Sound.number_eq (h : m.Sound role) (f : Frame) :
    m.number f = (m.sharers (fun _ _ => True) f).card := by
  have himage : ((m.sharers (fun _ _ => True) f : Finset Slot) : Set Slot) =
      Prod.fst '' m.entriesFor f := by
    ext q
    rw [Finset.mem_coe, mem_sharers]
    constructor
    · rintro ⟨i, j, hf, -⟩
      exact ⟨(q, i, j), hf, rfl⟩
    · rintro ⟨⟨q', i, j⟩, hf, rfl⟩
      exact ⟨i, j, hf, trivial⟩
  have hinj : Set.InjOn Prod.fst (m.entriesFor f) := by
    rintro ⟨q, i, j⟩ hx ⟨q', k, l⟩ hy hsame
    obtain rfl : q = q' := hsame
    obtain ⟨rfl, rfl⟩ := h.once hx hy
    rfl
  unfold number
  rw [← hinj.ncard_image, ← himage, Set.ncard_coe_finset]

theorem Sound.counts_eq (h : m.Sound role) (hf : m.Mapped f) :
    (m.counts f).toInt = m.number f := by
  obtain ⟨q, i, j, hf⟩ := hf
  rw [h.count hf, h.number_eq, toInt_ofNat_of_le (card_sharers_le m _ f)]

end Yak.Paging.Machine

/-! ## Runs -/

namespace Yak.AddressSpaces

open Exec (ExecImage)
open Paging (Allocator Frame Freeing Fresh Machine Role chunkFlags firstOf imageTables
  kernelVirtBase)
open Paging.Machine (dir frameAt frameAt_eq_some frameAt_of_leaf leaf_eq leaf_onePage one onePage
  start_onePage two userTable)
open Process (Slot)

/-- What happens to the address spaces: a chunk is mapped, a process forks or has a write
fault, or exits, with the segments of its image. -/
inductive Op where
  | map (p : Slot) (start size : BitVec 32) (writable : Bool)
      (alloc : {alloc : Machine → BitVec 32 // Fresh alloc})
  | fork (p child : Slot) (A : Allocator)
  | fault (p : Slot) (va : BitVec 32) (A : Allocator)
  | exit (p : Slot) (image : ExecImage)

/-- The next state, and the frames that are given back.  A chunk lies below
`KERNEL_VIRT_BASE`. -/
def step (m : Machine) : Op → Option (Machine × List Frame)
  | .map p start size writable alloc =>
      match m.cr3 p with
      | none => none
      | some cr3 =>
          if start.toNat + size.toNat > kernelVirtBase.toNat then none
          else
            match Exec.virtMapChunk alloc.val start size cr3 (chunkFlags writable) m with
            | .ok (m', _) => some (m', [])
            | .error _ => none
  | .fork p child A =>
      match m.cr3 p with
      | none => none
      | some cr3 =>
          if child.val = 0 ∨ (m.cr3 child).isSome then none
          else
            match m.archFork p child cr3 A.alloc with
            | .ok (some m') => some (m', [])
            | _ => none
  | .fault p va A =>
      match m.cr3 p with
      | none => none
      | some cr3 =>
          match m.pageSetWritable cr3 va A.alloc with
          | ⟨m', .returned⟩ => some (m', [])
          | _ => none
  | .exit p image =>
      match m.cr3 p with
      | none => none
      | some cr3 =>
          match (Exec.freeAddressSpace Freeing.pageFrameFree image cr3 m).run [] with
          | .ok (m', free) => some (m'.left p, free)
          | .error _ => none

/-- A frame is given back when the last entry for it goes. -/
def Released (m m' : Machine) (free : List Frame) (f : Frame) : Prop :=
  f ∈ free ↔ m.number f ≠ 0 ∧ m'.number f = 0

/-- In all states of a run the counts of the frames of users are the numbers of the entries that
map them, and each step gives back those for which there is none any more.  A frame belongs to
the users once an entry maps it, until it is given back. -/
def Accounted (used : Set Frame) (m : Machine) : List Op → Prop
  | [] => ∀ f ∈ used, (m.counts f).toInt = m.number f
  | op :: ops =>
      (∀ f ∈ used, (m.counts f).toInt = m.number f) ∧
        ∀ m' free, step m op = some (m', free) →
          (∀ f ∈ used, Released m m' free f) ∧
            Accounted {f | (f ∈ used ∨ m'.Mapped f) ∧ f ∉ free} m' ops

/-- No page is mapped twice; a write fault in the kernel half only where the frame has one
reference; and a process exits only when each of its pages lies in one of the page tables that
are walked over, and has another process. -/
def SafeStep (m : Machine) : Op → Prop
  | .map p start size _ _ =>
      m.Unmapped p (start + size) (size.toNat / 0x400000 + 1) 0 (start &&& 0xFFFFF000#32)
  | .fork _ _ _ => True
  | .fault p va _ => m.SafeFault p va
  | .exit p image => m.SafeWalk p (imageTables image)

/-- All steps of the run are safe where they are made. -/
def SafeRun (m : Machine) : List Op → Prop
  | [] => True
  | op :: ops => SafeStep m op ∧ ∀ m' free, step m op = some (m', free) → SafeRun m' ops

/-! ## Steps -/

variable {m m' : Machine} {role : Frame → Role} {op : Op} {ops : List Op} {free : List Frame}
  {p child : Slot} {start size va cr3 : BitVec 32} {A : Allocator} {image : ExecImage}

theorem step_map {writable : Bool} {alloc : {alloc : Machine → BitVec 32 // Fresh alloc}}
    (h : step m (.map p start size writable alloc) = some (m', free)) :
    ∃ cr3 ret, m.cr3 p = some cr3 ∧ start.toNat + size.toNat ≤ kernelVirtBase.toNat ∧
      Exec.virtMapChunk alloc.val start size cr3 (chunkFlags writable) m = .ok (m', ret) ∧
      free = [] := by
  unfold step at h
  cases hcr3 : m.cr3 p with
  | none => simp [hcr3] at h
  | some cr3 =>
      simp only [hcr3] at h
      split at h
      next => cases h
      next hbelow =>
        split at h
        next m₁ ret hrun =>
          obtain ⟨rfl, rfl⟩ := Prod.mk.inj (Option.some.inj h)
          exact ⟨cr3, ret, rfl, not_lt.mp hbelow, hrun, rfl⟩
        next => cases h

theorem step_fork (h : step m (.fork p child A) = some (m', free)) :
    ∃ cr3, m.cr3 p = some cr3 ∧ m.cr3 child = none ∧ child.val ≠ 0 ∧
      m.archFork p child cr3 A.alloc = .ok (some m') ∧ free = [] := by
  unfold step at h
  cases hcr3 : m.cr3 p with
  | none => simp [hcr3] at h
  | some cr3 =>
      simp only [hcr3] at h
      split at h
      next => cases h
      next hchild =>
        rw [not_or, Option.not_isSome_iff_eq_none] at hchild
        split at h
        next m₁ hfork =>
          obtain ⟨rfl, rfl⟩ := Prod.mk.inj (Option.some.inj h)
          exact ⟨cr3, rfl, hchild.2, hchild.1, hfork, rfl⟩
        next => cases h

theorem step_fault (h : step m (.fault p va A) = some (m', free)) :
    ∃ cr3, m.cr3 p = some cr3 ∧ m.pageSetWritable cr3 va A.alloc = ⟨m', .returned⟩ ∧
      free = [] := by
  unfold step at h
  cases hcr3 : m.cr3 p with
  | none => simp [hcr3] at h
  | some cr3 =>
      simp only [hcr3] at h
      split at h
      next m₁ hfault =>
        obtain ⟨rfl, rfl⟩ := Prod.mk.inj (Option.some.inj h)
        exact ⟨cr3, rfl, hfault, rfl⟩
      next => cases h

/-- No frame is given back at an exit. -/
theorem step_exit (h : step m (.exit p image) = some (m', free)) :
    ∃ cr3 m₁, m.cr3 p = some cr3 ∧ Exec.freeAddressSpace Exec.pageFrameFree image cr3 m = .ok m₁ ∧
      m' = m₁.left p ∧ free = [] := by
  unfold step at h
  cases hcr3 : m.cr3 p with
  | none => simp [hcr3] at h
  | some cr3 =>
      simp only [hcr3] at h
      rw [Freeing.freeAddressSpace_eq] at h
      split at h
      next m₁ free' hfree =>
        obtain ⟨rfl, rfl⟩ := Prod.mk.inj (Option.some.inj h)
        cases hexit : Exec.freeAddressSpace Exec.pageFrameFree image cr3 m with
        | error e =>
            rw [hexit] at hfree
            cases hfree
        | ok m₂ =>
            rw [hexit] at hfree
            obtain ⟨rfl, rfl⟩ := Prod.mk.inj (Except.ok.inj hfree)
            exact ⟨cr3, m₂, rfl, hexit, rfl, rfl⟩
      next => cases h

/-- A page of the parent stays mapped, and the child has none before the fork. -/
theorem mapped_of_fork (hchild : m.cr3 child = none)
    (hleaf : ∀ q i j, m'.leaf q i j =
      if q = child ∨ q = p then (m.leaf p i j).map Paging.readOnly else m.leaf q i j)
    {f : Frame} (hf : m.Mapped f) : m'.Mapped f := by
  obtain ⟨q, i, j, hf⟩ := hf
  obtain ⟨e, he, rfl⟩ := frameAt_eq_some.mp hf
  refine ⟨q, i, j, ?_⟩
  rw [frameAt, hleaf]
  by_cases hq : q = child ∨ q = p
  · have hqp : q = p := by
      refine hq.resolve_left ?_
      rintro rfl
      rw [leaf_eq, userTable, dir, hchild] at he
      cases he
    rw [if_pos hq, ← hqp, he, Option.map_some, Option.map_some, Paging.frameNo_readOnly]
  · rw [if_neg hq, he, Option.map_some]

/-- A safe step keeps the counts, and the frames that are mapped stay mapped. -/
theorem sound_step (h : m.Sound role) (hsafe : SafeStep m op)
    (hstep : step m op = some (m', free)) :
    (∃ role', m'.Sound role') ∧ free = [] ∧ ∀ f, m.Mapped f → m'.Mapped f := by
  cases op with
  | map p start size writable alloc =>
      obtain ⟨cr3, ret, hcr3, hbelow, hrun, rfl⟩ := step_map hstep
      have hlimit : (start + size).toNat + 4096 < 2 ^ 32 := by
        have hbase : kernelVirtBase.toNat = 0xC0000000 := rfl
        rw [BitVec.toNat_add]
        have hmod := Nat.mod_le (start.toNat + size.toNat) (2 ^ 32)
        omega
      have hextends := h.virtMapChunk alloc.property hlimit hcr3 hsafe hrun
      refine ⟨hextends.sound, rfl, ?_⟩
      rintro f ⟨q, i, j, hf⟩
      obtain ⟨e, he, rfl⟩ := frameAt_eq_some.mp hf
      exact ⟨q, i, j, frameAt_of_leaf (hextends.keeps q i j e he)⟩
  | fork p child A =>
      obtain ⟨cr3, hcr3, hchild, hzero, hfork, rfl⟩ := step_fork hstep
      obtain ⟨role', hsound, -, hleaf⟩ := h.archFork hcr3 hchild hzero hfork
      exact ⟨⟨role', hsound⟩, rfl, fun f hf => mapped_of_fork hchild hleaf hf⟩
  | fault p va A =>
      obtain ⟨cr3, hcr3, hfault, rfl⟩ := step_fault hstep
      obtain ⟨role', hsound, -, hmapped⟩ := h.pageSetWritable hcr3 hsafe hfault
      exact ⟨⟨role', hsound⟩, rfl, hmapped⟩
  | exit p image =>
      obtain ⟨cr3, m₁, hcr3, hexit, rfl, rfl⟩ := step_exit hstep
      obtain ⟨hsound, hmapped⟩ := (h.freeAddressSpace hsafe hcr3 hexit).left h hsafe
      exact ⟨⟨role, hsound⟩, rfl, hmapped⟩

theorem accounted_of_sound {used : Set Frame} (h : m.Sound role)
    (hused : ∀ f ∈ used, m.Mapped f) (hsafe : SafeRun m ops) : Accounted used m ops := by
  induction ops generalizing m role used with
  | nil => exact fun f hf => h.counts_eq (hused f hf)
  | cons op ops ih =>
      refine ⟨fun f hf => h.counts_eq (hused f hf), fun m' free hstep => ?_⟩
      obtain ⟨⟨role', hsound⟩, rfl, hmapped⟩ := sound_step h hsafe.1 hstep
      refine ⟨fun f hf => ?_, ih hsound ?_ (hsafe.2 m' _ hstep)⟩
      · refine iff_of_false List.not_mem_nil fun hlost => ?_
        exact Machine.number_ne_zero (hmapped f (hused f hf)) hlost.2
      · rintro f ⟨hf | hf, -⟩
        · exact hmapped f (hused f hf)
        · exact hf

/-- In a run of safe steps the counts are those of the page tables. -/
theorem accounted_of_safeRun (h : m.Start p) (hsafe : SafeRun m ops) :
    Accounted {f | m.Mapped f} m ops := by
  obtain ⟨role, hsound⟩ := h.sound
  exact accounted_of_sound hsound (fun f hf => hf) hsafe

/-- The data of one page, at address 0. -/
def onePageImage : ExecImage := { ExecImage.empty 0#32 with dataSize := 1#32 }

/-- The child has the page of its parent, and nothing else. -/
theorem safeWalk_fork (hfork : onePage.archFork one two 0x1000#32 A.alloc =
    .ok (some m)) : m.SafeWalk two (imageTables onePageImage) := by
  obtain ⟨role, hstart⟩ := start_onePage.sound
  obtain ⟨role', hsound, -, hleaf⟩ := hstart.archFork rfl rfl (by decide) hfork
  have hpage : ∀ i j e, m.leaf two i j = some e →
      i = 0 ∧ j = 0 ∧ e = Paging.readOnly 0x3007#32 ∧ m.leaf one i j = some e := by
    intro i j e he
    have hsame : m.leaf one i j = some e := by
      rw [hleaf, if_pos (Or.inr rfl), ← he, hleaf, if_pos (Or.inl rfl)]
    rw [hleaf, if_pos (Or.inl rfl)] at he
    obtain ⟨e', he', rfl⟩ := Option.map_eq_some_iff.mp he
    obtain ⟨rfl, rfl, rfl⟩ := leaf_onePage he'
    exact ⟨rfl, rfl, rfl, hsame⟩
  have htables : imageTables onePageImage = [0] := by decide
  rw [htables]
  refine ⟨?_, ?_, ?_, ?_⟩
  · intro i j e he
    obtain ⟨-, -, rfl, -⟩ := hpage i j e he
    decide
  · intro i j e he
    obtain ⟨rfl, -⟩ := hpage i j e he
    rfl
  · intro i j e he
    obtain ⟨-, -, -, hsame⟩ := hpage i j e he
    exact ⟨one, i, j, by decide, frameAt_of_leaf hsame⟩
  · intro i t j hi ht
    obtain rfl : i = 0 := Fin.ext (List.mem_singleton.mp hi)
    have hpresent : m.leaf two 0 0 = some (Paging.readOnly 0x3007#32) := by
      rw [hleaf, if_pos (Or.inl rfl)]
      decide
    rw [leaf_eq, Machine.userTable_of_kernelTable ht] at hpresent
    cases hpresent

def forkTwo : Op := .fork one two (firstOf [0x6000#32, 0x7000#32])
def exitTwo : Op := .exit two onePageImage

set_option maxRecDepth 10000 in
/-- Process 1 forks, and its child exits. -/
theorem accounted_of_safeRun_onePage :
    ((step onePage forkTwo).bind fun s => step s.1 exitTwo).isSome = true ∧
      Accounted {f | onePage.Mapped f} onePage [forkTwo, exitTwo] := by
  refine ⟨by decide +kernel, ?_⟩
  refine accounted_of_safeRun start_onePage ⟨trivial, fun m' free hstep => ⟨?_, ?_⟩⟩
  · obtain ⟨cr3, hcr3, -, -, hfork, -⟩ := step_fork hstep
    obtain rfl : 0x1000#32 = cr3 := Option.some.inj hcr3
    exact safeWalk_fork hfork
  · exact fun _ _ _ => trivial

/-- The only process that has a page exits. -/
theorem not_accounted_exit :
    ¬ ∀ (m : Machine) (p : Slot) (ops : List Op), m.Start p →
      Accounted {f | m.Mapped f} m ops := by
  intro hall
  have hseen : (step onePage (.exit one onePageImage)).map
      (fun s => ((s.1.counts 3#20).toInt, s.2, decide (∀ q, s.1.cr3 q = none))) =
      some (-2, [], true) := by decide +kernel
  obtain ⟨⟨m', free⟩, hstep, hend⟩ := Option.map_eq_some_iff.mp hseen
  obtain ⟨hcount, hfree, hgone⟩ : (m'.counts 3#20).toInt = -2 ∧ free = [] ∧
      decide (∀ q, m'.cr3 q = none) = true := by
    simpa only [Prod.mk.injEq] using hend
  have hmapped : onePage.Mapped 3#20 := ⟨one, 0, 0, by decide⟩
  have hnone : ¬ m'.Mapped 3#20 := by
    rintro ⟨q, i, j, hf⟩
    rw [frameAt, leaf_eq, userTable, dir, of_decide_eq_true hgone q] at hf
    cases hf
  obtain ⟨-, hrest⟩ := hall onePage one [.exit one onePageImage] start_onePage
  have hcounts := (hrest m' free hstep).2 3#20 ⟨Or.inl hmapped, by simp [hfree]⟩
  rw [hcount, Machine.number_eq_zero hnone] at hcounts
  cases hcounts

end Yak.AddressSpaces
