import Yak.Loader

/-!
# The contents of the segments

`elf32_load_elf` keeps one segment of each kind, the last in the file, and `elf32_read_image` reads
the text and the constants as far as they go in memory, and clears one byte of a data segment.
A file whose segments are plain enough is in memory as its headers say.
-/

namespace Yak.Exec

open Paging (Frame Index Page Machine Has pagePresent pageWritable pageUser frameNo pgDirIndex
  pgTabIndex kernelVirtBase)
open Paging.Machine (wordIndex)

/-! ## Kinds of segments -/

/-- The three segments for which there is room in an image. -/
inductive SegmentKind where
  | text
  | rodata
  | data
  deriving DecidableEq

/-- How the loop of `elf32_load_elf` sorts a header. -/
def kindOf (phdr : ElfPhdr) : Option SegmentKind :=
  if phdr.type = ptLoad then
    if Has phdr.flags pfX ∧ Has phdr.flags pfR then some .text
    else if Has phdr.flags pfR ∧ ¬ Has phdr.flags pfW then some .rodata
    else if Has phdr.flags pfR ∧ Has phdr.flags pfW then some .data
    else none
  else none

/-- The last of `n` headers of this kind. -/
def lastOf (x : ExecFile) (kind : SegmentKind) : ℕ → Option ℕ
  | 0 => none
  | n + 1 => if kindOf (x.phdr n) = some kind then some n else lastOf x kind n

def Segments.vaddr (s : Segments) : SegmentKind → BitVec 32
  | .text => s.image.textVaddr
  | .rodata => s.image.rodataVaddr
  | .data => s.image.dataVaddr

def Segments.size (s : Segments) : SegmentKind → BitVec 32
  | .text => s.image.textSize
  | .rodata => s.image.rodataSize
  | .data => s.image.dataSize

def Segments.off (s : Segments) : SegmentKind → BitVec 32
  | .text => s.textOff
  | .rodata => s.rodataOff
  | .data => s.dataOff

/-- The segment of this kind is that of the header. -/
structure Segments.From (s : Segments) (kind : SegmentKind) (phdr : ElfPhdr) : Prop where
  vaddr : s.vaddr kind = phdr.vaddr
  size : s.size kind = phdr.memsz
  off : s.off kind = phdr.offset

variable {x : ExecFile} {kind kind' : SegmentKind} {s : Segments} {phdr : ElfPhdr} {n i : ℕ}
  {hdr : ElfEhdr}

theorem lastOf_some (h : lastOf x kind n = some i) : i < n ∧ kindOf (x.phdr i) = some kind := by
  induction n with
  | zero => cases h
  | succ n ih =>
      rw [lastOf] at h
      split at h
      next hkind =>
        obtain rfl := Option.some.inj h
        exact ⟨Nat.lt_succ_self _, hkind⟩
      next =>
        obtain ⟨hlt, hkind⟩ := ih h
        exact ⟨Nat.lt_succ_of_lt hlt, hkind⟩

theorem Segments.add_from (s : Segments) (h : kindOf phdr = some kind) :
    (s.add phdr).From kind phdr := by
  unfold kindOf at h
  unfold Segments.add
  split_ifs at h ⊢ <;> cases h <;> exact ⟨rfl, rfl, rfl⟩

theorem Segments.add_other (s : Segments) (h : kindOf phdr ≠ some kind) :
    (s.add phdr).vaddr kind = s.vaddr kind ∧ (s.add phdr).size kind = s.size kind ∧
      (s.add phdr).off kind = s.off kind := by
  unfold kindOf at h
  unfold Segments.add
  split_ifs at h ⊢ <;> cases kind <;> first | exact ⟨rfl, rfl, rfl⟩ | exact absurd rfl h

/-- The state of the loop before header `n`. -/
def segmentsTo (x : ExecFile) (hdr : ElfEhdr) (n : ℕ) : Segments :=
  (List.range n).foldl (fun s i => s.add (x.phdr i))
    ⟨ExecImage.empty hdr.entry, 0#32, 0#32, 0#32⟩

theorem segmentsTo_succ (x : ExecFile) (hdr : ElfEhdr) (n : ℕ) :
    segmentsTo x hdr (n + 1) = (segmentsTo x hdr n).add (x.phdr n) := by
  rw [segmentsTo, List.range_succ, List.foldl_append, List.foldl_cons, List.foldl_nil, segmentsTo]

/-- The image has the last segment of each kind. -/
theorem segmentsTo_from (hdr : ElfEhdr) (h : lastOf x kind n = some i) :
    (segmentsTo x hdr n).From kind (x.phdr i) := by
  induction n with
  | zero => cases h
  | succ n ih =>
      rw [lastOf] at h
      rw [segmentsTo_succ]
      split at h
      next hkind =>
        obtain rfl := Option.some.inj h
        exact Segments.add_from _ hkind
      next hkind =>
        obtain ⟨hvaddr, hsize, hoff⟩ := Segments.add_other (segmentsTo x hdr n) hkind
        obtain ⟨hv, hs, ho⟩ := ih h
        exact ⟨hvaddr.trans hv, hsize.trans hs, hoff.trans ho⟩

theorem segmentsTo_none (h : lastOf x kind n = none) : (segmentsTo x hdr n).size kind = 0#32 := by
  induction n with
  | zero => cases kind <;> rfl
  | succ n ih =>
      rw [lastOf] at h
      split at h
      next => cases h
      next hkind =>
        rw [segmentsTo_succ, (Segments.add_other (segmentsTo x hdr n) hkind).2.1]
        exact ih h

/-- The header of a data segment which is longer in memory than in the file. -/
def HasBss (phdr : ElfPhdr) : Prop := kindOf phdr = some .data ∧ phdr.filesz < phdr.memsz

instance (phdr : ElfPhdr) : Decidable (HasBss phdr) := inferInstanceAs (Decidable (_ ∧ _))

theorem Segments.add_bss (s : Segments) (phdr : ElfPhdr) :
    (s.add phdr).image.bssVaddr =
        (if HasBss phdr then phdr.vaddr + phdr.filesz else s.image.bssVaddr) ∧
      (s.add phdr).image.bssSize =
        if HasBss phdr then phdr.memsz - phdr.filesz else s.image.bssSize := by
  unfold HasBss kindOf Segments.add
  split_ifs <;> simp_all

/-- The section without contents is that of the last data segment which has one. -/
theorem exists_bss (h : (segmentsTo x hdr n).image.bssSize ≠ 0#32) : ∃ i < n, HasBss (x.phdr i) ∧
    (segmentsTo x hdr n).image.bssVaddr = (x.phdr i).vaddr + (x.phdr i).filesz ∧
    (segmentsTo x hdr n).image.bssSize = (x.phdr i).memsz - (x.phdr i).filesz := by
  induction n with
  | zero => exact absurd rfl h
  | succ n ih =>
      rw [segmentsTo_succ] at h ⊢
      obtain ⟨hvaddr, hsize⟩ := Segments.add_bss (segmentsTo x hdr n) (x.phdr n)
      rw [hvaddr, hsize]
      by_cases hbss : HasBss (x.phdr n)
      · rw [if_pos hbss, if_pos hbss]
        exact ⟨n, Nat.lt_succ_self n, hbss, rfl, rfl⟩
      · rw [if_neg hbss] at hsize
        rw [if_neg hbss, if_neg hbss]
        rw [hsize] at h
        obtain ⟨i, hi, hrest⟩ := ih h
        exact ⟨i, Nat.lt_succ_of_lt hi, hrest⟩

theorem bssSize_ne_zero (hdr : ElfEhdr) (hi : i < n) (h : HasBss (x.phdr i)) :
    (segmentsTo x hdr n).image.bssSize ≠ 0#32 := by
  induction n with
  | zero => cases hi
  | succ n ih =>
      rw [segmentsTo_succ, (Segments.add_bss (segmentsTo x hdr n) (x.phdr n)).2]
      by_cases hbss : HasBss (x.phdr n)
      · rw [if_pos hbss]
        intro hzero
        have hlt := hbss.2
        rw [BitVec.sub_eq_iff_eq_add.mp hzero, BitVec.zero_add] at hlt
        exact absurd hlt (BitVec.lt_irrefl _)
      · rw [if_neg hbss]
        refine ih (lt_of_le_of_ne (Nat.le_of_lt_succ hi) ?_)
        rintro rfl
        exact hbss h


/-! ## What the loader writes -/

/-- How much of a segment is read from the file. -/
def Segments.count (s : Segments) : SegmentKind → BitVec 32
  | .text => s.image.textSize
  | .rodata => s.image.rodataSize
  | .data => s.image.dataSize - s.image.bssSize

/-- The bytes which are read for a segment. -/
def Segments.bytes (s : Segments) (x : ExecFile) (kind : SegmentKind) : List (BitVec 8) :=
  if s.size kind ≠ 0#32 then x.read (s.off kind) (s.count kind) else []

/-- The byte at an address in a list of bytes which begins at another. -/
def writtenAt (start : BitVec 32) (bytes : List (BitVec 8)) (va : BitVec 32) :
    Option (BitVec 8) :=
  if start.toNat ≤ va.toNat then bytes[va.toNat - start.toNat]? else none

def Segments.written (s : Segments) (x : ExecFile) (kind : SegmentKind) (va : BitVec 32) :
    Option (BitVec 8) :=
  writtenAt (s.vaddr kind) (s.bytes x kind) va

def Segments.cleared (s : Segments) (va : BitVec 32) : Option (BitVec 8) :=
  writtenAt s.image.bssVaddr (if s.image.bssSize.toNat = 0 then [] else [0#8]) va

variable {m m' : Machine} {d : Frame} {cr3 va : BitVec 32} {k : Kernel} {image : ExecImage}
  {bytes : List (BitVec 8)} {start : BitVec 32}

theorem writtenAt_eq_none (h : va.toNat < start.toNat ∨ start.toNat + bytes.length ≤ va.toNat) :
    writtenAt start bytes va = none := by
  unfold writtenAt
  split
  next hle => exact List.getElem?_eq_none (by omega)
  next => rfl

theorem writtenAt_add {n : ℕ} (h : start.toNat + n < 2 ^ 32) :
    writtenAt start bytes (start + BitVec.ofNat 32 n) = bytes[n]? := by
  rw [writtenAt, toNat_add_ofNat h, if_pos (Nat.le_add_right _ _), Nat.add_sub_cancel_left]

theorem WritesBytes.byteAt (h : WritesBytes m m' d start bytes) (va : BitVec 32) :
    byteAt m' d va = (writtenAt start bytes va).or (byteAt m d va) := by
  by_cases hout : va.toNat < start.toNat ∨ start.toNat + bytes.length ≤ va.toNat
  · rw [writtenAt_eq_none hout, Option.none_or, h.others va hout]
  · obtain ⟨n, hn⟩ := Nat.exists_eq_add_of_le (le_of_not_gt fun hlt => hout (Or.inl hlt))
    have hlt : n < bytes.length := by omega
    have hva : va = start + BitVec.ofNat 32 n := by
      refine BitVec.eq_of_toNat_eq ?_
      rw [toNat_add_ofNat (by have := va.isLt; omega), hn]
    rw [hva, writtenAt_add (by have := va.isLt; omega), h.written n hlt,
      List.getElem?_eq_getElem hlt, Option.some_or]

/-- The last of the writes to an address counts. -/
theorem Separate.readImage (h : Separate m (frameNo cr3))
    (hrun : elf32ReadImage k image cr3 x s m = .ok m') :
    Separate m' (frameNo cr3) ∧ ∀ va, byteAt m' (frameNo cr3) va =
      (s.cleared va).or ((s.written x .rodata va).or ((s.written x .data va).or
        ((s.written x .text va).or (byteAt m (frameNo cr3) va)))) := by
  unfold elf32ReadImage at hrun
  obtain ⟨m₁, htext, hrun⟩ := bind_eq_ok.mp hrun
  obtain ⟨m₂, hdata, hrun⟩ := bind_eq_ok.mp hrun
  obtain ⟨m₃, hrodata, hbss⟩ := bind_eq_ok.mp hrun
  obtain ⟨hs₁, hwrites₁⟩ := h.readSegment htext
  obtain ⟨hs₂, hwrites₂⟩ := hs₁.readSegment hdata
  obtain ⟨hs₃, hwrites₃⟩ := hs₂.readSegment hrodata
  obtain ⟨hs₄, hwrites₄⟩ := hs₃.clearBss _ hbss
  refine ⟨hs₄, fun va => ?_⟩
  rw [hwrites₄.byteAt, hwrites₃.byteAt, hwrites₂.byteAt, hwrites₁.byteAt]
  rfl

/-! ## Segments in a file -/

/-- What `elf_read` puts in place of a file: its bytes as far as it goes, and nothing if the
count is a negative number for it. -/
structure FileOf (x : ExecFile) (file : List (BitVec 8)) : Prop where
  length_lt : file.length < 2 ^ 31
  read_le : ∀ off count, (x.read off count).length ≤ count.toNat
  read_get : ∀ off count n, count.toNat < 2 ^ 31 → n < count.toNat →
    off.toNat + n < file.length → (x.read off count)[n]? = file[off.toNat + n]?
  refused : ∀ off count, 2 ^ 31 ≤ count.toNat → x.read off count = []

/-- The address is one of the segment. -/
def Inside (phdr : ElfPhdr) (va : BitVec 32) : Prop :=
  phdr.vaddr.toNat ≤ va.toNat ∧ va.toNat < phdr.vaddr.toNat + phdr.memsz.toNat

/-- The segments are `R`, `RX` or `RW`, they are below the stack, what they have in the file is
there, and no page has parts of two of them. -/
structure WellFormed (x : ExecFile) (hdr : ElfEhdr) (file : List (BitVec 8)) : Prop where
  flags : ∀ i < hdr.phnum.toNat, (x.phdr i).type = ptLoad →
    Has (x.phdr i).flags pfR ∧ ¬ (Has (x.phdr i).flags pfX ∧ Has (x.phdr i).flags pfW)
  filesz_le : ∀ i < hdr.phnum.toNat, (x.phdr i).type = ptLoad →
    (x.phdr i).filesz ≤ (x.phdr i).memsz
  below : ∀ i < hdr.phnum.toNat, (x.phdr i).type = ptLoad →
    (x.phdr i).vaddr.toNat + (x.phdr i).memsz.toNat ≤ (kernelVirtBase - userStackSize).toNat
  inFile : ∀ i < hdr.phnum.toNat, (x.phdr i).type = ptLoad →
    (x.phdr i).offset.toNat + (x.phdr i).filesz.toNat ≤ file.length
  disjoint : ∀ i < hdr.phnum.toNat, ∀ j < hdr.phnum.toNat, (x.phdr i).type = ptLoad →
    (x.phdr j).type = ptLoad → i ≠ j → ∀ va va', Inside (x.phdr i) va → Inside (x.phdr j) va' →
    va.toNat / 4096 ≠ va'.toNat / 4096

/-- How much of a segment is read, if its section without contents is its own. -/
def readSize (phdr : ElfPhdr) : BitVec 32 := if HasBss phdr then phdr.filesz else phdr.memsz

/-- The section without contents is that of the data segment which is kept. -/
def OwnBss (x : ExecFile) (hdr : ElfEhdr) : Prop :=
  ∀ i < hdr.phnum.toNat, HasBss (x.phdr i) → lastOf x .data hdr.phnum.toNat = some i

/-- The segment is the last of its kind. -/
def Kept (x : ExecFile) (hdr : ElfEhdr) (i : ℕ) : Prop :=
  (kindOf (x.phdr i)).bind (fun kind => lastOf x kind hdr.phnum.toNat) = some i

instance (x : ExecFile) (hdr : ElfEhdr) (i : ℕ) : Decidable (Kept x hdr i) :=
  inferInstanceAs (Decidable (_ = _))

/-- What the loader writes for the byte `n` of the segment `i`. -/
def loadedByte (x : ExecFile) (hdr : ElfEhdr) (i n : ℕ) : Option (BitVec 8) :=
  if Kept x hdr i then
    if HasBss (x.phdr i) ∧ n = (x.phdr i).filesz.toNat then some 0#8
    else (x.read (x.phdr i).offset (readSize (x.phdr i)))[n]?
  else none

variable {file : List (BitVec 8)} {j : ℕ}

theorem kept_iff : Kept x hdr i ↔ ∃ kind, lastOf x kind hdr.phnum.toNat = some i := by
  rw [Kept, Option.bind_eq_some_iff]
  exact ⟨fun ⟨kind, _, h⟩ => ⟨kind, h⟩, fun ⟨kind, h⟩ => ⟨kind, (lastOf_some h).2, h⟩⟩

theorem kindOf_load (h : kindOf phdr = some kind) : phdr.type = ptLoad := by
  unfold kindOf at h
  split at h
  next hload => exact hload
  next => cases h

theorem HasBss.filesz_lt (h : HasBss phdr) : phdr.filesz.toNat < phdr.memsz.toNat := h.2

theorem readSize_le (phdr : ElfPhdr) : (readSize phdr).toNat ≤ phdr.memsz.toNat := by
  unfold readSize
  split
  next hbss => exact hbss.filesz_lt.le
  next => exact le_rfl

theorem OwnBss.bssSize (h : OwnBss x hdr) (hlast : lastOf x .data hdr.phnum.toNat = some i) :
    (segmentsTo x hdr hdr.phnum.toNat).image.bssSize =
      if HasBss (x.phdr i) then (x.phdr i).memsz - (x.phdr i).filesz else 0#32 := by
  by_cases hzero : (segmentsTo x hdr hdr.phnum.toNat).image.bssSize = 0#32
  · rw [hzero, if_neg]
    exact fun hbss => bssSize_ne_zero hdr (lastOf_some hlast).1 hbss hzero
  · obtain ⟨j, hj, hbss, -, hsize⟩ := exists_bss hzero
    obtain rfl := Option.some.inj ((h j hj hbss).symm.trans hlast)
    rw [hsize, if_pos hbss]

/-- What is read of a segment which is kept. -/
theorem OwnBss.count (h : OwnBss x hdr) (hlast : lastOf x kind hdr.phnum.toNat = some i) :
    (segmentsTo x hdr hdr.phnum.toNat).count kind = readSize (x.phdr i) := by
  have hsize := (segmentsTo_from hdr hlast).size
  have hkind := (lastOf_some hlast).2
  have hown : kind ≠ .data → ¬ HasBss (x.phdr i) := fun hne hbss =>
    hne (Option.some.inj (hkind.symm.trans hbss.1))
  cases kind with
  | text => exact hsize.trans (if_neg (hown (by decide))).symm
  | rodata => exact hsize.trans (if_neg (hown (by decide))).symm
  | data =>
      have hdata : (segmentsTo x hdr hdr.phnum.toNat).image.dataSize = (x.phdr i).memsz := hsize
      change (segmentsTo x hdr hdr.phnum.toNat).image.dataSize -
        (segmentsTo x hdr hdr.phnum.toNat).image.bssSize = readSize (x.phdr i)
      rw [h.bssSize hlast, readSize, hdata]
      split
      next => bv_omega
      next => rw [BitVec.sub_zero]

theorem readSize_data_le (hkind : kindOf phdr = some .data) :
    (readSize phdr).toNat ≤ phdr.filesz.toNat := by
  unfold readSize
  split
  next => exact le_rfl
  next hbss => exact BitVec.not_lt.mp fun hlt => hbss ⟨hkind, hlt⟩

theorem OwnBss.written_inside (h : OwnBss x hdr) (hfile : FileOf x file)
    (hwritten : (segmentsTo x hdr hdr.phnum.toNat).written x kind va ≠ none) :
    ∃ i, lastOf x kind hdr.phnum.toNat = some i ∧ Inside (x.phdr i) va := by
  have hsize : (segmentsTo x hdr hdr.phnum.toNat).size kind ≠ 0#32 := by
    intro hzero
    refine hwritten ?_
    rw [Segments.written, Segments.bytes, if_neg (not_not.mpr hzero), writtenAt]
    split <;> rfl
  cases hlast : lastOf x kind hdr.phnum.toNat with
  | none => exact absurd (segmentsTo_none hlast) hsize
  | some i =>
      have hfrom := segmentsTo_from hdr hlast
      have hlen := hfile.read_le ((segmentsTo x hdr hdr.phnum.toNat).off kind)
        ((segmentsTo x hdr hdr.phnum.toNat).count kind)
      rw [h.count hlast] at hlen
      have hle := readSize_le (x.phdr i)
      refine ⟨i, rfl, ?_⟩
      by_contra hout
      refine hwritten (writtenAt_eq_none ?_)
      rw [Segments.bytes, if_pos hsize, hfrom.vaddr, h.count hlast]
      unfold Inside at hout
      omega

/-- The zero is written to the data segment which is kept. -/
theorem OwnBss.cleared_inside (h : OwnBss x hdr)
    (hcleared : (segmentsTo x hdr hdr.phnum.toNat).cleared va ≠ none) :
    ∃ i, lastOf x .data hdr.phnum.toNat = some i ∧ HasBss (x.phdr i) ∧
      va = (x.phdr i).vaddr + (x.phdr i).filesz := by
  have hsize : (segmentsTo x hdr hdr.phnum.toNat).image.bssSize ≠ 0#32 := by
    intro hzero
    refine hcleared ?_
    rw [Segments.cleared, hzero, writtenAt]
    split <;> rfl
  obtain ⟨i, hi, hbss, hvaddr, -⟩ := exists_bss hsize
  refine ⟨i, h i hi hbss, hbss, ?_⟩
  rw [← hvaddr]
  by_contra hne
  have hne' : va.toNat ≠ (segmentsTo x hdr hdr.phnum.toNat).image.bssVaddr.toNat :=
    fun heq => hne (BitVec.eq_of_toNat_eq heq)
  refine hcleared (writtenAt_eq_none ?_)
  split <;> simp only [List.length_nil, List.length_singleton] <;> omega

/-- The byte `n` of the segment `i`. -/
structure ByteOf (x : ExecFile) (hdr : ElfEhdr) (i n : ℕ) (va : BitVec 32) : Prop where
  lt : i < hdr.phnum.toNat
  load : (x.phdr i).type = ptLoad
  lt_memsz : n < (x.phdr i).memsz.toNat
  toNat_eq : va.toNat = (x.phdr i).vaddr.toNat + n

theorem ByteOf.inside (h : ByteOf x hdr i n va) : Inside (x.phdr i) va := by
  have hlt := h.lt_memsz
  have heq := h.toNat_eq
  unfold Inside
  omega

theorem WellFormed.inside_unique (hwf : WellFormed x hdr file) (h : ByteOf x hdr i n va)
    (hlast : lastOf x kind hdr.phnum.toNat = some j) (hinside : Inside (x.phdr j) va) : j = i := by
  obtain ⟨hj, hkind⟩ := lastOf_some hlast
  by_contra hne
  exact hwf.disjoint i h.lt j hj h.load (kindOf_load hkind) (Ne.symm hne) va va h.inside hinside rfl

theorem WellFormed.not_written (hwf : WellFormed x hdr file) (hfile : FileOf x file)
    (hbss : OwnBss x hdr) (h : ByteOf x hdr i n va)
    (hlast : lastOf x kind hdr.phnum.toNat ≠ some i) :
    (segmentsTo x hdr hdr.phnum.toNat).written x kind va = none := by
  by_contra hwritten
  obtain ⟨j, hj, hinside⟩ := hbss.written_inside hfile hwritten
  obtain rfl := hwf.inside_unique h hj hinside
  exact hlast hj

theorem WellFormed.written (hbss : OwnBss x hdr) (h : ByteOf x hdr i n va)
    (hlast : lastOf x kind hdr.phnum.toNat = some i) :
    (segmentsTo x hdr hdr.phnum.toNat).written x kind va =
      (x.read (x.phdr i).offset (readSize (x.phdr i)))[n]? := by
  have hfrom := segmentsTo_from hdr hlast
  have hsize : (segmentsTo x hdr hdr.phnum.toNat).size kind ≠ 0#32 := by
    rw [hfrom.size]
    intro hzero
    have hlt := h.lt_memsz
    rw [hzero] at hlt
    exact absurd hlt (Nat.not_lt_zero _)
  have hva := h.toNat_eq
  rw [Segments.written, Segments.bytes, if_pos hsize, hfrom.vaddr, hfrom.off, hbss.count hlast,
    writtenAt, if_pos (by omega), show va.toNat - (x.phdr i).vaddr.toNat = n by omega]

theorem WellFormed.cleared (hwf : WellFormed x hdr file) (hbss : OwnBss x hdr)
    (h : ByteOf x hdr i n va) : (segmentsTo x hdr hdr.phnum.toNat).cleared va =
      if HasBss (x.phdr i) ∧ n = (x.phdr i).filesz.toNat then some 0#8 else none := by
  have hfirst : ∀ j < hdr.phnum.toNat, HasBss (x.phdr j) →
      ((x.phdr j).vaddr + (x.phdr j).filesz).toNat =
        (x.phdr j).vaddr.toNat + (x.phdr j).filesz.toNat := by
    intro j hj hasBss
    have hbelow := hwf.below j hj (kindOf_load hasBss.1)
    have hlt := hasBss.filesz_lt
    have hbase : (kernelVirtBase - userStackSize).toNat < 2 ^ 32 := BitVec.isLt _
    rw [BitVec.toNat_add, Nat.mod_eq_of_lt (by omega)]
  split
  next hhas =>
    obtain ⟨hasBss, hn⟩ := hhas
    have hsize := bssSize_ne_zero hdr h.lt hasBss
    obtain ⟨j, hj, hasBss', hvaddr, -⟩ := exists_bss hsize
    obtain rfl := Option.some.inj ((hbss j hj hasBss').symm.trans (hbss i h.lt hasBss))
    have hsize' : (segmentsTo x hdr hdr.phnum.toNat).image.bssSize.toNat ≠ 0 := fun hzero =>
      hsize (BitVec.eq_of_toNat_eq hzero)
    have hva : va.toNat = ((x.phdr j).vaddr + (x.phdr j).filesz).toNat := by
      rw [hfirst j hj hasBss, h.toNat_eq, hn]
    rw [Segments.cleared, if_neg hsize', hvaddr, writtenAt, if_pos hva.ge, hva, Nat.sub_self]
    rfl
  next hnot =>
    by_contra hcleared
    obtain ⟨j, hlast, hasBss, hva⟩ := hbss.cleared_inside hcleared
    have heq := congrArg BitVec.toNat hva
    rw [hfirst j (lastOf_some hlast).1 hasBss] at heq
    have hlt := hasBss.filesz_lt
    obtain rfl := hwf.inside_unique h hlast ⟨by omega, by omega⟩
    have hn := h.toNat_eq
    exact hnot ⟨hasBss, by omega⟩

/-- What a byte of a segment is after the loader has run. -/
theorem WellFormed.readImage (hwf : WellFormed x hdr file) (hfile : FileOf x file)
    (hbss : OwnBss x hdr) (h : Separate m (frameNo cr3))
    (hrun : elf32ReadImage k image cr3 x (segments x hdr) m = .ok m') (hva : ByteOf x hdr i n va) :
    byteAt m' (frameNo cr3) va = (loadedByte x hdr i n).or (byteAt m (frameNo cr3) va) := by
  rw [(h.readImage hrun).2 va]
  change ((segmentsTo x hdr hdr.phnum.toNat).cleared va).or _ = _
  rw [hwf.cleared hbss hva, loadedByte]
  have hnone : ∀ kind, lastOf x kind hdr.phnum.toNat ≠ some i →
      (segments x hdr).written x kind va = none := fun kind => hwf.not_written hfile hbss hva
  have hsome : ∀ kind, lastOf x kind hdr.phnum.toNat = some i →
      (segments x hdr).written x kind va =
        (x.read (x.phdr i).offset (readSize (x.phdr i)))[n]? := fun kind =>
    WellFormed.written hbss hva
  by_cases hkept : Kept x hdr i
  · obtain ⟨kind, hlast⟩ := kept_iff.mp hkept
    have hother : ∀ kind', kind' ≠ kind → lastOf x kind' hdr.phnum.toNat ≠ some i := by
      intro kind' hne hlast'
      exact hne (Option.some.inj ((lastOf_some hlast').2.symm.trans (lastOf_some hlast).2))
    have hrest : ((segments x hdr).written x .rodata va).or
        (((segments x hdr).written x .data va).or (((segments x hdr).written x .text va).or
          (byteAt m (frameNo cr3) va))) =
        ((x.read (x.phdr i).offset (readSize (x.phdr i)))[n]?).or
          (byteAt m (frameNo cr3) va) := by
      cases kind with
      | text =>
          rw [hnone _ (hother .rodata (by decide)), hnone _ (hother .data (by decide)),
            hsome _ hlast, Option.none_or, Option.none_or]
      | rodata =>
          rw [hnone _ (hother .text (by decide)), hnone _ (hother .data (by decide)),
            hsome _ hlast, Option.none_or, Option.none_or]
      | data =>
          rw [hnone _ (hother .text (by decide)), hnone _ (hother .rodata (by decide)),
            hsome _ hlast, Option.none_or, Option.none_or]
    rw [hrest, if_pos hkept]
    split
    next => rw [Option.some_or, Option.some_or]
    next => rw [Option.none_or]
  · have hlast : ∀ kind, lastOf x kind hdr.phnum.toNat ≠ some i := fun kind hlast =>
      hkept (kept_iff.mpr ⟨kind, hlast⟩)
    rw [hnone _ (hlast .text), hnone _ (hlast .rodata), hnone _ (hlast .data), if_neg hkept,
      if_neg, Option.none_or, Option.none_or, Option.none_or, Option.none_or]
    exact fun hhas => hlast _ (hbss i hva.lt hhas.1)

/-! ## Files which are loaded as they should be -/

/-- Each segment is the last of its kind, what is read of a text or of constants past its part of
the file is zero, and data has at most one byte past it. -/
structure Plain (x : ExecFile) (hdr : ElfEhdr) : Prop where
  last : ∀ i < hdr.phnum.toNat, (x.phdr i).type = ptLoad → (x.phdr i).memsz ≠ 0#32 → Kept x hdr i
  tail : ∀ i < hdr.phnum.toNat, (x.phdr i).type = ptLoad → ¬ Has (x.phdr i).flags pfW →
    ∀ n, (x.phdr i).filesz.toNat ≤ n → n < (x.phdr i).memsz.toNat →
      (x.read (x.phdr i).offset (x.phdr i).memsz)[n]? = some 0#8
  bss : ∀ i < hdr.phnum.toNat, (x.phdr i).type = ptLoad → Has (x.phdr i).flags pfW →
    (x.phdr i).memsz.toNat ≤ (x.phdr i).filesz.toNat + 1

/-- The byte `n` of a segment as the header says. -/
def segmentByte (phdr : ElfPhdr) (file : List (BitVec 8)) (n : ℕ) : Option (BitVec 8) :=
  if n < phdr.filesz.toNat then file[phdr.offset.toNat + n]? else some 0#8

theorem WellFormed.kindOf (hwf : WellFormed x hdr file) (hi : i < hdr.phnum.toNat)
    (hload : (x.phdr i).type = ptLoad) : ∃ kind, kindOf (x.phdr i) = some kind ∧
      (kind = .data ↔ Has (x.phdr i).flags pfW) := by
  obtain ⟨hread, hflags⟩ := hwf.flags i hi hload
  unfold Exec.kindOf
  rw [if_pos hload]
  by_cases hexec : Has (x.phdr i).flags pfX
  · rw [if_pos ⟨hexec, hread⟩]
    exact ⟨_, rfl, iff_of_false (by decide) fun hwrite => hflags ⟨hexec, hwrite⟩⟩
  · rw [if_neg fun h => hexec h.1]
    by_cases hwrite : Has (x.phdr i).flags pfW
    · rw [if_neg fun h => h.2 hwrite, if_pos ⟨hread, hwrite⟩]
      exact ⟨_, rfl, iff_of_true rfl hwrite⟩
    · rw [if_pos ⟨hread, hwrite⟩]
      exact ⟨_, rfl, iff_of_false (by decide) hwrite⟩

theorem Kept.lastOf_eq (h : Kept x hdr i) (hkind : kindOf (x.phdr i) = some kind) :
    lastOf x kind hdr.phnum.toNat = some i := by
  rwa [Kept, hkind, Option.bind_some] at h

theorem Plain.ownBss (h : Plain x hdr) : OwnBss x hdr := by
  intro i hi hbss
  refine (h.last i hi (kindOf_load hbss.1) ?_).lastOf_eq hbss.1
  intro hzero
  have hlt := hbss.filesz_lt
  rw [hzero] at hlt
  exact absurd hlt (Nat.not_lt_zero _)

/-- What is read of the part of a segment in the file. -/
theorem WellFormed.read_get (hwf : WellFormed x hdr file) (hfile : FileOf x file)
    (hi : i < hdr.phnum.toNat) (hload : (x.phdr i).type = ptLoad) {count : BitVec 32}
    (hcount : count.toNat < 2 ^ 31) (hn : n < count.toNat) (hlt : n < (x.phdr i).filesz.toNat) :
    (x.read (x.phdr i).offset count)[n]? = file[(x.phdr i).offset.toNat + n]? :=
  hfile.read_get _ _ n hcount hn (by have := hwf.inFile i hi hload; omega)

/-- The loader writes what the header says. -/
theorem Plain.loadedByte (h : Plain x hdr) (hwf : WellFormed x hdr file) (hfile : FileOf x file)
    (hva : ByteOf x hdr i n va) : loadedByte x hdr i n = segmentByte (x.phdr i) file n := by
  have hlt := hva.lt_memsz
  have hlen := hfile.length_lt
  have hin := hwf.inFile i hva.lt hva.load
  have hle : (x.phdr i).filesz.toNat ≤ (x.phdr i).memsz.toNat := hwf.filesz_le i hva.lt hva.load
  have hzero : (x.phdr i).memsz ≠ 0#32 := by
    intro hzero
    rw [hzero] at hlt
    exact absurd hlt (Nat.not_lt_zero _)
  obtain ⟨kind, hkind, hdata⟩ := hwf.kindOf hva.lt hva.load
  rw [Exec.loadedByte, if_pos (h.last i hva.lt hva.load hzero), segmentByte]
  by_cases hwrite : Has (x.phdr i).flags pfW
  · obtain rfl := hdata.mpr hwrite
    have hone := h.bss i hva.lt hva.load hwrite
    have hread := readSize_data_le hkind
    by_cases hfilesz : n < (x.phdr i).filesz.toNat
    · have hsize : n < (readSize (x.phdr i)).toNat := by
        unfold readSize
        split
        next => exact hfilesz
        next => exact hlt
      rw [if_neg fun hh => hfilesz.ne hh.2, if_pos hfilesz,
        hwf.read_get hfile hva.lt hva.load (by omega) hsize hfilesz]
    · have hn : n = (x.phdr i).filesz.toNat := by omega
      rw [if_neg hfilesz, if_pos ⟨⟨hkind, BitVec.lt_def.mpr (by omega)⟩, hn⟩]
  · have hbss : ¬ HasBss (x.phdr i) := fun hbss =>
      hwrite (hdata.mp (Option.some.inj (hkind.symm.trans hbss.1)))
    rw [if_neg fun hh => hbss hh.1, readSize, if_neg hbss]
    by_cases hfilesz : n < (x.phdr i).filesz.toNat
    · rw [if_pos hfilesz]
      refine hwf.read_get hfile hva.lt hva.load ?_ hlt hfilesz
      by_contra hbig
      -- then nothing would be read, and there is more in memory than in the file
      have htail := h.tail i hva.lt hva.load hwrite (x.phdr i).filesz.toNat le_rfl (by omega)
      rw [hfile.refused _ _ (not_lt.mp hbig)] at htail
      cases htail
    · rw [if_neg hfilesz]
      exact h.tail i hva.lt hva.load hwrite n (not_lt.mp hfilesz) hlt

end Yak.Exec
