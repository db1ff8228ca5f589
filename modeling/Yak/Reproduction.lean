import Yak.LoaderRuns
import Yak.SegmentContents

/-!
# What a new program finds in its memory

After a call of `arch_exec_elf` which succeeds, a byte of a segment is what the loader has written
there, or else what the frame of its page held before the call.
-/

namespace Yak.Exec

open Paging (Frame Machine Has pagePresent pageUser frameNo pgDirIndex pgTabIndex kernelVirtBase)
open Paging.Chunk (Owned AllocatesOutside firstUncounted allocatesOutside_firstUncounted
  not_has_zero CountsBelow)

/-- The byte which the program reads at an address. -/
def userByte (m : Machine) (cr3 va : BitVec 32) : Option (BitVec 8) :=
  Machine.read { m with cr3 := fun _ => some cr3 } ⟨0, Process.zero_lt_nrProc⟩ va

/-- Each segment is in memory as its header says. -/
def Reproduces (x : ExecFile) (hdr : ElfEhdr) (file : List (BitVec 8)) (m : Machine)
    (cr3 : BitVec 32) : Prop :=
  ∀ i < hdr.phnum.toNat, (x.phdr i).type = ptLoad →
    (∀ n < (x.phdr i).filesz.toNat, userByte m cr3 ((x.phdr i).vaddr + BitVec.ofNat 32 n) =
      file[(x.phdr i).offset.toNat + n]?) ∧
    ∀ n, (x.phdr i).filesz.toNat ≤ n → n < (x.phdr i).memsz.toNat →
      userByte m cr3 ((x.phdr i).vaddr + BitVec.ofNat 32 n) = some 0#8

/-- No frame which may be allocated holds by chance what the header of a segment says. -/
def Stale (reserved : Set Frame) (m : Machine) (x : ExecFile) (hdr : ElfEhdr)
    (file : List (BitVec 8)) : Prop :=
  ∀ f, ¬ Owned reserved m f → ∀ i n va, ByteOf x hdr i n va →
    segmentByte (x.phdr i) file n ≠ some (byteIn (m.mem f) va)

variable {reserved : Set Frame} {m m' : Machine} {cr3 va : BitVec 32} {k : Kernel} {x : ExecFile}
  {hdr : ElfEhdr} {file : List (BitVec 8)} {s s' : Caller} {strings : Strings} {i n : ℕ}

theorem Separate.userByte (h : Separate m (frameNo cr3)) (hva : va < kernelVirtBase) :
    userByte m cr3 va = byteAt m (frameNo cr3) va := by
  have hslot := pgDirIndex_lt hva
  unfold Exec.userByte Machine.read Machine.leaf byteAt
  simp only [Machine.dir, Option.map_some]
  by_cases hdir : Has (m.mem (frameNo cr3) (pgDirIndex va)) pagePresent
  · have huser := h.user (entryOf_table.mpr ⟨hslot, hdir, rfl⟩)
    have htable := frameOf_table.mpr ⟨hslot, hdir, rfl⟩
    rw [if_pos ⟨hdir, huser⟩]
    by_cases hpage : Has (m.mem (frameNo (m.mem (frameNo cr3) (pgDirIndex va))) (pgTabIndex va))
        pagePresent
    · have hentry : entryOf m (frameNo cr3) (placeOf va) = some _ :=
        entryOf_page.mpr ⟨_, htable, hpage, rfl⟩
      rw [if_pos hpage, frameOf, hentry]
      simp only [Option.map_some, if_pos (h.user hentry)]
      rfl
    · rw [if_neg hpage, frameOf, placeOf, entryOf, if_neg fun hh => hpage hh.2.2]
      rfl
  · rw [if_neg fun hh => hdir hh.1, frameOf, placeOf, entryOf, if_neg fun hh => hdir hh.2.1]
    rfl

theorem Caller.archExecElf_zero (h : s.archExecElf k x strings = .ok (0, s'))
    (hehdr : x.ehdr = some hdr) : s.execImage k x strings hdr = .ok (0, s') := by
  have hrefused : (.ok (-enoexec, s) : Except Stop (ℤ × Caller)) ≠ .ok (0, s') := fun heq =>
    absurd (Prod.mk.inj (Except.ok.inj heq)).1 (by decide)
  unfold archExecElf at h
  rw [hehdr] at h
  dsimp only at h
  split_ifs at h
  · exact absurd h hrefused
  · exact absurd h hrefused
  · exact absurd h hrefused
  · exact h

/-- Before the segments are read, the new pages are as their frames were. -/
structure Replaced (reserved : Set Frame) (m₀ : Machine) (top : BitVec 32) (m : Machine)
    (cr3 : BitVec 32) : Prop extends Separate m (frameNo cr3) where
  old : ∀ va b, va < top → byteAt m (frameNo cr3) va = some b →
    ∃ f, ¬ Owned reserved m₀ f ∧ byteIn (m₀.mem f) va = b

/-- The loader begins where the new address space has taken the place of the old one. -/
theorem Ready.execImage (h : Ready reserved k s.machine s.cr3)
    (hrun : s.execImage k x strings hdr = .ok (0, s')) :
    ∃ m, Replaced reserved s.machine (kernelVirtBase - stackGap strings) m s.cr3 ∧
      elf32ReadImage k s.image s.cr3 x (segments x hdr) m = .ok s'.machine ∧ s'.cr3 = s.cr3 := by
  unfold Caller.execImage at hrun
  obtain ⟨⟨m₁, nextCr3⟩, hvalloc, hrun⟩ := bind_eq_ok.mp hrun
  obtain ⟨m₂, hfree, hrun⟩ := bind_eq_ok.mp hrun
  obtain ⟨m₃, hpage, hrun⟩ := bind_eq_ok.mp hrun
  obtain ⟨m₄, hstack, hrun⟩ := bind_eq_ok.mp hrun
  obtain ⟨m₅, hread, hrun⟩ := bind_eq_ok.mp hrun
  obtain ⟨herr, rfl⟩ := Prod.mk.inj (Except.ok.inj hrun)
  cases nextCr3 with
  | none => exact absurd herr (by decide)
  | some pgDir =>
      have hbuilding := h.valloc hvalloc
      have hdir : ¬ TableOf m₁ (frameNo s.cr3) (frameNo s.cr3) := by
        rw [TableOf, hbuilding.old_same]
        exact h.dir_ne
      obtain ⟨hs₃, hentry, hcontents⟩ := hbuilding.copied (freeOld_releases hdir hfree) hpage
      obtain ⟨hs₄, hwrites⟩ := hs₃.putBytes hstack
      refine ⟨m₄, ⟨hs₄, fun va b hva hb => ?_⟩, hread, rfl⟩
      rw [hwrites.others va (Or.inl hva), byteAt, frameOf_congr hentry] at hb
      obtain ⟨f, hf, hbyte⟩ := Option.map_eq_some_iff.mp hb
      refine ⟨f, hbuilding.new _ f hf, ?_⟩
      rw [← hbuilding.page_same hf, ← hcontents _ _ f hf]
      exact hbyte

/-- A byte of a segment after the call. -/
theorem WellFormed.userByte_eq (hwf : WellFormed x hdr file) (hfile : FileOf x file)
    (hbss : OwnBss x hdr) (h : Separate m (frameNo cr3)) {image : ExecImage}
    (hrun : elf32ReadImage k image cr3 x (segments x hdr) m = .ok m') (hva : ByteOf x hdr i n va) :
    userByte m' cr3 va = (loadedByte x hdr i n).or (byteAt m (frameNo cr3) va) := by
  have hbelow := hwf.below i hva.lt hva.load
  have hlt := hva.lt_memsz
  have heq := hva.toNat_eq
  have hbase : (kernelVirtBase - userStackSize).toNat ≤ kernelVirtBase.toNat := by decide
  rw [(h.readImage hrun).1.userByte (BitVec.lt_def.mpr (by omega)),
    hwf.readImage hfile hbss h hrun hva]

theorem WellFormed.byteOf (hwf : WellFormed x hdr file) (hi : i < hdr.phnum.toNat)
    (hload : (x.phdr i).type = ptLoad) (hn : n < (x.phdr i).memsz.toNat) :
    ByteOf x hdr i n ((x.phdr i).vaddr + BitVec.ofNat 32 n) := by
  have hbelow := hwf.below i hi hload
  have hbase : (kernelVirtBase - userStackSize).toNat < 2 ^ 32 := BitVec.isLt _
  exact ⟨hi, hload, hn, toNat_add_ofNat (by omega)⟩

theorem WellFormed.lt_stack (hwf : WellFormed x hdr file) (hva : ByteOf x hdr i n va)
    {gap : BitVec 32} (hgap : gap ≤ userStackSize) : va < kernelVirtBase - gap := by
  have hbelow := hwf.below i hva.lt hva.load
  have hlt := hva.lt_memsz
  have heq := hva.toNat_eq
  have hle : gap.toNat ≤ userStackSize.toNat := hgap
  have hbase : (kernelVirtBase - userStackSize).toNat = 0xBFE00000 := by decide
  have hsize : userStackSize.toNat = 0x200000 := by decide
  have hvirt : kernelVirtBase.toNat = 0xC0000000 := by decide
  rw [BitVec.lt_def, BitVec.toNat_sub]
  omega

theorem WellFormed.reproduces_iff (hwf : WellFormed x hdr file) :
    Reproduces x hdr file m cr3 ↔ ∀ i n va, ByteOf x hdr i n va →
      userByte m cr3 va = segmentByte (x.phdr i) file n := by
  constructor
  · intro h i n va hva
    obtain ⟨hfile, hzero⟩ := h i hva.lt hva.load
    obtain rfl : (x.phdr i).vaddr + BitVec.ofNat 32 n = va := by
      refine BitVec.eq_of_toNat_eq ?_
      rw [(hwf.byteOf hva.lt hva.load hva.lt_memsz).toNat_eq, hva.toNat_eq]
    unfold segmentByte
    split
    next hlt => exact hfile n hlt
    next hge => exact hzero n (not_lt.mp hge) hva.lt_memsz
  · intro h i hi hload
    have hle : (x.phdr i).filesz.toNat ≤ (x.phdr i).memsz.toNat := hwf.filesz_le i hi hload
    refine ⟨fun n hn => ?_, fun n hn hn' => ?_⟩
    · rw [h i n _ (hwf.byteOf hi hload (by omega)), segmentByte, if_pos hn]
    · rw [h i n _ (hwf.byteOf hi hload hn'), segmentByte, if_neg (not_lt.mpr hn)]

/-- What a file has of its segments is there. -/
theorem WellFormed.exists_segmentByte (hwf : WellFormed x hdr file) (hva : ByteOf x hdr i n va) :
    ∃ b, segmentByte (x.phdr i) file n = some b := by
  unfold segmentByte
  split
  next hlt =>
    have hin := hwf.inFile i hva.lt hva.load
    exact ⟨_, List.getElem?_eq_getElem (by omega)⟩
  next => exact ⟨_, rfl⟩

/-- A file whose bytes are all written by the loader, as its headers say, is plain. -/
theorem WellFormed.plain (hwf : WellFormed x hdr file) (hfile : FileOf x file)
    (h : ∀ i n va, ByteOf x hdr i n va →
      loadedByte x hdr i n = segmentByte (x.phdr i) file n) : Plain x hdr := by
  have hkept : ∀ i < hdr.phnum.toNat, (x.phdr i).type = ptLoad →
      0 < (x.phdr i).memsz.toNat → Kept x hdr i := by
    intro i hi hload hpos
    by_contra hnot
    have hbyte := h i 0 _ (hwf.byteOf hi hload hpos)
    obtain ⟨b, hb⟩ := hwf.exists_segmentByte (hwf.byteOf hi hload hpos)
    rw [loadedByte, if_neg hnot, hb] at hbyte
    cases hbyte
  refine ⟨fun i hi hload hzero => hkept i hi hload ?_, ?_, ?_⟩
  · exact Nat.pos_of_ne_zero fun heq => hzero (BitVec.eq_of_toNat_eq heq)
  · intro i hi hload hwrite n hn hn'
    obtain ⟨kind, hkind, hdata⟩ := hwf.kindOf hi hload
    have hbss : ¬ HasBss (x.phdr i) := fun hbss =>
      hwrite (hdata.mp (Option.some.inj (hkind.symm.trans hbss.1)))
    have hbyte := h i n _ (hwf.byteOf hi hload hn')
    rw [loadedByte, if_pos (hkept i hi hload (by omega)), if_neg fun hh => hbss hh.1, readSize,
      if_neg hbss, segmentByte, if_neg (not_lt.mpr hn)] at hbyte
    exact hbyte
  · intro i hi hload hwrite
    obtain ⟨kind, hkind, hdata⟩ := hwf.kindOf hi hload
    by_contra hmore
    have hbss : HasBss (x.phdr i) := by
      rw [hdata.mpr hwrite] at hkind
      exact ⟨hkind, BitVec.lt_def.mpr (by omega)⟩
    have hbyte := h i ((x.phdr i).filesz.toNat + 1) _ (hwf.byteOf hi hload (by omega))
    rw [loadedByte, if_pos (hkept i hi hload (by omega)), if_neg fun hh => absurd hh.2 (by omega),
      readSize, if_pos hbss, segmentByte, if_neg (by omega), List.getElem?_eq_none] at hbyte
    · cases hbyte
    · exact (hfile.read_le _ _).trans (Nat.le_succ _)

theorem Plain.reproduces (hplain : Plain x hdr) (h : Ready reserved k s.machine s.cr3)
    (hfile : FileOf x file) (hehdr : x.ehdr = some hdr) (hwf : WellFormed x hdr file)
    (hrun : s.archExecElf k x strings = .ok (0, s')) :
    Reproduces x hdr file s'.machine s'.cr3 := by
  obtain ⟨m, hreplaced, hread, hcr3⟩ := h.execImage (Caller.archExecElf_zero hrun hehdr)
  rw [hcr3, hwf.reproduces_iff]
  intro i n va hva
  obtain ⟨b, hb⟩ := hwf.exists_segmentByte hva
  rw [hwf.userByte_eq hfile hplain.ownBss hreplaced.toSeparate hread hva,
    hplain.loadedByte hwf hfile hva, hb, Option.some_or]

/-- Where no frame holds by chance what it should, the file is plain. -/
theorem Reproduces.plain (hall : Reproduces x hdr file s'.machine s'.cr3)
    (h : Ready reserved k s.machine s.cr3) (hfile : FileOf x file) (hehdr : x.ehdr = some hdr)
    (hwf : WellFormed x hdr file) (hrun : s.archExecElf k x strings = .ok (0, s'))
    (hbss : OwnBss x hdr) (hgap : stackGap strings ≤ userStackSize)
    (hstale : Stale reserved s.machine x hdr file) : Plain x hdr := by
  obtain ⟨m, hreplaced, hread, hcr3⟩ := h.execImage (Caller.archExecElf_zero hrun hehdr)
  rw [hcr3, hwf.reproduces_iff] at hall
  refine hwf.plain hfile fun i n va hva => ?_
  have hbyte := hall i n va hva
  rw [hwf.userByte_eq hfile hbss hreplaced.toSeparate hread hva] at hbyte
  cases hloaded : loadedByte x hdr i n with
  | some b => rwa [hloaded, Option.some_or] at hbyte
  | none =>
      -- the byte of the frame would be there by chance
      obtain ⟨b, hb⟩ := hwf.exists_segmentByte hva
      rw [hloaded, Option.none_or, hb] at hbyte
      obtain ⟨f, hfree, hf⟩ := hreplaced.old va b (hwf.lt_stack hva hgap) hbyte
      exact absurd (hb.trans (congrArg some hf.symm)) (hstale f hfree i n va hva)

/-- A call which succeeds reproduces each segment of a plain file.  If no data segment with a
section without contents is followed by another one, and the strings fit in the stack, it
reproduces no other file but where the frames held its bytes before. -/
theorem reproduces_of_archExecElf (h : Ready reserved k s.machine s.cr3) (hfile : FileOf x file)
    (hehdr : x.ehdr = some hdr) (hwf : WellFormed x hdr file)
    (hrun : s.archExecElf k x strings = .ok (0, s')) :
    (Plain x hdr → Reproduces x hdr file s'.machine s'.cr3) ∧
      (OwnBss x hdr → stackGap strings ≤ userStackSize → Stale reserved s.machine x hdr file →
        Reproduces x hdr file s'.machine s'.cr3 → Plain x hdr) :=
  ⟨fun hplain => hplain.reproduces h hfile hehdr hwf hrun,
    fun hbss hgap hstale hall => hall.plain h hfile hehdr hwf hrun hbss hgap hstale⟩

/-! ## A file with one segment -/

/-- All memory is full of ones, but for the page directory in the frame 1. -/
def fullMachine : Machine where
  mem f := if f = 1#20 then fun _ => 0#32 else fun _ => 0xFFFFFFFF#32
  counts f := if f = 0#20 then 1#8 else 0#8
  tmpPage := 0#20
  cr3 _ := some 0x1000#32

def fullKernel : Kernel := ⟨fun _ => 0#32, 0x100000#32, firstUncounted (2 ^ 20)⟩

/-- The first process, in the code of the kernel for it. -/
def firstCaller : Caller where
  machine := fullMachine
  cr3 := 0x1000#32
  nextCr3 := 0#32
  eip := 0x100000#32
  esp := 0xBFFFFFF0#32
  image := { ExecImage.empty 0x100000#32 with textVaddr := 0x100000#32, textSize := 0x1000#32 }
  fds := ⟨fun _ => ⟨none, none, 0, 0, 0, 0⟩, fun _ => none, 0⟩

/-- A data segment with one byte in the file. -/
def dataPhdr (memsz : BitVec 32) : ElfPhdr :=
  ⟨ptLoad, 0#32, 0x400000#32, 1#32, memsz, pfR ||| pfW⟩

def dataEhdr : ElfEhdr where
  ident i := [0x7F#8, 0x45#8, 0x4C#8, 0x46#8, 1#8, 1#8, 1#8, 0#8].getD i 0#8
  type := 2#16
  machine := 3#16
  entry := 0x400000#32
  phnum := 1#16

def dataBytes : List (BitVec 8) := [0x2A#8]

def dataFile (memsz : BitVec 32) : ExecFile where
  namei := (some 0, 0)
  regular := true
  executable := true
  ehdr := some dataEhdr
  phdr _ := dataPhdr memsz
  read off count :=
    if count.toNat < 2 ^ 31 then (dataBytes.drop off.toNat).take count.toNat else []

theorem fullMachine_dir : fullMachine.mem (frameNo 0x1000#32) = fun _ => 0#32 := by
  have hframe : frameNo 0x1000#32 = 1#20 := by decide
  simp only [fullMachine, hframe, if_true]

/-- One argument of one character. -/
def oneString : Strings := ⟨[2], [], fun _ => 0#8⟩

theorem oneString_gap : stackGap oneString ≤ userStackSize := by decide

theorem ready_full : Ready {1#20} fullKernel fullMachine 0x1000#32 := by
  have hempty : ∀ t, ¬ TableOf fullMachine (frameNo 0x1000#32) t := by
    rintro t ⟨i, hpresent, -⟩
    rw [fullMachine_dir] at hpresent
    exact not_has_zero _ hpresent
  have halloc : AllocatesOutside {1#20} fullKernel.alloc := by
    simp only [fullKernel]
    exact allocatesOutside_firstUncounted
  refine ⟨halloc, fun _ _ => not_has_zero _,
    fun _ h => absurd h (not_has_zero _), Or.inl ?_, hempty _, ?_⟩
  · exact Set.mem_singleton_iff.mpr (by decide)
  · rintro f (ht | ⟨t, ht, -⟩)
    · exact absurd ht (hempty f)
    · exact absurd ht (hempty t)

theorem fileOf_dataFile (memsz : BitVec 32) : FileOf (dataFile memsz) dataBytes := by
  refine ⟨by decide, fun off count => ?_, fun off count n hcount hn hlt => ?_,
    fun off count h => ?_⟩
  · unfold dataFile
    dsimp only
    split
    next => exact (List.length_take_le _ _)
    next => exact Nat.zero_le _
  · unfold dataFile
    dsimp only
    rw [if_pos hcount, List.getElem?_take_of_lt hn, List.getElem?_drop]
  · exact if_neg (not_lt.mpr h)

/-- Files with a data segment in one page table are well formed. -/
theorem wellFormed_dataFile {memsz : BitVec 32} (hpos : 1#32 ≤ memsz) (hle : memsz ≤ 0x1000#32) :
    WellFormed (dataFile memsz) dataEhdr dataBytes := by
  have hone : ∀ i < dataEhdr.phnum.toNat, i = 0 := fun i hi => Nat.lt_one_iff.mp hi
  have hflags : Has (pfR ||| pfW) pfR ∧ ¬ (Has (pfR ||| pfW) pfX ∧ Has (pfR ||| pfW) pfW) := by
    decide
  have hbelow : 0x400000 + 0x1000 ≤ (kernelVirtBase - userStackSize).toNat := by decide
  have hle' : memsz.toNat ≤ 0x1000 := hle
  exact ⟨fun _ _ _ => hflags, fun _ _ _ => hpos,
    fun _ _ _ => (Nat.add_le_add_left hle' _).trans hbelow, fun _ _ _ => le_rfl,
    fun i hi j hj _ _ hne => absurd ((hone i hi).trans (hone j hj).symm) hne⟩

theorem dataFlags : ¬ (Has (pfR ||| pfW) pfX ∧ Has (pfR ||| pfW) pfR) ∧
    ¬ (Has (pfR ||| pfW) pfR ∧ ¬ Has (pfR ||| pfW) pfW) ∧
    (Has (pfR ||| pfW) pfR ∧ Has (pfR ||| pfW) pfW) := by
  decide

/-- The data has a section without contents. -/
theorem segments_dataFile {memsz : BitVec 32} (hpos : 1#32 < memsz) :
    segments (dataFile memsz) dataEhdr =
      ⟨⟨⟨0#32, 0#32, 0#32, 0#32⟩, 0x400000#32, 0x400000#32, memsz, 0x400001#32, memsz - 1#32⟩,
        0#32, 0#32, 0#32⟩ := by
  have hfold : segments (dataFile memsz) dataEhdr =
      Segments.add ⟨ExecImage.empty 0x400000#32, 0#32, 0#32, 0#32⟩ (dataPhdr memsz) := rfl
  obtain ⟨hexec, hread, hwrite⟩ := dataFlags
  rw [hfold, Segments.add, dataPhdr]
  dsimp only
  rw [if_pos rfl, if_neg hexec, if_neg hread, if_pos hwrite, if_pos hpos]
  rfl

/-- The call of the first process does not fail. -/
theorem exists_exec_dataFile (memsz : BitVec 32) (hpos : 1#32 < memsz) (hle : memsz ≤ 0x1000#32) :
    ∃ s', firstCaller.archExecElf fullKernel (dataFile memsz) oneString = .ok (0, s') := by
  have hle' : memsz.toNat ≤ 0x1000 := hle
  have hpos' : 1 < memsz.toNat := hpos
  have hone : (0x400000#32).toNat = 0x400000 := rfl
  have hnext : (0x400001#32).toNat = 0x400001 := rfl
  have hcounts : CountsBelow 2 fullMachine := by
    intro f hf
    refine if_neg ?_
    rintro rfl
    exact absurd hf (by decide)
  have halloc : fullKernel.alloc = firstUncounted (2 ^ 20) := by simp only [fullKernel]
  have himage : DataOnly (segments (dataFile memsz) dataEhdr).image := by
    rw [segments_dataFile hpos]
    refine ⟨rfl, rfl, rfl, ?_, ?_, ?_, ?_⟩ <;> dsimp only <;> omega
  have hsub : (memsz - 1#32).toNat ≤ memsz.toNat := by
    rw [BitVec.toNat_sub_of_le (BitVec.le_of_lt hpos)]
    exact Nat.sub_le _ _
  obtain ⟨s', hrun⟩ := ready_full.exists_execImage (s := firstCaller) (x := dataFile memsz)
    halloc hcounts (by decide) rfl oneString_gap himage (fileOf_dataFile memsz).read_le
    (by rw [segments_dataFile hpos]; exact hsub)
    (fun _ => by rw [segments_dataFile hpos]; dsimp only; omega)
  refine ⟨s', ?_⟩
  have hverify : ¬ elfVerifyHdr dataEhdr = false := by decide
  have hcheck : elfCheckHdr dataEhdr execParams = etExec := by decide
  unfold Caller.archExecElf
  simp only [dataFile, hverify, hcheck]
  rw [if_neg (by decide), if_neg (not_not.mpr rfl)]
  exact hrun

theorem kept_dataFile (memsz : BitVec 32) : Kept (dataFile memsz) dataEhdr 0 := by
  refine kept_iff.mpr ⟨.data, ?_⟩
  have hkind : kindOf (dataPhdr memsz) = some .data := by
    obtain ⟨hexec, hread, hwrite⟩ := dataFlags
    rw [kindOf, dataPhdr]
    dsimp only
    rw [if_pos rfl, if_neg hexec, if_neg hread, if_pos hwrite]
  exact if_pos hkind

/-- One byte more than in the file is cleared. -/
theorem reproduces_dataFile : ∃ s', firstCaller.archExecElf fullKernel (dataFile 2#32) oneString =
    .ok (0, s') ∧ Reproduces (dataFile 2#32) dataEhdr dataBytes s'.machine s'.cr3 := by
  obtain ⟨s', hrun⟩ := exists_exec_dataFile 2#32 (by decide) (by decide)
  refine ⟨s', hrun, (reproduces_of_archExecElf ready_full (fileOf_dataFile 2#32) rfl
    (wellFormed_dataFile (by decide) (by decide)) hrun).1 ⟨fun i hi _ _ => ?_,
      fun i hi _ hread => ?_, fun i hi _ _ => ?_⟩⟩
  · obtain rfl := Nat.lt_one_iff.mp hi
    exact kept_dataFile 2#32
  · have hwrite : Has (pfR ||| pfW) pfW := by decide
    exact absurd hwrite hread
  · exact le_rfl

theorem byteIn_full (va : BitVec 32) : byteIn (fun _ => 0xFFFFFFFF#32) va = 0xFF#8 := by
  have hbyte : va.toNat % 4 < 4 := Nat.mod_lt _ (by decide)
  change Machine.getByte 0xFFFFFFFF#32 (va.toNat % 4) = 0xFF#8
  generalize va.toNat % 4 = n at hbyte
  interval_cases n <;> decide

/-- The second byte past the part in the file is what the frame held before. -/
theorem not_reproduces_bss : ¬ ∀ (reserved : Set Frame) (k : Kernel) (s : Caller) (x : ExecFile)
    (strings : Strings) (s' : Caller) (hdr : ElfEhdr) (file : List (BitVec 8)),
    Ready reserved k s.machine s.cr3 → FileOf x file → x.ehdr = some hdr → WellFormed x hdr file →
    s.archExecElf k x strings = .ok (0, s') → Reproduces x hdr file s'.machine s'.cr3 := by
  intro hall
  obtain ⟨s', hrun⟩ := exists_exec_dataFile 3#32 (by decide) (by decide)
  have hwf : WellFormed (dataFile 3#32) dataEhdr dataBytes :=
    wellFormed_dataFile (by decide) (by decide)
  have hone := hall {1#20} fullKernel firstCaller (dataFile 3#32) oneString s' dataEhdr dataBytes
    ready_full (fileOf_dataFile 3#32) rfl hwf hrun
  have hbss : OwnBss (dataFile 3#32) dataEhdr := by
    intro i hi hbss
    obtain rfl := Nat.lt_one_iff.mp hi
    exact (kept_dataFile 3#32).lastOf_eq hbss.1
  have hstale : Stale {1#20} firstCaller.machine (dataFile 3#32) dataEhdr dataBytes := by
    intro f hf i n va _ hbyte
    have hne : f ≠ 1#20 := fun heq => hf (Or.inl (Set.mem_singleton_iff.mpr heq))
    have hpage : firstCaller.machine.mem f = fun _ => 0xFFFFFFFF#32 := if_neg hne
    rw [hpage, byteIn_full] at hbyte
    unfold segmentByte at hbyte
    split at hbyte
    next hlt =>
      obtain rfl := Nat.lt_one_iff.mp hlt
      cases hbyte
    next => cases hbyte
  have hplain := hone.plain ready_full (fileOf_dataFile 3#32) rfl hwf hrun hbss oneString_gap hstale
  exact absurd (hplain.bss 0 (by decide) rfl (by decide)) (by decide)

end Yak.Exec
