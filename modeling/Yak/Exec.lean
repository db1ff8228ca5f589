import Yak.CloseOnExec
import Yak.FaultHandler

/-!
# `execve`

A transcription of `kernel_execve` with `arch_exec_elf` and what it calls: the checks of the
header, the segments, the new page directory, and the stack.  What the file system answers is
outside.  A write of the kernel to an address of the user may fault, and the handler may
terminate the process.
-/

namespace Yak.Exec

open Paging (Machine Page Index Has pagePresent pageWritable pageUser frameNo pgDirIndex pgTabIndex
  kernelVirtBase pfProtection pfWrite)
open Paging.Machine (wordIndex setByte)
open PageFrames (noFreePage)
open Files (Env Fds nrOpen efault einval eacces)

def enoexec : ℤ := 45
def enomem : ℤ := 48

/-- Why a call does not come back. -/
inductive Stop where
  /-- `kernel_exit(SIGSEGV)` -/
  | terminated
  | halted (h : Halt)
  deriving DecidableEq

/-- `struct exec_image` -/
structure ExecImage extends Paging.ExecImage where
  entry : BitVec 32
  dataVaddr : BitVec 32
  dataSize : BitVec 32
  bssVaddr : BitVec 32
  bssSize : BitVec 32

/-- `Elf32_Ehdr`, as far as it is used. -/
structure ElfEhdr where
  ident : ℕ → BitVec 8
  type : BitVec 16
  machine : BitVec 16
  entry : BitVec 32
  phnum : BitVec 16

/-- `Elf32_Phdr`, as far as it is used. -/
structure ElfPhdr where
  type : BitVec 32
  offset : BitVec 32
  vaddr : BitVec 32
  filesz : BitVec 32
  memsz : BitVec 32
  flags : BitVec 32

/-- What a call learns of the file to run: its inode, and `err`; the header, if all of it can
be read; what `phdr` holds after each read; and the bytes that a read of `count` bytes
from an offset puts in place. -/
structure ExecFile where
  namei : Option ℕ × ℤ
  regular : Bool
  executable : Bool
  ehdr : Option ElfEhdr
  phdr : ℕ → ElfPhdr
  read : BitVec 32 → BitVec 32 → List (BitVec 8)

/-- The lengths of the strings in `argv` and `envp` with their zeros, and the bytes in the
buffer of `exec_set_up_stack`. -/
structure Strings where
  argv : List ℕ
  envp : List ℕ
  buffer : ℕ → BitVec 8

/-- What does not change during a call. -/
structure Kernel where
  initPageDirectory : Page
  startUserHead : BitVec 32
  alloc : Machine → BitVec 32

/-- The process which makes the call, with its saved registers. -/
structure Caller where
  machine : Machine
  cr3 : BitVec 32
  nextCr3 : BitVec 32
  eip : BitVec 32
  esp : BitVec 32
  image : ExecImage
  fds : Fds

/-! ## Headers -/

def elfVerifyHdr (hdr : ElfEhdr) : Bool :=
  hdr.ident 0 = 0x7F#8 ∧ hdr.ident 1 = 0x45#8 ∧ hdr.ident 2 = 0x4C#8 ∧ hdr.ident 3 = 0x46#8

/-- `struct exec_elf_params` -/
structure ExecElfParams where
  endian : BitVec 8
  bits : BitVec 8
  abi : BitVec 8
  machine : BitVec 16

def elfClass32 : BitVec 8 := 1#8

def execParams : ExecElfParams where
  endian := 1#8
  bits := elfClass32
  abi := 0#8
  machine := 3#16

def elfCheckHdr (hdr : ElfEhdr) (param : ExecElfParams) : ℤ :=
  if param.bits ≠ elfClass32 then -1
  else if hdr.ident 4 ≠ param.bits then -1
  else if hdr.ident 5 ≠ param.endian then -1
  else if hdr.ident 7 ≠ param.abi then -1
  else if hdr.machine ≠ param.machine then -1
  else hdr.type.toNat

def etExec : ℤ := 2

def ptLoad : BitVec 32 := 1#32
def pfX : BitVec 32 := 1#32
def pfW : BitVec 32 := 2#32
def pfR : BitVec 32 := 4#32

/-- The image which is put together, and the offsets of its segments in the file. -/
structure Segments where
  image : ExecImage
  textOff : BitVec 32
  dataOff : BitVec 32
  rodataOff : BitVec 32

/-- The body of the loop of `elf32_load_elf`. -/
def Segments.add (s : Segments) (phdr : ElfPhdr) : Segments :=
  if phdr.type = ptLoad then
    if Has phdr.flags pfX ∧ Has phdr.flags pfR then
      { s with
        image := { s.image with textVaddr := phdr.vaddr, textSize := phdr.memsz }
        textOff := phdr.offset }
    else if Has phdr.flags pfR ∧ ¬ Has phdr.flags pfW then
      { s with
        image := { s.image with rodataVaddr := phdr.vaddr, rodataSize := phdr.memsz }
        rodataOff := phdr.offset }
    else if Has phdr.flags pfR ∧ Has phdr.flags pfW then
      let image := { s.image with dataVaddr := phdr.vaddr, dataSize := phdr.memsz }
      { s with
        image :=
          if phdr.memsz > phdr.filesz then
            { image with
              bssVaddr := phdr.vaddr + phdr.filesz
              bssSize := phdr.memsz - phdr.filesz }
          else image
        dataOff := phdr.offset }
    else s
  else s

def ExecImage.empty (entry : BitVec 32) : ExecImage :=
  ⟨⟨0#32, 0#32, 0#32, 0#32⟩, entry, 0#32, 0#32, 0#32, 0#32⟩

/-- The image of a file with this header.  The offsets are not initialised, and not used where
there is no segment. -/
def segments (x : ExecFile) (hdr : ElfEhdr) : Segments :=
  (List.range hdr.phnum.toNat).foldl (fun s i => s.add (x.phdr i))
    ⟨ExecImage.empty hdr.entry, 0#32, 0#32, 0#32⟩

/-! ## Mapping -/

section Mapping

variable (alloc : Machine → BitVec 32)

/-- The inner loop of `virt_map_chunk` from `tmp` on, with the entries of the table that are
left, and where `tmp` and `phys` are then. -/
def mapPages (limit flags : BitVec 32) :
    List Index → (tmp phys : BitVec 32) → Machine → Machine × Option (BitVec 32 × BitVec 32)
  | [], tmp, phys, m => (m, some (tmp, phys))
  | i :: is, tmp, phys, m =>
      if tmp > limit then (m, some (tmp, phys))
      else if phys = 0#32 then
        let (page, m) := m.pageFrameAlloc alloc
        if page = BitVec.ofNat 32 noFreePage then (m, none)
        else
          mapPages limit flags is (tmp + 0x1000#32) phys
            (m.setTmp i (page ||| pagePresent ||| flags))
      else
        mapPages limit flags is (tmp + 0x1000#32) (phys + 0x1000#32)
          (m.setTmp i (phys ||| pagePresent ||| flags))

/-- The page table for the entry `pgTable` of the directory, mapped, and made if there is
none. -/
def tableFor (old pgTable : BitVec 32) (m : Machine) : Machine × Option (BitVec 32) :=
  if ¬ Has pgTable pagePresent then
    let (new, m) := m.pageFrameAlloc alloc
    if new = BitVec.ofNat 32 noFreePage then (m.tmpMapPage old, none)
    else ((m.tmpMapPage new).setTmpPage fun _ => 0#32, some new)
  else (m.tmpMapPage (pgTable &&& 0xFFFFF000#32), some (pgTable &&& 0xFFFFF000#32))

/-- The outer loop of `virt_map_chunk`, with `n` tables to go.  The number `j` of the table is
added to an index which moves on itself. -/
def mapTables (limit pgDir flags old : BitVec 32) :
    (n j : ℕ) → (tmp phys : BitVec 32) → Machine → Except Stop (Machine × Bool)
  | 0, _, _, _, m => .ok (m, true)
  | n + 1, j, tmp, phys, m =>
      let m := m.tmpMapPage pgDir
      if h : pgDirIndex tmp + j < 1024 then
        match tableFor alloc old (m.tmp ⟨pgDirIndex tmp + j, h⟩) m with
        | (m, none) => .ok (m, false)
        | (m, some pgTable) =>
            match mapPages alloc limit flags ((List.finRange 1024).drop (pgTabIndex tmp)) tmp phys
              m with
            | (m, none) => .ok (m, false)
            | (m, some (tmp', phys)) =>
                mapTables limit pgDir flags old n (j + 1) tmp' phys
                  ((m.tmpMapPage pgDir).setTmp ⟨pgDirIndex tmp + j, h⟩
                    (pgTable ||| pagePresent ||| flags))
      else .error (.halted .outOfBounds)

/-- The number of tables. -/
def nrTables (size : BitVec 32) : ℕ := size.toNat / 0x400000 + 1

/-- `virt_map_chunk` once the page directory is at the temporary page. -/
def mapChunk (start size pgDir flags phys old : BitVec 32) (m : Machine) :
    Except Stop (Machine × BitVec 32) := do
  let (m, done) ← mapTables alloc (start + size) pgDir flags old (nrTables size) 0
    (start &&& 0xFFFFF000#32) phys m
  .ok (if done then (m.tmpMapPage old, pgDir) else (m, 0#32))

/-- `virt_map_chunk` with a page directory and without a physical address. -/
def virtMapChunk (start size pgDir flags : BitVec 32) (m : Machine) :
    Except Stop (Machine × BitVec 32) :=
  mapChunk alloc start size pgDir flags 0#32 m.getTmpPage (m.tmpMapPage pgDir)

/-- A segment of `arch_valloc_segments`, and whether all went well. -/
def vallocSegment (vaddr size pgDir flags : BitVec 32) (m : Machine) :
    Except Stop (Machine × Bool) := do
  if size > 0#32 then
    let (m, ret) ← virtMapChunk alloc vaddr size pgDir flags m
    .ok (m, ret ≠ 0#32)
  else .ok (m, true)

end Mapping

def userStackSize : BitVec 32 := 0x200000#32

/-- `arch_valloc_segments`, with the new `next_cr3` if it does not fail. -/
def archVallocSegments (k : Kernel) (image : ExecImage) (m : Machine) :
    Except Stop (Machine × Option (BitVec 32)) := do
  let (pgDir, m) := m.pageFrameAlloc k.alloc
  if pgDir = BitVec.ofNat 32 noFreePage then .ok (m, none)
  else
    let old := m.getTmpPage
    let m := (m.tmpMapPage pgDir).setTmpPage k.initPageDirectory
    if image.textVaddr > kernelVirtBase then .ok (m, none)
    else
      let (m, done) ← vallocSegment k.alloc image.textVaddr image.textSize pgDir pageUser m
      if ¬ done then .ok (m, none)
      else if image.dataVaddr > kernelVirtBase then .ok (m, none)
      else
        let (m, done) ← vallocSegment k.alloc image.dataVaddr image.dataSize pgDir
          (pageUser ||| pageWritable) m
        if ¬ done then .ok (m, none)
        else
          let (m, done) ← vallocSegment k.alloc image.rodataVaddr image.rodataSize pgDir pageUser m
          if ¬ done then .ok (m, none)
          else
            let (m, done) ← vallocSegment k.alloc (kernelVirtBase - userStackSize) userStackSize
              pgDir (pageUser ||| pageWritable) m
            if ¬ done then .ok (m, none)
            else .ok (m.tmpMapPage old, some pgDir)

/-! ## Freeing -/

/-- `page_frame_free`, as far as the counts go. -/
def pageFrameFree (page : BitVec 32) (m : Machine) : Except Stop Machine :=
  let m := m.pageDecreaseCount page
  if m.pageGetCount page > 0 then .ok m
  else if page &&& 0xFFF#32 ≠ 0#32 then
    .error (.halted (.panic "page_frame_free: page has wrong alignment"))
  else .ok (m.pageDecreaseCount page)

section Freeing

variable {M : Type → Type} [Monad M] [MonadExceptOf Stop M]
  (free : BitVec 32 → Machine → M Machine)

/-- The body of the loop of `free_page_table`, with `free` for `page_frame_free`. -/
def freeEntry (m : Machine) (i : Index) : M Machine :=
  if Has (m.tmp i) pagePresent ∧ Has (m.tmp i) pageUser then
    let aligned := m.tmp i &&& 0xFFFFF000#32
    let m := m.pageDecreaseCount aligned
    if m.pageGetCount aligned = 0 then
      free aligned (m.setTmp i (m.tmp i &&& ~~~pagePresent))
    else pure m
  else pure m

def freePageTable (pgTable : BitVec 32) (m : Machine) : M Machine := do
  let old := m.getTmpPage
  let m ← (List.finRange 1024).foldlM (freeEntry free) (m.tmpMapPage pgTable)
  pure (m.tmpMapPage old)

/-- The loop of `virt_free_chunk`, with `n` tables to go from the entry `i`. -/
def freeTables : (n i : ℕ) → Machine → M Machine
  | 0, _, m => pure m
  | n + 1, i, m =>
      if h : i < 1024 then do
        if Has (m.tmp ⟨i, h⟩) pagePresent then
          let pgTable := m.tmp ⟨i, h⟩ &&& 0xFFFFF000#32
          let m ← freePageTable free pgTable m
          let m := m.pageDecreaseCount pgTable
          if m.pageGetCount pgTable = 0 then
            let m ← free pgTable m
            freeTables n (i + 1) m
          else freeTables n (i + 1) m
        else freeTables n (i + 1) m
      else throw (.halted .outOfBounds)

def virtFreeChunk (start len pgDir : BitVec 32) (m : Machine) : M Machine := do
  if start ≥ kernelVirtBase then
    throw (.halted (.panic "virt_free_chunck: trying to free kernel memory!"))
  else if pgDir = 0#32 then throw (.halted (.panic "virt_free_chunk: pg_dir is NULL"))
  else
    let old := m.getTmpPage
    let m ← freeTables free (len.toNat / 0x400000 + 1) (pgDirIndex start) (m.tmpMapPage pgDir)
    pure (m.tmpMapPage old)

def freeSegment (vaddr size cr3 : BitVec 32) (m : Machine) : M Machine :=
  if size > 0#32 then virtFreeChunk free vaddr size cr3 m else pure m

def freeAddressSpace (image : ExecImage) (cr3 : BitVec 32) (m : Machine) : M Machine := do
  let m ← freeSegment free image.dataVaddr image.dataSize cr3 m
  let m ← freeSegment free image.rodataVaddr image.rodataSize cr3 m
  freeSegment free image.textVaddr image.textSize cr3 m

end Freeing

/-! ## Writing to the user -/

/-- The entry of the page table for an address, if it and that of the directory are
present. -/
def mappedAt (m : Machine) (cr3 va : BitVec 32) : Option (BitVec 32) :=
  if Has (m.pgTable cr3 va) pagePresent ∧ Has (m.pgFrame cr3 va) pagePresent then
    some (m.pgFrame cr3 va)
  else none

/-- The processor stores a byte for the kernel, which may not write to what is read-only. -/
def store (m : Machine) (cr3 va : BitVec 32) (b : BitVec 8) : Option Machine :=
  match mappedAt m cr3 va with
  | none => none
  | some e =>
      if Has (m.pgTable cr3 va) pageWritable ∧ Has e pageWritable then
        some
          { m with
            mem := Function.update m.mem (frameNo e)
              (Function.update (m.mem (frameNo e)) (wordIndex va)
                (setByte (m.mem (frameNo e) (wordIndex va)) (va.toNat % 4) b)) }
      else none

def faultError (m : Machine) (cr3 va : BitVec 32) : BitVec 32 :=
  if (mappedAt m cr3 va).isSome then pfProtection ||| pfWrite else pfWrite

/-- A byte that the kernel writes to an address of the user, with the fault if there is one. -/
def putUbyte (k : Kernel) (image : ExecImage) (cr3 va : BitVec 32) (b : BitVec 8) (m : Machine) :
    Except Stop Machine :=
  if va ≥ kernelVirtBase then .error (.halted .outOfBounds)
  else
    match store m cr3 va b with
    | some m => .ok m
    | none =>
        let r := m.handlePageFault image.toExecImage cr3 (faultError m cr3 va) va k.alloc
        match r.ending with
        | .terminated => .error .terminated
        | .halted h => .error (.halted h)
        | .returned =>
            match store r.machine cr3 va b with
            | some m => .ok m
            | none => .error (.halted .endless)

def putBytes (k : Kernel) (image : ExecImage) (cr3 : BitVec 32) :
    BitVec 32 → List (BitVec 8) → Machine → Except Stop Machine
  | _, [], m => .ok m
  | va, b :: bytes, m => do
      let m ← putUbyte k image cr3 va b m
      putBytes k image cr3 (va + 1#32) bytes m

/-- `elf_read` into the memory of the user, if the segment is not empty. -/
def readSegment (k : Kernel) (current : ExecImage) (cr3 : BitVec 32) (x : ExecFile)
    (vaddr size count off : BitVec 32) (m : Machine) : Except Stop Machine :=
  if size ≠ 0#32 then putBytes k current cr3 vaddr (x.read off count) m else .ok m

/-- `elf32_read_image`.  All zeros of the section without contents go to its first byte. -/
def elf32ReadImage (k : Kernel) (current : ExecImage) (cr3 : BitVec 32) (x : ExecFile)
    (s : Segments) (m : Machine) : Except Stop Machine := do
  let image := s.image
  let m ← readSegment k current cr3 x image.textVaddr image.textSize image.textSize s.textOff m
  let m ← readSegment k current cr3 x image.dataVaddr image.dataSize
    (image.dataSize - image.bssSize) s.dataOff m
  let m ← readSegment k current cr3 x image.rodataVaddr image.rodataSize image.rodataSize
    s.rodataOff m
  (List.range image.bssSize.toNat).foldlM
    (fun m _ => putUbyte k current cr3 image.bssVaddr 0#8 m) m

/-! ## `arch_exec_elf` and `kernel_execve` -/

/-- The stack gap which `exec_set_up_stack` works out. -/
def stackGap (strings : Strings) : BitVec 32 :=
  let argvCount := strings.argv.length + 1
  let envpCount := strings.envp.length + 1
  let totalLen := BitVec.ofNat 32
    (argvCount * 4 + envpCount * 4 + strings.argv.sum + strings.envp.sum + 3 * 4)
  kernelVirtBase - ((kernelVirtBase - totalLen) &&& 0xFFFFFFF0#32)

namespace Caller

/-- The old address space is kept if its text is that of the first process. -/
def freeOld (s : Caller) (k : Kernel) (m : Machine) : Except Stop Machine :=
  if s.image.textVaddr ≠ k.startUserHead then freeAddressSpace pageFrameFree s.image s.cr3 m
  else .ok m

/-- `arch_exec_elf` once the header is accepted. -/
def execImage (s : Caller) (k : Kernel) (x : ExecFile) (strings : Strings) (hdr : ElfEhdr) :
    Except Stop (ℤ × Caller) := do
  let seg := segments x hdr
  let (m, nextCr3) ← archVallocSegments k seg.image s.machine
  let err := if nextCr3 = none then -enomem else 0
  let nextCr3 := nextCr3.getD s.nextCr3
  let gap := stackGap strings
  let m ← s.freeOld k m
  let m ← pageFrameFree nextCr3 (m.copyPageTable s.cr3 nextCr3)
  let m ← putBytes k s.image s.cr3 (kernelVirtBase - gap)
    ((List.range gap.toNat).map strings.buffer) m
  let m ← elf32ReadImage k s.image s.cr3 x seg m
  .ok (err,
    { s with machine := m, nextCr3 := nextCr3, esp := kernelVirtBase - gap, eip := hdr.entry })

def archExecElf (s : Caller) (k : Kernel) (x : ExecFile) (strings : Strings) :
    Except Stop (ℤ × Caller) :=
  match x.ehdr with
  | none => .ok (-enoexec, s)
  | some hdr =>
      if elfVerifyHdr hdr = false then .ok (-enoexec, s)
      else if elfCheckHdr hdr execParams < 0 then .ok (-enoexec, s)
      else if elfCheckHdr hdr execParams ≠ etExec then .ok (-enoexec, s)
      else s.execImage k x strings hdr

def kernelExecve (s : Caller) (k : Kernel) (e : Env) (path argv envp : BitVec 32) (x : ExecFile)
    (strings : Strings) : Except Stop (ℤ × Caller) :=
  if path = 0 ∨ e.checkUserPtr path = false then .ok (-efault, s)
  else if argv = 0 ∨ e.checkUserPtr argv = false then .ok (-efault, s)
  else if envp = 0 ∨ e.checkUserPtr envp = false then .ok (-efault, s)
  else
    match e.mountTable, x.namei.1 with
    | none, _ => .ok (-einval, s)
    | some _, none => .ok (x.namei.2, s)
    | some _, some _ =>
        if ¬ x.regular then .ok (-eacces, s)
        else if ¬ x.executable then .ok (-eacces, s)
        else do
          let (ret, s) ← s.archExecElf k x strings
          let fds ← (s.fds.closeFlagged nrOpen 0).mapError .halted
          .ok (ret, { s with fds := fds })

/-! ## What a failure leaves -/

/-- The caller has its address space, its place, its stack pointer and its files. -/
structure Intact (s s' : Caller) : Prop where
  directory : s'.machine.mem (frameNo s'.cr3) = s.machine.mem (frameNo s.cr3)
  eip : s'.eip = s.eip
  esp : s'.esp = s.esp
  fileTable : s'.fds.table = s.fds.table
  closeOnExec : s'.fds.closeOnExec = s.fds.closeOnExec
  image : s'.image = s.image

def GoodPtr (e : Env) (p : BitVec 32) : Prop := p ≠ 0 ∧ e.checkUserPtr p = true

/-- `kernel_execve` comes to `arch_exec_elf`. -/
def Reaches (e : Env) (path argv envp : BitVec 32) (x : ExecFile) : Prop :=
  GoodPtr e path ∧ GoodPtr e argv ∧ GoodPtr e envp ∧ e.mountTable ≠ none ∧ x.namei.1 ≠ none ∧
    x.regular = true ∧ x.executable = true

/-- The header is that of a program for this machine. -/
def Accepted (x : ExecFile) (hdr : ElfEhdr) : Prop :=
  x.ehdr = some hdr ∧ elfVerifyHdr hdr = true ∧ elfCheckHdr hdr execParams = etExec

/-- No descriptor is to be closed. -/
def NothingFlagged (s : Caller) : Prop :=
  ∀ i : Fin nrOpen, s.fds.closeOnExec.getLsbD i = true → s.fds.table i = none

/-- The registers are already those that the new image gets. -/
def SameRegisters (s : Caller) (hdr : ElfEhdr) (strings : Strings) : Prop :=
  s.eip = hdr.entry ∧ s.esp = kernelVirtBase - stackGap strings

variable {s s' : Caller} {k : Kernel} {e : Env} {path argv envp : BitVec 32} {x : ExecFile}
  {strings : Strings} {hdr : ElfEhdr} {ret : ℤ}

theorem Intact.refl (s : Caller) : s.Intact s := ⟨rfl, rfl, rfl, rfl, rfl, rfl⟩

theorem goodPtr_iff {p : BitVec 32} : GoodPtr e p ↔ ¬ (p = 0 ∨ e.checkUserPtr p = false) := by
  unfold GoodPtr
  rw [not_or, Bool.not_eq_false]

/-- What `arch_exec_elf` does without a look at the memory. -/
theorem execImage_ok (h : s.execImage k x strings hdr = .ok (ret, s')) :
    s'.eip = hdr.entry ∧ s'.esp = kernelVirtBase - stackGap strings ∧ s'.fds = s.fds := by
  unfold execImage at h
  obtain ⟨⟨m, nextCr3⟩, -, h⟩ := bind_eq_ok.mp h
  obtain ⟨m₁, -, h⟩ := bind_eq_ok.mp h
  obtain ⟨m₂, -, h⟩ := bind_eq_ok.mp h
  obtain ⟨m₃, -, h⟩ := bind_eq_ok.mp h
  obtain ⟨m₄, -, h⟩ := bind_eq_ok.mp h
  obtain ⟨-, rfl⟩ := Prod.mk.inj (Except.ok.inj h)
  exact ⟨rfl, rfl, rfl⟩

/-- Either the header is refused and nothing has changed, or the image has been taken. -/
theorem archExecElf_cases (h : s.archExecElf k x strings = .ok (ret, s')) :
    (s' = s ∧ ¬ ∃ hdr, Accepted x hdr) ∨
      ∃ hdr, Accepted x hdr ∧ s.execImage k x strings hdr = .ok (ret, s') := by
  have hrefused : ∀ {r : ℤ}, (.ok (r, s) : Except Stop (ℤ × Caller)) = .ok (ret, s') → s' = s :=
    fun heq => (Prod.mk.inj (Except.ok.inj heq)).2.symm
  unfold archExecElf at h
  split at h
  next hnone =>
    refine Or.inl ⟨hrefused h, ?_⟩
    rintro ⟨hdr, hsome, -⟩
    rw [hnone] at hsome
    cases hsome
  next hdr hsome =>
    have hunique : ∀ hdr', Accepted x hdr' → hdr' = hdr :=
      fun hdr' h' => Option.some.inj (h'.1.symm.trans hsome)
    split at h
    next hmagic =>
      refine Or.inl ⟨hrefused h, ?_⟩
      rintro ⟨hdr', h'⟩
      rw [← hunique hdr' h', h'.2.1] at hmagic
      cases hmagic
    next hmagic =>
      split at h
      next hbad =>
        refine Or.inl ⟨hrefused h, ?_⟩
        rintro ⟨hdr', h'⟩
        rw [← hunique hdr' h', h'.2.2] at hbad
        exact absurd hbad (by decide)
      next =>
        split at h
        next htype =>
          refine Or.inl ⟨hrefused h, ?_⟩
          rintro ⟨hdr', h'⟩
          rw [← hunique hdr' h'] at htype
          exact htype h'.2.2
        next htype =>
          exact Or.inr ⟨hdr, ⟨hsome, Bool.eq_true_of_not_eq_false hmagic, not_not.mp htype⟩, h⟩

/-- The call comes back with nothing done, or from `arch_exec_elf` and the loop over the
descriptors. -/
theorem kernelExecve_cases (h : s.kernelExecve k e path argv envp x strings = .ok (ret, s')) :
    (s' = s ∧ ¬ Reaches e path argv envp x) ∨
      Reaches e path argv envp x ∧ ∃ s₁ fds, s.archExecElf k x strings = .ok (ret, s₁) ∧
        s₁.fds.closeFlagged nrOpen 0 = .ok fds ∧ s' = { s₁ with fds := fds } := by
  have hearly : ∀ {r : ℤ}, (.ok (r, s) : Except Stop (ℤ × Caller)) = .ok (ret, s') → s' = s :=
    fun heq => (Prod.mk.inj (Except.ok.inj heq)).2.symm
  unfold kernelExecve at h
  unfold Reaches
  split at h
  next hpath => exact Or.inl ⟨hearly h, fun hr => goodPtr_iff.mp hr.1 hpath⟩
  next hpath =>
    split at h
    next hargv => exact Or.inl ⟨hearly h, fun hr => goodPtr_iff.mp hr.2.1 hargv⟩
    next hargv =>
      split at h
      next henvp => exact Or.inl ⟨hearly h, fun hr => goodPtr_iff.mp hr.2.2.1 henvp⟩
      next henvp =>
        split at h
        next hmount => exact Or.inl ⟨hearly h, fun hr => hr.2.2.2.1 hmount⟩
        next hnamei => exact Or.inl ⟨hearly h, fun hr => hr.2.2.2.2.1 hnamei⟩
        next fs inode hmount hnamei =>
          split at h
          next hregular => exact Or.inl ⟨hearly h, fun hr => hregular hr.2.2.2.2.2.1⟩
          next hregular =>
            split at h
            next hexec => exact Or.inl ⟨hearly h, fun hr => hexec hr.2.2.2.2.2.2⟩
            next hexec =>
              obtain ⟨⟨r, s₁⟩, harch, hrest⟩ := bind_eq_ok.mp h
              obtain ⟨fds, hclose, hend⟩ := bind_eq_ok.mp hrest
              obtain ⟨rfl, rfl⟩ := Prod.mk.inj (Except.ok.inj hend)
              have hfds : s₁.fds.closeFlagged nrOpen 0 = .ok fds := by
                cases hrun : s₁.fds.closeFlagged nrOpen 0 with
                | error halt =>
                    rw [hrun] at hclose
                    cases hclose
                | ok fds' =>
                    rw [hrun] at hclose
                    exact congrArg Except.ok (Except.ok.inj hclose)
              refine Or.inr ⟨⟨goodPtr_iff.mpr hpath, goodPtr_iff.mpr hargv, goodPtr_iff.mpr henvp,
                ?_, ?_, not_not.mp hregular, not_not.mp hexec⟩, s₁, fds, harch, hfds, rfl⟩
              · rw [hmount]
                exact Option.some_ne_none fs
              · rw [hnamei]
                exact Option.some_ne_none inode

/-- The loop over the descriptors changes nothing exactly if no open descriptor is flagged. -/
theorem closeFlagged_table_iff {fds : Fds} (h : s.fds.closeFlagged nrOpen 0 = .ok fds) :
    fds.table = s.fds.table ↔ s.NothingFlagged := by
  obtain ⟨-, htable⟩ := Files.closeFlagged_ok (by omega) h
  constructor
  · intro hsame i hflag
    have hi := htable i
    rw [if_pos ⟨Nat.zero_le _, by omega, hflag⟩, hsame] at hi
    exact hi
  · intro hnothing
    funext i
    rw [htable i]
    split
    next hclosed => exact (hnothing i hclosed.2.2).symm
    next => rfl

/-- The call fails before it comes to `arch_exec_elf`, or there because of the header, and then
no open descriptor is flagged. -/
def FailsEarly (s : Caller) (e : Env) (path argv envp : BitVec 32) (x : ExecFile) : Prop :=
  ¬ Reaches e path argv envp x ∨ (¬ ∃ hdr, Accepted x hdr) ∧ s.NothingFlagged

/-- A call which fails early leaves the process as it was, and any other call which leaves it
so has found the registers of the new image in place. -/
theorem intact_of_kernelExecve (h : s.kernelExecve k e path argv envp x strings = .ok (ret, s')) :
    (s.FailsEarly e path argv envp x → s.Intact s') ∧
      (s.Intact s' → s.FailsEarly e path argv envp x ∨
        ∃ hdr, Accepted x hdr ∧ s.SameRegisters hdr strings) := by
  rcases kernelExecve_cases h with ⟨rfl, hearly⟩ | ⟨hreaches, s₁, fds, harch, hclose, rfl⟩
  · exact ⟨fun _ => Intact.refl s', fun _ => Or.inl (Or.inl hearly)⟩
  · rcases archExecElf_cases harch with ⟨rfl, hrefused⟩ | ⟨hdr, haccepted, hexec⟩
    · have htable := closeFlagged_table_iff hclose
      obtain ⟨hword, -⟩ := Files.closeFlagged_ok (by omega) hclose
      constructor
      · rintro (hearly | ⟨-, hnothing⟩)
        · exact absurd hreaches hearly
        · exact ⟨rfl, rfl, rfl, htable.mpr hnothing, hword, rfl⟩
      · intro hintact
        exact Or.inl (Or.inr ⟨hrefused, htable.mp hintact.fileTable⟩)
    · obtain ⟨heip, hesp, -⟩ := execImage_ok hexec
      constructor
      · rintro (hearly | ⟨hrefused, -⟩)
        · exact absurd hreaches hearly
        · exact absurd ⟨hdr, haccepted⟩ hrefused
      · intro hintact
        exact Or.inr ⟨hdr, haccepted, hintact.eip.symm.trans heip, hintact.esp.symm.trans hesp⟩

/-! ## A file which is no program -/

/-- A process with one open descriptor, and its flags. -/
def oneOpen (word : BitVec 32) : Caller where
  machine := Paging.Machine.twoPages
  cr3 := 0x1000#32
  nextCr3 := 0x6000#32
  eip := 0x400000#32
  esp := 0xBFFFFFF0#32
  image := ExecImage.empty 0x400000#32
  fds :=
    { files := fun _ => ⟨some 0, some 0, 0, 0, 0, 1⟩
      table := fun i => if i.val = 0 then some ⟨0, by decide⟩ else none
      closeOnExec := word }

def textFile : ExecFile where
  namei := (some 0, 0)
  regular := true
  executable := true
  ehdr := none
  phdr _ := ⟨0#32, 0#32, 0#32, 0#32, 0#32, 0#32⟩
  read _ _ := []

def kernel : Kernel := ⟨fun _ => 0#32, 0x100000#32, fun _ => BitVec.ofNat 32 noFreePage⟩

def env : Env := ⟨fun _ => true, some 0, fun _ => false, (none, 0), 0, 0, 0, by decide⟩

theorem intact_of_kernelExecve_textFile :
    ∃ s', (oneOpen 0).kernelExecve kernel env 4 8 12 textFile ⟨[2], [], fun _ => 0#8⟩ =
      .ok (-enoexec, s') ∧ (oneOpen 0).Intact s' := by
  have hrun : (oneOpen 0).kernelExecve kernel env 4 8 12 textFile ⟨[2], [], fun _ => 0#8⟩ =
      .ok (-enoexec, oneOpen 0) := rfl
  refine ⟨oneOpen 0, hrun, (intact_of_kernelExecve hrun).1 (Or.inr ⟨?_, ?_⟩)⟩
  · rintro ⟨hdr, hsome, -⟩
    cases hsome
  · intro i hflag
    simp [oneOpen] at hflag

/-- The file is refused, and the flagged descriptor is closed all the same. -/
theorem not_intact_textFile : ¬ ∀ (s : Caller) (k : Kernel) (e : Env) (path argv envp : BitVec 32)
    (x : ExecFile) (strings : Strings) (ret : ℤ) (s' : Caller),
      s.kernelExecve k e path argv envp x strings = .ok (ret, s') → ret < 0 → s.Intact s' := by
  intro hall
  have hrun : ((oneOpen 1).kernelExecve kernel env 4 8 12 textFile ⟨[2], [], fun _ => 0#8⟩).map
      (fun r => decide (r.1 < 0 ∧ r.2.fds.table ⟨0, by decide⟩ = none)) = .ok true := rfl
  obtain ⟨⟨ret, s'⟩, hrun, hret, hclosed⟩ := exists_of_map_decide hrun
  have hintact := hall _ _ _ _ _ _ _ _ ret s' hrun hret
  have hopen := congrFun hintact.fileTable ⟨0, by decide⟩
  rw [hclosed] at hopen
  cases hopen

end Caller

end Yak.Exec
