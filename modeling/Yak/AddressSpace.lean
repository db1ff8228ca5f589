import Yak.Halt
import Yak.Process
import Yak.PageAlloc

/-!
# Page tables and copy on write

A transcription of the parts of `arch/i386/virtual_mm.c` which share the memory of
a process with its child, and of `arch_fork` as far as it concerns memory.
Physical memory is a family of page frames of 1024 words each.  The kernel reaches
a frame through the page at `VIRT_ADDR_TMP_PAGE`; the machine keeps the number of
the frame which that page is mapped to.  Every mapping that is changed is also
flushed, so there is no translation buffer.
-/

namespace Yak.Paging

open PageFrames (noFreePage)
open Process (Slot)

/-- The number of a page frame. -/
abbrev Frame := BitVec 20

/-- An index into a page directory, into a page table, or of a word in a page. -/
abbrev Index := Fin 1024

instance Index.neZero : NeZero 1024 := ⟨by decide⟩

abbrev Page := Index → BitVec 32

def pagePresent : BitVec 32 := 0x1#32
def pageWritable : BitVec 32 := 0x2#32
def pageUser : BitVec 32 := 0x4#32

/-- The number of the frame which an address lies in, or which an entry points to. -/
def frameNo (a : BitVec 32) : Frame := a.extractLsb' 12 20

/-- One of the flags is set in the entry. -/
def Has (e flag : BitVec 32) : Prop := e &&& flag ≠ 0#32

instance (e flag : BitVec 32) : Decidable (Has e flag) := inferInstanceAs (Decidable (_ ≠ _))

/-- `addr >> VIRT_ADDR_PG_DIR_SHIFT` -/
def pgDirIndex (va : BitVec 32) : Index := ⟨va.toNat / 2 ^ 22, by have := va.isLt; omega⟩

/-- `(addr >> VIRT_ADDR_PG_TAB_SHIFT) & VIRT_ADDR_PG_TAB_MASK` -/
def pgTabIndex (va : BitVec 32) : Index := ⟨va.toNat / 2 ^ 12 % 2 ^ 10, by omega⟩

@[ext]
structure Machine where
  mem : Frame → Page
  /-- `reference_counts` -/
  counts : Frame → BitVec 8
  tmpPage : Frame
  /-- The `cr3` in `cpu_states`, for the processes that there are. -/
  cr3 : Slot → Option (BitVec 32)

inductive Ending where
  | returned
  /-- `kernel_exit(SIGSEGV)` -/
  | terminated
  | halted (h : Halt)
  deriving DecidableEq

/-- How a fault ends, and the machine then. -/
structure Handled where
  machine : Machine
  ending : Ending

namespace Machine

/-! ## The temporary page -/

def tmpMapPage (m : Machine) (page : BitVec 32) : Machine := { m with tmpPage := frameNo page }

def getTmpPage (m : Machine) : BitVec 32 := m.tmpPage.setWidth 32 <<< 12

/-- The word `i` of the temporary page. -/
def tmp (m : Machine) (i : Index) : BitVec 32 := m.mem m.tmpPage i

def setTmpPage (m : Machine) (page : Page) : Machine :=
  { m with mem := Function.update m.mem m.tmpPage page }

def setTmp (m : Machine) (i : Index) (e : BitVec 32) : Machine :=
  m.setTmpPage (Function.update (m.mem m.tmpPage) i e)

/-! ## Frames and their counts -/

def setCount (m : Machine) (page : BitVec 32) (c : BitVec 8) : Machine :=
  { m with counts := Function.update m.counts (frameNo page) c }

/-- `page_increase_count` -/
def pageIncreaseCount (m : Machine) (page : BitVec 32) : Machine :=
  m.setCount page (m.counts (frameNo page) + 1#8)

/-- `page_decrease_count` -/
def pageDecreaseCount (m : Machine) (page : BitVec 32) : Machine :=
  m.setCount page (m.counts (frameNo page) - 1#8)

/-- `page_get_count`; the counts are of type `char`, which has a sign. -/
def pageGetCount (m : Machine) (page : BitVec 32) : ℤ := (m.counts (frameNo page)).toInt

/-- `page_frame_alloc`, by what it returns. -/
def pageFrameAlloc (m : Machine) (alloc : Machine → BitVec 32) : BitVec 32 × Machine :=
  if alloc m = BitVec.ofNat 32 noFreePage then (alloc m, m)
  else (alloc m, m.setCount (alloc m) 1#8)

/-! ## `copy_address_space` -/

/-- The body of the loop of `pg_table_cow`. -/
def pgTableCowEntry (incRef : Bool) (m : Machine) (i : Index) : Machine :=
  if Has (m.tmp i) pagePresent then
    let m := m.setTmp i (m.tmp i &&& ~~~pageWritable)
    if incRef then m.pageIncreaseCount (m.tmp i &&& 0xFFFFF000#32) else m
  else m

/-- `pg_table_cow` -/
def pgTableCow (m : Machine) (pgTable : BitVec 32) (incRef : Bool) : Machine :=
  let old := m.getTmpPage
  let m := m.tmpMapPage (pgTable &&& 0xFFFFF000#32)
  let m := (List.finRange 1024).foldl (pgTableCowEntry incRef) m
  m.tmpMapPage old

/-- `copy_page_table` -/
def copyPageTable (m : Machine) (dst src : BitVec 32) : Machine :=
  let old := m.getTmpPage
  let m := m.tmpMapPage src
  let tmpPage := m.mem m.tmpPage
  let m := (m.tmpMapPage dst).setTmpPage tmpPage
  m.tmpMapPage old

/-- The body of the first loop of `copy_address_space`. -/
def cowDirEntry (m : Machine) (i : Index) : Machine :=
  if Has (m.tmp i) pagePresent ∧ Has (m.tmp i) pageUser then
    let m := m.pgTableCow (m.tmp i) false
    m.setTmp i (m.tmp i &&& ~~~pageWritable)
  else m

/-- The second loop of `copy_address_space` at index `i`, once there is a frame for
the copy of the page table. -/
def splitTable (m : Machine) (i : Index) (new : BitVec 32) : Machine :=
  let m := m.copyPageTable new (m.tmp i &&& 0xFFFFF000#32)
  let m := m.pgTableCow new true
  let oldFlags := m.tmp i &&& 0xFFF#32
  let m := m.setTmp i (new ||| oldFlags)
  m.setTmp i (m.tmp i &&& ~~~pageWritable)

/-- The body of the second loop of `copy_address_space`. -/
def splitDirEntry (alloc : Machine → BitVec 32) (m : Machine) (i : Index) :
    Except Halt Machine :=
  if Has (m.tmp i) pagePresent ∧ Has (m.tmp i) pageUser then
    let (new, m) := m.pageFrameAlloc alloc
    if new = BitVec.ofNat 32 noFreePage then .error (.panic "Out of memory")
    else .ok (m.splitTable i new)
  else .ok m

/-- `copy_address_space`, called by the process `current`. -/
def copyAddressSpace (m : Machine) (current : Slot) (fromPageDir toPageDir : BitVec 32)
    (alloc : Machine → BitVec 32) : Except Halt Machine := do
  let old := m.getTmpPage
  let m := m.tmpMapPage fromPageDir
  let tmpPage := m.mem m.tmpPage
  let m := (m.tmpMapPage toPageDir).setTmpPage tmpPage
  if current.val = 0 then .ok (m.tmpMapPage old)
  else
    let m := (List.finRange 1024).foldl cowDirEntry m
    let m ← (List.finRange 1024).foldlM (splitDirEntry alloc) (m.tmpMapPage fromPageDir)
    .ok (m.tmpMapPage old)

/-- `arch_fork`.  Without a frame for the page directory there is no child. -/
def archFork (m : Machine) (current child : Slot) (cr3 : BitVec 32)
    (alloc : Machine → BitVec 32) : Except Halt (Option Machine) :=
  let (new, m) := m.pageFrameAlloc alloc
  if new = BitVec.ofNat 32 noFreePage then .ok none
  else do
    let m := { m with cr3 := Function.update m.cr3 child (some new) }
    let m ← m.copyAddressSpace current cr3 new alloc
    .ok (some m)

/-! ## `page_set_writable` -/

/-- `page_set_writable` once the entry at index `j` of the page that is mapped is known to
be present. -/
def makeWritable (m : Machine) (j : Index) (alloc : Machine → BitVec 32) : Handled :=
  let pgFrame := m.tmp j
  let oldFlags := pgFrame &&& 0xFFF#32
  if m.pageGetCount (pgFrame &&& 0xFFFFF000#32) > 1 then
    let (new, m) := m.pageFrameAlloc alloc
    if new = BitVec.ofNat 32 noFreePage then ⟨m, .halted (.panic "Out of memory")⟩
    else
      let m := m.setTmp j (new ||| oldFlags ||| pageWritable)
      let m := m.pageDecreaseCount (pgFrame &&& 0xFFFFF000#32)
      let m := m.tmpMapPage (pgFrame &&& 0xFFFFF000#32)
      let tmpPage := m.mem m.tmpPage
      let m := (m.tmpMapPage new).setTmpPage tmpPage
      if m.pageGetCount (pgFrame &&& 0xFFFFF000#32) = 0 then ⟨m, .halted .endless⟩
      else ⟨m, .returned⟩
  else ⟨m.setTmp j (m.tmp j ||| pageWritable), .returned⟩

/-- `page_set_writable`, called by a process with this page directory. -/
def pageSetWritable (m : Machine) (cr3 addr : BitVec 32) (alloc : Machine → BitVec 32) :
    Handled :=
  let old := m.getTmpPage
  let m := m.tmpMapPage cr3
  let pgTable := m.tmp (pgDirIndex addr)
  if ¬ Has pgTable pagePresent then ⟨m, .terminated⟩
  else
    let m := m.setTmp (pgDirIndex addr) (m.tmp (pgDirIndex addr) ||| pageWritable)
    let m := m.tmpMapPage (pgTable &&& 0xFFFFF000#32)
    if ¬ Has (m.tmp (pgTabIndex addr)) pagePresent then ⟨m, .terminated⟩
    else
      let r := m.makeWritable (pgTabIndex addr) alloc
      match r.ending with
      | .returned => ⟨r.machine.tmpMapPage old, .returned⟩
      | _ => r

/-! ## What a process sees -/

/-- The frame of the page directory of a process. -/
def dir (m : Machine) (p : Slot) : Option Frame := (m.cr3 p).map frameNo

/-- The entry of the page table for this pair of indices, where the page directory
says that the table is there and open to the user. -/
def leaf (m : Machine) (p : Slot) (i j : Index) : Option (BitVec 32) :=
  match m.dir p with
  | none => none
  | some d =>
      let e := m.mem d i
      if Has e pagePresent ∧ Has e pageUser then
        let e' := m.mem (frameNo e) j
        if Has e' pagePresent then some e' else none
      else none

/-- The byte `k` of a word. -/
def getByte (w : BitVec 32) (k : ℕ) : BitVec 8 := w.extractLsb' (8 * k) 8

def setByte (w : BitVec 32) (k : ℕ) (b : BitVec 8) : BitVec 32 :=
  (w &&& ~~~((BitVec.allOnes 8).setWidth 32 <<< (8 * k))) ||| b.setWidth 32 <<< (8 * k)

/-- The word of its page which an address lies in. -/
def wordIndex (va : BitVec 32) : Index := ⟨va.toNat % 2 ^ 12 / 4, by omega⟩

/-- A byte read by the process in user mode. -/
def read (m : Machine) (p : Slot) (va : BitVec 32) : Option (BitVec 8) :=
  match m.leaf p (pgDirIndex va) (pgTabIndex va) with
  | none => none
  | some e =>
      if Has e pageUser then
        some (getByte (m.mem (frameNo e) (wordIndex va)) (va.toNat % 4))
      else none

/-- The entry of the page directory for an address. -/
def dirEntry (m : Machine) (p : Slot) (va : BitVec 32) : BitVec 32 :=
  match m.dir p with
  | none => 0#32
  | some d => m.mem d (pgDirIndex va)

/-- A byte written by the process in user mode, if both entries allow it. -/
def write (m : Machine) (p : Slot) (va : BitVec 32) (b : BitVec 8) : Option Machine :=
  match m.leaf p (pgDirIndex va) (pgTabIndex va) with
  | none => none
  | some e =>
      if Has e pageUser ∧ Has e pageWritable ∧ Has (m.dirEntry p va) pageWritable then
        some
          { m with
            mem := Function.update m.mem (frameNo e)
              (Function.update (m.mem (frameNo e)) (wordIndex va)
                (setByte (m.mem (frameNo e) (wordIndex va)) (va.toNat % 4) b)) }
      else none

end Machine

end Yak.Paging
