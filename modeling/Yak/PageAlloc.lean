import Yak.Bitmap
import Yak.Halt

/-!
# The page frame allocator

A transcription of `mm/mm_init.c` and `mm/page_alloc.c`.  Physical memory is a
sequence of bytes, in which `reserve_bitmaps` puts one bitmap after the other.
The entry of a bitmap is the one with the same index: `reserve_bitmaps` sets
`mmap_entry` so for every bitmap up to the end of the list.
-/

namespace Yak.PageFrames

open ByteBitmap

def pageSize : ℕ := 4096
def maxMmapEntries : ℕ := 16

/-- `NO_FREE_PAGE` -/
def noFreePage : ℕ := 1

/-- The length of `reference_counts`, `MAX_MEM / PAGE_SIZE`. -/
def nrReferenceCounts : ℕ := 0xFFFFFFFF / pageSize

/-- An entry of the memory map of the boot loader. -/
structure BootEntry where
  type : BitVec 32
  addrLow : BitVec 32
  lenLow : BitVec 32

/-- What `mm_init` starts from: the memory map, and the physical addresses of the
kernel. -/
structure Boot where
  entries : List BootEntry
  kstartAddr : ℕ
  kendAddr : ℕ

structure MmapEntry where
  base : ℕ
  size : ℕ
  next : Option ℕ

structure MmapBitmap where
  base : ℕ
  size : ℕ
  nextFree : ℕ
  freePages : ℕ

structure Memory where
  totalMem : ℕ
  mmap : ℕ → MmapEntry
  mmapBitmaps : ℕ → MmapBitmap
  referenceCounts : ℕ → BitVec 8
  mem : Bytes

/-! ## `mm_init` -/

namespace Memory

def multibootMemoryAvailable : BitVec 32 := 1

/-- `enter_into_mmap` -/
def enterIntoMmap (mm : Memory) (base size : ℕ) : Option Memory :=
  match (List.range maxMmapEntries).find? fun i => (mm.mmap i).size = 0 with
  | none => none
  | some i => some
      { mm with
        mmap := Function.update mm.mmap i
          ⟨base, size, if i + 1 < maxMmapEntries then some (i + 1) else none⟩ }

/-- The loop of `mm_init` over the memory map. -/
def enterAll (mm : Memory) : List BootEntry → Memory
  | [] => mm
  | e :: es =>
      if e.type = multibootMemoryAvailable then
        let mm := { mm with totalMem := (mm.totalMem + e.lenLow.toNat) % 2 ^ 32 }
        match mm.enterIntoMmap e.addrLow.toNat e.lenLow.toNat with
        | none => mm
        | some mm => mm.enterAll es
      else mm.enterAll es

/-- The loop of `mm_init` which takes the kernel out of the map. -/
def takeKernel (kstart kernelSize : ℕ) (mmap : ℕ → MmapEntry) :
    (fuel i : ℕ) → Except Halt (ℕ → MmapEntry)
  | 0, _ => .error .badWalk
  | fuel + 1, i =>
      match (mmap i).next with
      | none => .ok mmap
      | some j =>
          if (mmap i).base = kstart ∧ kernelSize < (mmap i).size then
            takeKernel kstart kernelSize
              (Function.update mmap i
                { mmap i with
                  size := (mmap i).size - kernelSize
                  base := ((mmap i).base + kernelSize) % 2 ^ 32 }) fuel j
          else if (mmap i).base = kstart ∧ (mmap i).size < kernelSize then
            .error (.panic
              "Bizzare: there doesn't seem to be enough memory for the kernel to be running!")
          else takeKernel kstart kernelSize mmap fuel j

/-- The first region with more than `need` bytes. -/
def findSpace (mmap : ℕ → MmapEntry) (need : ℕ) : (fuel i : ℕ) → Option ℕ
  | 0, _ => none
  | fuel + 1, i =>
      match (mmap i).next with
      | none => none
      | some j => if need < (mmap i).size then some i else findSpace mmap need fuel j

/-- The loop of `reserve_bitmaps` which sets up the bitmaps. -/
def setupBitmaps (mmap : ℕ → MmapEntry) (bitmaps : ℕ → MmapBitmap) :
    (fuel i base : ℕ) → (ℕ → MmapBitmap)
  | 0, _, _ => bitmaps
  | fuel + 1, i, base =>
      match (mmap i).next with
      | none => bitmaps
      | some _ =>
          let size := (mmap i).size / pageSize / 8 + 1
          setupBitmaps mmap
            (Function.update bitmaps i
              { base := base, size := size, nextFree := 0, freePages := size <<< 3 % 2 ^ 32 })
            fuel (i + 1) ((base + size) % 2 ^ 32)

def memset (mem : Bytes) (start len : ℕ) : Bytes :=
  fun a => if start ≤ a ∧ a < start + len then 0#8 else mem a

/-- The loop of `reserve_bitmaps` which clears the bitmaps. -/
def clearBitmaps (mmap : ℕ → MmapEntry) (bitmaps : ℕ → MmapBitmap) (mem : Bytes) :
    (fuel i : ℕ) → Bytes
  | 0, _ => mem
  | fuel + 1, i =>
      match (mmap i).next with
      | none => mem
      | some _ =>
          clearBitmaps mmap bitmaps (memset mem (bitmaps i).base (bitmaps i).size) fuel (i + 1)

/-- `reserve_bitmaps` once the region `i` is found. -/
def reserveIn (mm : Memory) (need i : ℕ) : Memory :=
  let base := (mm.mmap i).base
  let mmap := Function.update mm.mmap i
    { mm.mmap i with size := (mm.mmap i).size - need, base := (base + need) % 2 ^ 32 }
  let bitmaps := setupBitmaps mmap mm.mmapBitmaps maxMmapEntries 0 base
  { mm with
    mmap := mmap
    mmapBitmaps := bitmaps
    mem := clearBitmaps mmap bitmaps mm.mem maxMmapEntries 0 }

/-- `reserve_bitmaps` -/
def reserveBitmaps (mm : Memory) : Except Halt Memory :=
  let need := (mm.totalMem / (pageSize * 8 * pageSize) + 1) * pageSize
  match findSpace mm.mmap need maxMmapEntries 0 with
  | none => .error (.panic "Not enough memory")
  | some i =>
      if (mm.mmap i).base = 0xFFFFFFFF then .error (.panic "Not enough memory")
      else .ok (mm.reserveIn need i)

/-- The state before `mm_init`, with these bytes in memory. -/
def bss (mem : Bytes) : Memory where
  totalMem := 0
  mmap _ := ⟨0, 0, none⟩
  mmapBitmaps _ := ⟨0, 0, 0, 0⟩
  referenceCounts _ := 0#8
  mem := mem

/-- `mm_init` -/
def mmInit (boot : Boot) (mem : Bytes) : Except Halt Memory := do
  let mm := (bss mem).enterAll boot.entries
  if boot.kstartAddr % pageSize ≠ 0 ∨ boot.kendAddr % pageSize ≠ 0 then
    .error (.panic "_end_kernel or _start_kernel are not page aligned")
  else
    let mmap ← takeKernel boot.kstartAddr
      ((boot.kendAddr + (2 ^ 32 - boot.kstartAddr)) % 2 ^ 32) mm.mmap maxMmapEntries 0
    { mm with mmap := mmap }.reserveBitmaps

/-! ## Allocation -/

/-- The bitmap at which the search for a free page ends. -/
def findBitmap (mm : Memory) : (fuel i : ℕ) → ℕ
  | 0, i => i
  | fuel + 1, i =>
      if (mm.mmap i).next = none then i
      else if (mm.mmapBitmaps i).freePages ≠ 0 then i
      else mm.findBitmap fuel (i + 1)

/-- The loop of `scan_bitmap`.  An access behind the bitmap is a halt. -/
def scanBitmap (mem : Bytes) (base size : ℕ) : (fuel k : ℕ) → Except Halt ℕ
  | 0, _ => .error .outOfBounds
  | fuel + 1, k =>
      if getBit mem (8 * base + k) then
        if k = size then .ok noFreePage else scanBitmap mem base size fuel (k + 1)
      else .ok k

/-- The new value of `next_free`. -/
def nextFreeAfter (mem : Bytes) (bmap : MmapBitmap) : Except Halt ℕ :=
  if bmap.freePages - 1 ≠ 0 then
    scanBitmap mem bmap.base bmap.size (8 * bmap.size - bmap.nextFree) bmap.nextFree
  else .ok noFreePage

/-- `page_frame_alloc` once the bitmap is found. -/
def allocIn (mm : Memory) (i : ℕ) : Except Halt (ℕ × Memory) := do
  let bmap := mm.mmapBitmaps i
  let ret := (bmap.nextFree * pageSize + (mm.mmap i).base) % 2 ^ 32
  let mem := setBit mm.mem (8 * bmap.base + bmap.nextFree)
  let next ← nextFreeAfter mem bmap
  if nrReferenceCounts ≤ ret / pageSize then .error .outOfBounds
  else .ok (ret,
    { mm with
      mem := mem
      mmapBitmaps := Function.update mm.mmapBitmaps i
        { bmap with nextFree := next, freePages := bmap.freePages - 1 }
      referenceCounts := Function.update mm.referenceCounts (ret / pageSize) 1#8 })

/-- `page_frame_alloc` -/
def pageFrameAlloc (mm : Memory) : Except Halt (ℕ × Memory) :=
  let i := mm.findBitmap maxMmapEntries 0
  if (mm.mmapBitmaps i).freePages = 0 then
    if (mm.mmapBitmaps i).nextFree ≠ noFreePage then
      .error (.panic "Memory map bitmaps corrupted")
    else .ok (noFreePage, mm)
  else mm.allocIn i

/-! ## Release -/

/-- The region at which the search for a page ends. -/
def findRegion (mm : Memory) (page : ℕ) : (fuel i : ℕ) → ℕ
  | 0, i => i
  | fuel + 1, i =>
      if (mm.mmap i).next = none then i
      else if page < ((mm.mmap i).base + (mm.mmap i).size) % 2 ^ 32 then i
      else mm.findRegion page fuel (i + 1)

/-- The end of `page_frame_free`, which gives the page back. -/
def giveBack (mm : Memory) (page : ℕ) : Except Halt Memory :=
  let i := mm.findRegion page maxMmapEntries 0
  let bmap := mm.mmapBitmaps i
  if ((mm.mmap i).base + (mm.mmap i).size) % 2 ^ 32 < page then
    .error (.panic "page_frame_free: page address is nowhere in memory!")
  else
    let bit := (page + (2 ^ 32 - (mm.mmap i).base)) % 2 ^ 32 / pageSize
    .ok
      { mm with
        mem := clearBit mm.mem (8 * bmap.base + bit)
        mmapBitmaps := Function.update mm.mmapBitmaps i
          { bmap with
            freePages := bmap.freePages + 1
            nextFree := if bit < bmap.nextFree then bit else bmap.nextFree } }

def setCount (mm : Memory) (page : ℕ) (c : BitVec 8) : Memory :=
  { mm with referenceCounts := Function.update mm.referenceCounts (page / pageSize) c }

/-- `page_frame_free`.  The counts are of type `char`, which has a sign. -/
def pageFrameFree (mm : Memory) (page : ℕ) : Except Halt Memory :=
  let c := mm.referenceCounts (page / pageSize) - 1#8
  if nrReferenceCounts ≤ page / pageSize then .error .outOfBounds
  else if (0#8).slt c then .ok (mm.setCount page c)
  else if page % pageSize ≠ 0 then
    .error (.panic "page_frame_free: page has wrong alignment")
  else if c - 1#8 ≠ 0#8 then .ok (mm.setCount page (c - 1#8))
  else (mm.setCount page (c - 1#8)).giveBack page

/-- `page_increase_count` -/
def pageIncreaseCount (mm : Memory) (page : ℕ) : Except Halt Memory :=
  if nrReferenceCounts ≤ page / pageSize then .error .outOfBounds
  else .ok (mm.setCount page (mm.referenceCounts (page / pageSize) + 1#8))

/-- `page_decrease_count` -/
def pageDecreaseCount (mm : Memory) (page : ℕ) : Except Halt Memory :=
  if nrReferenceCounts ≤ page / pageSize then .error .outOfBounds
  else .ok (mm.setCount page (mm.referenceCounts (page / pageSize) - 1#8))

/-- The test by which `page_frame_free` decides that other references remain. -/
def Shared (mm : Memory) (page : ℕ) : Prop :=
  (0#8).slt (mm.referenceCounts (page / pageSize) - 1#8) = true

instance (mm : Memory) (page : ℕ) : Decidable (mm.Shared page) :=
  inferInstanceAs (Decidable (_ = true))

end Memory

end Yak.PageFrames
