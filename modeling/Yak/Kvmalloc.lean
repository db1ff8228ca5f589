import Yak.Halt
import Yak.WordMemory

/-!
# The kernel heap

A transcription of `mm/kvmalloc.c`.  Chunk headers are kept in the memory which is
managed, four words each: base, size, next and prev.  The regions which
`expand_heap` returns are a parameter; there is none when memory is used up.
-/

namespace Yak.Kvmalloc

open ByteBitmap (Bytes)
open WordMemory

/-- `HEAP_SIZE` -/
def heapSize : ℕ := 0x400000

/-- `sizeof(struct vm_chunk_header)` -/
def headerSize : ℕ := 16

/-! ## Chunk headers -/

def base (mem : Bytes) (ptr : ℕ) : ℕ := load32 mem ptr
def size (mem : Bytes) (ptr : ℕ) : ℕ := load32 mem (ptr + 4)
def next (mem : Bytes) (ptr : ℕ) : ℕ := load32 mem (ptr + 8)
def prev (mem : Bytes) (ptr : ℕ) : ℕ := load32 mem (ptr + 12)

def setBase (mem : Bytes) (ptr v : ℕ) : Bytes := store32 mem ptr v
def setSize (mem : Bytes) (ptr v : ℕ) : Bytes := store32 mem (ptr + 4) v
def setNext (mem : Bytes) (ptr v : ℕ) : Bytes := store32 mem (ptr + 8) v
def setPrev (mem : Bytes) (ptr v : ℕ) : Bytes := store32 mem (ptr + 12) v

structure Heap where
  mem : Bytes
  freeList : ℕ
  /-- How often `expand_heap` was called. -/
  expansions : ℕ

/-- Where a walk along the free list ends: at a chunk which was looked for, or at
the last chunk. -/
inductive Found where
  | chunk (ptr : ℕ)
  | last (ptr : ℕ)
  deriving DecidableEq

/-- The walk of `kvmalloc` and `kvmfree` to the first chunk which passes a test. -/
def walk (mem : Bytes) (test : ℕ → Bool) : (fuel ptr : ℕ) → Except Halt Found
  | 0, _ => .error .badWalk
  | fuel + 1, ptr =>
      if ptr = 0 then .error .nullDeref
      else if test ptr then .ok (.chunk ptr)
      else if next mem ptr = 0 then .ok (.last ptr)
      else walk mem test fuel (next mem ptr)

/-- No list without a cycle is longer. -/
def walkFuel : ℕ := 2 ^ 32

namespace Heap

/-- `kvmalloc_init`, which takes the size of a pointer for that of a header. -/
def kvmallocInit (mem : Bytes) (heap size : ℕ) : Heap where
  mem := setPrev (setNext (setSize (setBase mem heap (heap + 4)) heap (size - 4)) heap 0) heap 0
  freeList := heap
  expansions := 0

/-- The first chunk with this many bytes. -/
def findFit (h : Heap) (bytes : ℕ) : Except Halt Found :=
  walk h.mem (fun ptr => bytes ≤ size h.mem ptr) walkFuel h.freeList

/-- The first chunk behind an address. -/
def findBehind (h : Heap) (p : ℕ) : Except Halt Found :=
  walk h.mem (fun ptr => p < base h.mem ptr) walkFuel h.freeList

/-- `expand_heap` -/
def expandHeap (regions : ℕ → Option ℕ) (h : Heap) : Except Halt (ℕ × Heap) :=
  match regions h.expansions with
  | none => .error (.panic "Unable to expand heap, out of memory")
  | some new => .ok (new, { h with expansions := h.expansions + 1 })

/-- `remove_from_list`.  For the only element, `free_list` becomes a region which
is not initialised. -/
def removeFromList (regions : ℕ → Option ℕ) (h : Heap) (ptr : ℕ) : Except Halt Heap :=
  if next h.mem ptr = 0 ∧ prev h.mem ptr = 0 then do
    let (new, h) ← h.expandHeap regions
    .ok { h with freeList := new }
  else
    let mem := if prev h.mem ptr ≠ 0 then setNext h.mem (prev h.mem ptr) (next h.mem ptr) else h.mem
    .ok
      { h with
        mem := if next mem ptr ≠ 0 then setPrev mem (next mem ptr) (prev mem ptr) else mem }

/-- The part of `kvmalloc` which takes memory from the end of a chunk. -/
def carve (h : Heap) (ptr bytes : ℕ) : ℕ × Heap :=
  let mem := setSize h.mem ptr (sub32 (size h.mem ptr) ((bytes + headerSize) % 2 ^ 32))
  let tmp := (base mem ptr + size mem ptr) % 2 ^ 32
  let p := (base mem ptr + size mem ptr + headerSize) % 2 ^ 32
  (p, { h with mem := setBase (setSize mem tmp bytes) tmp p })

/-- `kvmalloc` at a chunk which is large enough. -/
def takeFrom (regions : ℕ → Option ℕ) (h : Heap) (ptr bytes : ℕ) : Except Halt (ℕ × Heap) :=
  if size h.mem ptr = bytes then do
    let h' ← h.removeFromList regions ptr
    .ok (base h.mem ptr, h')
  else .ok (h.carve ptr bytes)

/-- `kvmalloc` at the last chunk when none is large enough. -/
def grow (regions : ℕ → Option ℕ) (h : Heap) (ptr : ℕ) : Except Halt Heap := do
  let (new, h) ← h.expandHeap regions
  let mem := setSize (setNext h.mem ptr new) new (heapSize - headerSize)
  .ok { h with mem := setPrev (setNext (setBase mem new (new + headerSize)) new 0) new ptr }

/-- The loop of `kvmalloc`. -/
def kvmallocLoop (regions : ℕ → Option ℕ) (bytes : ℕ) :
    (fuel : ℕ) → Heap → Except Halt (ℕ × Heap)
  | 0, _ => .error .endless
  | fuel + 1, h => do
      match ← h.findFit bytes with
      | .chunk ptr => h.takeFrom regions ptr bytes
      | .last ptr =>
          let h ← h.grow regions ptr
          kvmallocLoop regions bytes fuel h

/-- `kvmalloc`.  A request which no region can hold makes the loop go on until the
machine has no memory left. -/
def kvmalloc (regions : ℕ → Option ℕ) (h : Heap) (bytes : ℕ) : Except Halt (ℕ × Heap) :=
  kvmallocLoop regions bytes walkFuel h

/-- `insert_before` -/
def insertBefore (mem : Bytes) (p before : ℕ) : Bytes :=
  let mem := if prev mem before ≠ 0 then
      setPrev (setNext mem (prev mem before) p) p (prev mem before)
    else mem
  setNext (setPrev mem before p) p before

/-- The first half of `merge_blocks`. -/
def mergePrev (mem : Bytes) (ptr : ℕ) : Bytes :=
  let q := prev mem ptr
  if q ≠ 0 ∧ (base mem q + size mem q) % 2 ^ 32 = sub32 (base mem ptr) headerSize then
    let mem := setSize mem q ((size mem q + (size mem ptr + headerSize)) % 2 ^ 32)
    setNext mem q (next mem ptr)
  else mem

/-- The second half of `merge_blocks`. -/
def mergeNext (mem : Bytes) (ptr : ℕ) : Bytes :=
  let q := next mem ptr
  if q ≠ 0 ∧ (base mem ptr + size mem ptr) % 2 ^ 32 = q then
    let mem := setSize mem ptr ((size mem ptr + (size mem q + headerSize)) % 2 ^ 32)
    setNext mem ptr (next mem q)
  else mem

/-- `merge_blocks` -/
def mergeBlocks (mem : Bytes) (ptr : ℕ) : Bytes := mergeNext (mergePrev mem ptr) ptr

/-- `kvmfree` -/
def kvmfree (h : Heap) (p : ℕ) : Except Halt Heap := do
  match ← h.findBehind p with
  | .chunk ptr => .ok { h with mem := mergeBlocks (insertBefore h.mem p ptr) p }
  | .last ptr => .ok { h with mem := mergeBlocks (setNext h.mem ptr (sub32 p headerSize)) ptr }

end Heap

end Yak.Kvmalloc
