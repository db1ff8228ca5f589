import Yak.CacheLinks
import Yak.Mutex

/-!
# The buffer cache

A transcription of `fs/buffer.c` and of the part of `fs/devio.c` below it.  A buffer's data is what its `b_data` points at, and
`none` if that pointer is null.  The drive is outside the model: a request
either fails or moves the block named by `b_dev` and `b_blknr`.
-/

namespace Yak.BufferCache

open Cache

def nodev : ℕ := 0
def hdDev : ℕ := 3
def sectorSize : ℕ := 512

def devMajor (dev : ℕ) : ℕ := (dev >>> 8) &&& 0xFF

/-! ## Buffers -/

variable {α : Type}

/-- `struct buffer` without its links; the last three are `b_flags`. -/
structure Buffer (α : Type) where
  bDev : ℕ
  bBlknr : ℕ
  bBlksize : ℕ
  bData : Option α
  bMutex : Mutex
  dwrite : Bool
  done : Bool
  error : Bool
  deriving DecidableEq

structure Cache (α : Type) where
  ptrs : Pointers
  buf : Node → Buffer α
  disk : ℕ → ℕ → α
  /-- How many drive requests and allocations there have been. -/
  clock : ℕ

/-- What the cache gets from the rest of the kernel. -/
structure Env (α : Type) where
  /-- `filesystem_get_attr` with `GET_BLOCKSIZE`. -/
  blocksize : ℕ → ℕ
  /-- Whether the drive request made at this time succeeds. -/
  driveRw : ℕ → Bool
  /-- What the memory allocated at this time holds. -/
  kvmalloc : ℕ → α

inductive Rw where
  | read
  | write
  deriving DecidableEq, Repr

namespace Cache

def modify (c : Cache α) (bp : Node) (f : Buffer α → Buffer α) : Cache α :=
  { c with buf := Function.update c.buf bp (f (c.buf bp)) }

def tick (c : Cache α) : Cache α := { c with clock := c.clock + 1 }

/-- A successful transfer of `hddev_physio`. -/
def transfer (c : Cache α) (bp : Node) (data : α) : Rw → Cache α
  | .read =>
      c.modify bp fun b => { b with bData := some (c.disk b.bDev b.bBlknr), done := true }
  | .write =>
      { c.modify bp fun b => { b with done := true } with
        disk := Function.update c.disk (c.buf bp).bDev
          (Function.update (c.disk (c.buf bp).bDev) (c.buf bp).bBlknr data) }

/-- `hddev_physio`; the flag is whether it returned 0.  A block smaller than a
sector moves no data. -/
def hddevPhysio (env : Env α) (c : Cache α) (bp : Node) (rw : Rw) :
    Except Halt (Cache α × Bool) :=
  if env.driveRw c.clock = false then
    .ok ((c.modify bp fun b => { b with error := true }).tick, false)
  else if (c.buf bp).bBlksize / sectorSize = 0 then
    .ok ((c.modify bp fun b => { b with done := true }).tick, true)
  else
    match (c.buf bp).bData with
    | none => .error .nullDeref
    | some data => .ok ((c.transfer bp data rw).tick, true)

def blkDevio (env : Env α) (c : Cache α) (bp : Node) (rw : Rw) : Except Halt (Cache α × Bool) :=
  if devMajor (c.buf bp).bDev = hdDev then c.hddevPhysio env bp rw
  else if devMajor (c.buf bp).bDev < hdDev then
    .ok (c.modify bp fun b => { b with error := true }, false)
  else .error .outOfBounds

def inHashQueue (c : Cache α) (dev blknr : ℕ) : Except Halt (Option Node) :=
  c.ptrs.inHashQueue (bufHash dev blknr) fun bp =>
    decide ((c.buf bp).bDev = dev) && decide ((c.buf bp).bBlknr = blknr)

def removeFromFreeList (c : Cache α) (bp : Node) : Except Halt (Cache α) := do
  let ptrs ← c.ptrs.removeFromFreeList true
    "remove_from_free_list: free list has been corrupted" bp
  .ok { c with ptrs := ptrs }

def removeFromHashQueue (c : Cache α) (bp : Node) : Except Halt (Cache α) := do
  let ptrs ← c.ptrs.removeFromHashQueue
    "remove_from_hash_queue: bp is not on a hash queue or queue has been corrupted!"
    (bufHash (c.buf bp).bDev (c.buf bp).bBlknr) bp
  .ok { c with ptrs := ptrs }

def putIntoHashQueue (c : Cache α) (bp : Node) : Except Halt (Cache α) := do
  let ptrs ← c.ptrs.putIntoHashQueue (bufHash (c.buf bp).bDev (c.buf bp).bBlknr) bp
  .ok { c with ptrs := ptrs }

def putIntoFreeList (c : Cache α) (bp : Node) : Except Halt (Cache α) := do
  let ptrs ←
    if (c.buf bp).dwrite = false ∧ (c.buf bp).error = false then c.ptrs.putLast bp
    else c.ptrs.putFirst bp
  .ok { c with ptrs := ptrs }

/-- `brelse`.  The sleepers which it wakes run their own calls later. -/
def brelse (c : Cache α) (bp : Node) : Except Halt (Cache α) :=
  if (c.buf bp).bMutex.lock = false then .ok c
  else do
    let c ← c.putIntoFreeList bp
    .ok (c.modify bp fun b => { b with bMutex := mutexUnlock })

def bwrite (env : Env α) (c : Cache α) (bp : Node) : Except Halt (Cache α) := do
  let r ← c.blkDevio env bp .write
  r.1.brelse bp

/-- The loop of `getblk` has found the block in the cache. -/
def lockFound (c : Cache α) (current : ℕ) (bp : Node) : Except Halt (Node × Cache α) :=
  if mutexLocked (c.buf bp).bMutex current then .error .asleep
  else do
    let m ← mutexLock (c.buf bp).bMutex current
    let c ← (c.modify bp fun b => { b with bMutex := m }).removeFromFreeList bp
    .ok (bp, c)

/-- The new key, the data area of the right size and the cleared flags. -/
def rekey (env : Env α) (c : Cache α) (m : Mutex) (dev blknr : ℕ) (bp : Node) : Cache α :=
  let size := env.blocksize dev
  let data :=
    if size ≠ 0 ∧ (c.buf bp).bBlksize ≠ size then some (env.kvmalloc c.clock)
    else (c.buf bp).bData
  (c.modify bp fun b =>
    { b with
      bDev := dev, bBlknr := blknr, bBlksize := size, bData := data, bMutex := m,
      dwrite := false, done := false, error := false }).tick

/-- The loop of `getblk` has taken a clean buffer off the free list. -/
def recycle (env : Env α) (c : Cache α) (current dev blknr : ℕ) (bp : Node) :
    Except Halt (Node × Cache α) :=
  if mutexLocked (c.buf bp).bMutex current then
    .error (.panic "buffer on free list is locked\r\n")
  else do
    let m ← mutexLock (c.buf bp).bMutex current
    let c ← (c.rekey env m dev blknr bp).removeFromHashQueue bp
    let c ← c.putIntoHashQueue bp
    .ok (bp, c)

/-- The loop of `getblk`. -/
def getblkLoop (env : Env α) (current dev blknr : ℕ) :
    ℕ → Cache α → Except Halt (Node × Cache α)
  | 0, _ => .error .badWalk
  | fuel + 1, c => do
      match ← c.inHashQueue dev blknr with
      | some bp => c.lockFound current bp
      | none =>
          match c.ptrs.free.next .freeList with
          | none => .error .asleep
          | some bp =>
              let c ← c.removeFromFreeList bp
              if (c.buf bp).dwrite then
                let c ← (c.modify bp fun b => { b with dwrite := false }).bwrite env bp
                getblkLoop env current dev blknr fuel c
              else c.recycle env current dev blknr bp

/-- Every turn of the loop but the last takes a buffer off the free list. -/
def getblk (env : Env α) (c : Cache α) (current dev blknr : ℕ) :
    Except Halt (Node × Cache α) :=
  getblkLoop env current dev blknr (nrEntries + 2) c

/-- `bread`; the null pointer is `none`. -/
def bread (env : Env α) (c : Cache α) (current dev blknr : ℕ) :
    Except Halt (Option Node × Cache α) := do
  let (bp, c) ← c.getblk env current dev blknr
  if (c.buf bp).done then .ok (some bp, c)
  else
    let (c, ok) ← c.blkDevio env bp .read
    .ok (if ok then some bp else none, c)

/-- The body of the loop of `buffer_sync`. -/
def syncSlot (env : Env α) (current : ℕ) (c : Cache α) (i : Fin nrEntries) :
    Except Halt (Cache α) :=
  if (c.buf (.entry i)).dwrite ∧ mutexLocked (c.buf (.entry i)).bMutex current = false then
    (c.modify (.entry i) fun b => { b with dwrite := false }).bwrite env (.entry i)
  else .ok c

def bufferSync (env : Env α) (c : Cache α) (current : ℕ) : Except Halt (Cache α) :=
  (List.finRange nrEntries).foldlM (syncSlot env current) c

/-- The dummy is a static object, all zero. -/
def zeroBuffer : Buffer α where
  bDev := nodev
  bBlknr := 0
  bBlksize := 0
  bData := none
  bMutex := mutexUnlock
  dwrite := false
  done := false
  error := false

/-- `buffer_init`, where `heap` is what the array holds before. -/
def bufferInit (heap : Fin nrEntries → Buffer α) (disk : ℕ → ℕ → α) : Cache α where
  ptrs := Pointers.init
  buf x :=
    match x with
    | .entry i => { heap i with bDev := nodev, dwrite := false, done := false, error := false }
    | _ => zeroBuffer
  disk := disk
  clock := 0

end Cache

end Yak.BufferCache
