import Yak.CacheLinks
import Yak.Mutex

/-!
# The inode cache

A transcription of the cache of `fs/ext2/inode.c`.  Of the inode itself only
the link count matters here, so `Disk` has the link counts of the inodes on
disk.  `ext2_itrunc` and `ext2_ifree`, which `ext2_iput` calls for an inode
without links, do not touch the cache except that they mark the inode.
-/

namespace Yak.InodeCache

open Yak.Cache

/-- `struct ext2_inode_m` without its links. -/
structure Inode where
  iDev : ℕ
  iNum : ℕ
  iMutex : Mutex
  /-- `I_MODIFIED` -/
  modified : Bool
  iCount : ℕ
  iLinksCount : ℕ
  deriving DecidableEq

structure ICache where
  ptrs : Pointers
  ino : Node → Inode
  disk : ℕ → ℕ → ℕ

/-- What the cache gets from the rest of the kernel. -/
structure Env where
  /-- The device has an ext2 file system. -/
  mounted : ℕ → Bool
  /-- The inode table block of this inode can be read. -/
  bread : ℕ → ℕ → Bool

namespace ICache

def modify (c : ICache) (ip : Node) (f : Inode → Inode) : ICache :=
  { c with ino := Function.update c.ino ip (f (c.ino ip)) }

def inHashQueue (c : ICache) (dev num : ℕ) : Except Halt (Option Node) :=
  c.ptrs.inHashQueue (bufHash dev num) fun ip =>
    decide ((c.ino ip).iDev = dev) && decide ((c.ino ip).iNum = num)

def removeFromFreeList (c : ICache) (ip : Node) : Except Halt ICache := do
  let ptrs ← c.ptrs.removeFromFreeList false
    "remove_from_free_list: inode free list has been corrupted" ip
  .ok { c with ptrs := ptrs }

/-- `remove_from_hash_queue`.  Its test looks at `i_prev` twice, so that a null
`i_next` alone is not noticed but followed. -/
def removeFromHashQueue (c : ICache) (ip : Node) : Except Halt ICache :=
  match c.ptrs.hash.prev ip, c.ptrs.hash.next ip with
  | some _, none => .error .nullDeref
  | _, _ => do
      let ptrs ← c.ptrs.removeFromHashQueue "remove_from_hash_queue: inode hash queue corrupted"
        (bufHash (c.ino ip).iDev (c.ino ip).iNum) ip
      .ok { c with ptrs := ptrs }

def putIntoHashQueue (c : ICache) (ip : Node) : Except Halt ICache := do
  let ptrs ← c.ptrs.putIntoHashQueue (bufHash (c.ino ip).iDev (c.ino ip).iNum) ip
  .ok { c with ptrs := ptrs }

def putIntoFreeList (c : ICache) (ip : Node) : Except Halt ICache :=
  if (c.ino ip).iCount ≠ 0 then
    .error (.panic "put_into_free_list: inode reference count is not zero")
  else do
    let ptrs ← c.ptrs.putLast ip
    .ok { c with ptrs := ptrs }

/-- The inode table block which `read_inode` and `write_inode` need. -/
def inodeBlock (env : Env) (c : ICache) (ip : Node) : Except Halt Unit :=
  if env.mounted (c.ino ip).iDev = false then .error (.panic "get_ext2_superblock: invalid device")
  else if env.bread (c.ino ip).iDev (c.ino ip).iNum = false then .error .nullDeref
  else .ok ()

def readInode (env : Env) (c : ICache) (ip : Node) : Except Halt ICache := do
  c.inodeBlock env ip
  .ok (c.modify ip fun i => { i with iLinksCount := c.disk i.iDev i.iNum })

def writeInode (env : Env) (c : ICache) (ip : Node) : Except Halt ICache := do
  c.inodeBlock env ip
  .ok { c.modify ip fun i => { i with modified := false } with
    disk := Function.update c.disk (c.ino ip).iDev
      (Function.update (c.disk (c.ino ip).iDev) (c.ino ip).iNum (c.ino ip).iLinksCount) }

/-- The inode is in the cache. -/
def lockFound (c : ICache) (current : ℕ) (ip : Node) : Except Halt (Option Node × ICache) :=
  if mutexLocked (c.ino ip).iMutex current then .error .asleep
  else do
    let m ← mutexLock (c.ino ip).iMutex current
    let c ← (c.modify ip fun i => { i with iMutex := m }).removeFromFreeList ip
    .ok (some ip, c.modify ip fun i => { i with iCount := i.iCount + 1 })

/-- The inode is read into an object of the free list. -/
def load (env : Env) (c : ICache) (current dev num : ℕ) (ip : Node) :
    Except Halt (Option Node × ICache) := do
  let m ← mutexLock (c.ino ip).iMutex current
  let c ← (c.modify ip fun i => { i with iMutex := m }).removeFromFreeList ip
  let c ← c.removeFromHashQueue ip
  let c ← (c.modify ip fun i => { i with iDev := dev, iNum := num }).putIntoHashQueue ip
  let c ← c.readInode env ip
  .ok (some ip, c.modify ip fun i => { i with iCount := 1 })

/-- `ext2_iget`; the null pointer is `none`. -/
def iget (env : Env) (c : ICache) (current dev num : ℕ) : Except Halt (Option Node × ICache) := do
  match ← c.inHashQueue dev num with
  | some ip => c.lockFound current ip
  | none =>
      match c.ptrs.free.next .freeList with
      | none => .ok (none, c)
      | some ip => c.load env current dev num ip

/-- An inode without links is truncated and freed. -/
def discard (c : ICache) (ip : Node) : ICache :=
  if (c.ino ip).iLinksCount = 0 then c.modify ip fun i => { i with modified := true } else c

def writeModified (env : Env) (c : ICache) (ip : Node) : Except Halt ICache :=
  if (c.ino ip).modified then c.writeInode env ip else .ok c

/-- The part of `ext2_iput` for an inode without references. -/
def retire (env : Env) (c : ICache) (ip : Node) : Except Halt ICache :=
  if (c.ino ip).iCount = 0 then do
    let c ← (c.discard ip).writeModified env ip
    c.putIntoFreeList ip
  else .ok c

/-- `ext2_iput` does not wait for a mutex of another process. -/
def iputLock (m : Mutex) (current : ℕ) : Except Halt Mutex :=
  if mutexLocked m current then .ok m else mutexLock m current

/-- `ext2_iput`. -/
def iput (env : Env) (c : ICache) (current : ℕ) (ip : Node) : Except Halt ICache := do
  let m ← iputLock (c.ino ip).iMutex current
  if (c.ino ip).iCount = 0 then .error (.panic "ext2_iput: ip->i_count == 0")
  else do
    let c ← (c.modify ip fun i => { i with iMutex := m, iCount := i.iCount - 1 }).retire env ip
    .ok (c.modify ip fun i => { i with iMutex := mutexUnlock })

/-- The body of the loop of `ext2_inode_sync`. -/
def syncSlot (env : Env) (current : ℕ) (c : ICache) (i : Fin nrEntries) : Except Halt ICache :=
  if (c.ino (.entry i)).iDev ≠ 0 ∧ (c.ino (.entry i)).modified then do
    let m ← mutexLock (c.ino (.entry i)).iMutex current
    let c ← (c.modify (.entry i) fun i =>
      { i with iMutex := m, iCount := i.iCount + 1 }).writeInode env (.entry i)
    let c ← c.iput env current (.entry i)
    .ok (c.modify (.entry i) fun i => { i with iMutex := mutexUnlock })
  else .ok c

/-- `ext2_inode_sync`. -/
def inodeSync (env : Env) (c : ICache) (current : ℕ) : Except Halt ICache :=
  (List.finRange nrEntries).foldlM (syncSlot env current) c

/-- The dummy is a static object, all zero. -/
def zeroInode : Inode where
  iDev := 0
  iNum := 0
  iMutex := mutexUnlock
  modified := false
  iCount := 0
  iLinksCount := 0

/-- `ext2_inodes_init`, where `heap` is what the array holds before. -/
def inodesInit (heap : Fin nrEntries → Inode) (disk : ℕ → ℕ → ℕ) : ICache where
  ptrs := Pointers.init
  ino x :=
    match x with
    | .entry i => { heap i with iDev := 0, iCount := 0, modified := false }
    | _ => zeroInode
  disk := disk

end ICache

end Yak.InodeCache
