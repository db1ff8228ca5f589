import Yak.Bitmap
import Yak.Halt

/-!
# Block and inode allocation in ext2

A transcription of `fs/ext2/balloc.c` (without the routines which free whole
indirect trees), of `fs/ext2/ialloc.c` and of the checks of `ext2_init`.  Blocks
are read and written through the buffer cache; here the device is the abstract
one which the cache is meant to be, a function from block numbers to bytes.  What
`ext2_balloc` zeroes without marking it done may be read from the disk again, so a
block which was handed out has whatever the next `bread` finds.  Accesses behind the end of a block or of the descriptor table are halts.
-/

namespace Yak.Ext2

open ByteBitmap

/-- The fields of `struct ext2_superblock` which the code below reads. -/
structure Superblock where
  sInodesCount : ℕ
  sBlocksCount : ℕ
  sFreeBlocksCount : ℕ
  sFreeInodesCount : ℕ
  sFirstDataBlock : ℕ
  sLogBlockSize : ℕ
  sBlocksPerGroup : ℕ
  sInodesPerGroup : ℕ
  sMagic : ℕ
  sState : ℕ
  sErrors : ℕ
  sRevLevel : ℕ
  sFirstIno : ℕ
  deriving DecidableEq

/-- `struct ext2_blk_group_desc`, as far as it is read. -/
structure GroupDesc where
  bgBlockBitmap : ℕ
  bgInodeBitmap : ℕ
  bgFreeBlocksCount : ℕ
  bgFreeInodesCount : ℕ
  deriving DecidableEq

/-- The mounted file system: `struct ext2_superblock_m` and the device. -/
structure Fs where
  sb : Superblock
  bgdTable : ℕ → GroupDesc
  nrBlkGroup : ℕ
  modified : Bool
  blocks : ℕ → Bytes
  /-- What is found in the blocks which `ext2_balloc` hands out, one after the other. -/
  found : ℕ → Bytes := fun _ _ => 0#8

/-- The fields of `struct ext2_inode_m` which allocation uses. -/
structure Inode where
  iNum : ℕ
  iBlocks : ℕ
  modified : Bool
  deriving DecidableEq

/-! ## The superblock -/

namespace Superblock

def ext2Magic : ℕ := 0xEF53
def ext2ErrorFs : ℕ := 2
def ext2ErrorsPanic : ℕ := 3

/-- `EXT2_BLOCKSIZE` -/
def blocksize (sb : Superblock) : ℕ := (1024 <<< sb.sLogBlockSize) % 2 ^ 32

theorem blocksize_eq_zero {sb : Superblock} (h : 22 ≤ sb.sLogBlockSize) : sb.blocksize = 0 := by
  have hsplit : 1024 * 2 ^ sb.sLogBlockSize = 2 ^ (sb.sLogBlockSize - 22) * 2 ^ 32 := by
    have hpow : (1024 : ℕ) = 2 ^ 10 := by norm_num
    rw [hpow, ← pow_add, ← pow_add]
    congr 1
    omega
  unfold blocksize
  rw [Nat.shiftLeft_eq, hsplit, Nat.mul_mod_left]

theorem blocksize_ge {sb : Superblock} (h : sb.blocksize ≠ 0) : 1024 ≤ sb.blocksize := by
  have hs : sb.sLogBlockSize < 22 := by
    by_contra hge
    exact h (blocksize_eq_zero (Nat.not_lt.mp hge))
  unfold blocksize
  rw [Nat.shiftLeft_eq]
  interval_cases sb.sLogBlockSize <;> decide

theorem blocksize_lt (sb : Superblock) : sb.blocksize < 2 ^ 32 := Nat.mod_lt _ (by norm_num)

theorem blocksize_of_log_zero {sb : Superblock} (h : sb.sLogBlockSize = 0) : sb.blocksize = 1024 := by
  unfold blocksize
  rw [h]
  rfl

theorem blocksize_eq {sb : Superblock} (hlog : sb.sLogBlockSize < 22) :
    sb.blocksize = 1024 * 2 ^ sb.sLogBlockSize := by
  have hpow : 2 ^ sb.sLogBlockSize ≤ 2 ^ 21 :=
    Nat.pow_le_pow_right (by decide) (Nat.le_of_lt_succ hlog)
  unfold blocksize
  rw [Nat.shiftLeft_eq, Nat.mod_eq_of_lt (by omega)]

theorem larger_blocksize {sb : Superblock} (hlog : sb.sLogBlockSize < 22)
    (hne : sb.sLogBlockSize ≠ 0) : 2048 ≤ sb.blocksize := by
  have hvalue := blocksize_eq hlog
  have htwo : 2 ^ 1 ≤ 2 ^ sb.sLogBlockSize :=
    Nat.pow_le_pow_right (by decide) (Nat.one_le_iff_ne_zero.mpr hne)
  omega

/-- The size of a block is an `int`. -/
theorem blocksize_lt_int {sb : Superblock} (hlog : sb.sLogBlockSize < 21) :
    sb.blocksize < 2 ^ 31 := by
  have hpow : 2 ^ sb.sLogBlockSize ≤ 2 ^ 20 :=
    Nat.pow_le_pow_right (by decide) (Nat.le_of_lt_succ hlog)
  rw [blocksize_eq (by omega)]
  omega

theorem blocksize_pos {sb : Superblock} (hlog : sb.sLogBlockSize < 22) : 0 < sb.blocksize := by
  rw [blocksize_eq hlog]
  positivity

/-- `EXT2_FIRST_FREE_INO` -/
def firstFreeIno (sb : Superblock) : ℕ := if 1 ≤ sb.sRevLevel then sb.sFirstIno else 11

/-- The number of groups of this size which cover a count. -/
def groupsFor (count per : ℕ) : ℕ := if count % per = 0 then count / per else count / per + 1

/-- The checks of `ext2_init`, which give the number of block groups. -/
def ext2Init (sb : Superblock) : Except Halt ℕ :=
  if sb.sMagic ≠ ext2Magic then
    .error (.panic "ext2_init: Root device not an ext2 filesystem")
  else if sb.sState = ext2ErrorFs ∧ sb.sErrors = ext2ErrorsPanic then
    .error (.panic "ext2_init: ext2 superblock tells kernel to panic as filesystem has errors!")
  else if sb.sInodesPerGroup = 0 ∨ sb.sBlocksPerGroup = 0 then .error .divideByZero
  else if groupsFor sb.sInodesCount sb.sInodesPerGroup ≠
      groupsFor sb.sBlocksCount sb.sBlocksPerGroup then
    .error (.panic "ext2_init: Superblock corrupted")
  else .ok (groupsFor sb.sInodesCount sb.sInodesPerGroup)

end Superblock

namespace Fs

def sectorSize : ℕ := 512

/-- A decrement of an unsigned field of this many bits. -/
def decr (bits x : ℕ) : ℕ := if x = 0 then 2 ^ bits - 1 else x - 1

/-- An increment of an unsigned field of this many bits. -/
def incr (bits x : ℕ) : ℕ := if x + 1 = 2 ^ bits then 0 else x + 1

/-- The number of bits of a bitmap block. -/
def bitsPerBlock (fs : Fs) : ℕ := 8 * fs.sb.blocksize

def setBlock (fs : Fs) (n : ℕ) (b : Bytes) : Fs :=
  { fs with blocks := Function.update fs.blocks n b }

@[simp] theorem setBlock_sb (fs : Fs) (n : ℕ) (b : Bytes) : (fs.setBlock n b).sb = fs.sb := rfl

/-- The block after it was zeroed, as the next `bread` finds it: the zeros if the buffer is still
there and done, or was written, and what the disk holds otherwise. -/
def handOut (fs : Fs) (n : ℕ) : Fs :=
  { fs.setBlock n (fs.found 0) with found := fun i => fs.found (i + 1) }

@[simp] theorem handOut_sb (fs : Fs) (n : ℕ) : (fs.handOut n).sb = fs.sb := rfl

@[simp] theorem handOut_bgdTable (fs : Fs) (n : ℕ) : (fs.handOut n).bgdTable = fs.bgdTable := rfl

@[simp] theorem handOut_self (fs : Fs) (n : ℕ) : (fs.handOut n).blocks n = fs.found 0 := by
  simp [handOut, setBlock]

/-! ## Blocks -/

/-- Mark bit `off` in the block bitmap of a group and count it. -/
def takeBlock (fs : Fs) (g off : ℕ) : Fs where
  sb := { fs.sb with sFreeBlocksCount := decr 32 fs.sb.sFreeBlocksCount }
  bgdTable := Function.update fs.bgdTable g
    { fs.bgdTable g with bgFreeBlocksCount := decr 16 (fs.bgdTable g).bgFreeBlocksCount }
  nrBlkGroup := fs.nrBlkGroup
  modified := true
  blocks := Function.update fs.blocks (fs.bgdTable g).bgBlockBitmap
    (setBit (fs.blocks (fs.bgdTable g).bgBlockBitmap) off)
  found := fs.found

/-- `balloc_bgd`.  A search without success would write behind the block. -/
def ballocBgd (fs : Fs) (g : ℕ) : Except Halt (ℕ × Fs) :=
  if (fs.bgdTable g).bgFreeBlocksCount = 0 then .ok (0, fs)
  else
    match scan (fs.blocks (fs.bgdTable g).bgBlockBitmap) fs.bitsPerBlock 0 with
    | none => .error .outOfBounds
    | some off =>
        .ok ((off + g * fs.sb.sBlocksPerGroup + fs.sb.sFirstDataBlock) % 2 ^ 32,
          fs.takeBlock g off)

/-- The loop of `ext2_balloc` over the groups other than `skip`. -/
def ballocOthers (fs : Fs) (skip : ℕ) : List ℕ → Except Halt (ℕ × Fs)
  | [] => .ok (0, fs)
  | g :: gs =>
      if g = skip then fs.ballocOthers skip gs
      else do
        let (block, fs) ← fs.ballocBgd g
        if block ≠ 0 then .ok (block, fs) else fs.ballocOthers skip gs

/-- The group of the descriptor which is used for an inode. -/
def inodeGroup (fs : Fs) (num : ℕ) : ℕ := decr 32 num / fs.sb.sInodesPerGroup

/-- `ext2_balloc` up to the label `out`. -/
def ballocGroups (fs : Fs) (num : ℕ) : Except Halt (ℕ × Fs) :=
  if fs.sb.sFreeBlocksCount = 0 then .ok (0, fs)
  else if fs.nrBlkGroup ≤ fs.inodeGroup num then .error .outOfBounds
  else do
    let (block, fs') ← fs.ballocBgd (fs.inodeGroup num)
    if block ≠ 0 then .ok (block, fs')
    else fs'.ballocOthers (fs.inodeGroup num) (List.range fs.nrBlkGroup)

/-- `ext2_balloc`.  The block is zeroed also when it is block 0, that is, when
nothing was found. -/
def balloc (fs : Fs) (ip : Inode) : Except Halt (ℕ × Fs × Inode) := do
  let (block, fs) ← fs.ballocGroups ip.iNum
  .ok (block, fs.handOut block,
    { ip with
      iBlocks := (ip.iBlocks + fs.sb.blocksize / sectorSize) % 2 ^ 32, modified := true })

/-- Unmark bit `b` in the block bitmap of a group and count it. -/
def giveBlock (fs : Fs) (g b : ℕ) : Fs where
  sb := { fs.sb with sFreeBlocksCount := incr 32 fs.sb.sFreeBlocksCount }
  bgdTable := Function.update fs.bgdTable g
    { fs.bgdTable g with bgFreeBlocksCount := incr 16 (fs.bgdTable g).bgFreeBlocksCount }
  nrBlkGroup := fs.nrBlkGroup
  modified := true
  blocks := Function.update fs.blocks (fs.bgdTable g).bgBlockBitmap
    (clearBit (fs.blocks (fs.bgdTable g).bgBlockBitmap) b)
  found := fs.found

/-- The bit of the bitmap which `ext2_bfree` computes. -/
def bfreeBit (fs : Fs) (block : ℕ) : ℕ :=
  (block + (2 ^ 32 - (fs.sb.sFirstDataBlock +
    block / fs.sb.sBlocksPerGroup * fs.sb.sBlocksPerGroup) % 2 ^ 32)) % 2 ^ 32

/-- `ext2_bfree`. -/
def bfree (fs : Fs) (block : ℕ) : Except Halt Fs :=
  let g := block / fs.sb.sBlocksPerGroup
  if block = 0 then .ok fs
  else if fs.nrBlkGroup ≤ g then .error .outOfBounds
  else if fs.bitsPerBlock ≤ fs.bfreeBit block then .error .outOfBounds
  else if getBit (fs.blocks (fs.bgdTable g).bgBlockBitmap) (fs.bfreeBit block) = false then
    .error (.panic "bfree: block is already free")
  else .ok (fs.giveBlock g (fs.bfreeBit block))

/-! ## Inodes -/

def takeInode (fs : Fs) (g off : ℕ) : Fs where
  sb := { fs.sb with sFreeInodesCount := decr 32 fs.sb.sFreeInodesCount }
  bgdTable := Function.update fs.bgdTable g
    { fs.bgdTable g with bgFreeInodesCount := decr 16 (fs.bgdTable g).bgFreeInodesCount }
  nrBlkGroup := fs.nrBlkGroup
  modified := true
  blocks := Function.update fs.blocks (fs.bgdTable g).bgInodeBitmap
    (setBit (fs.blocks (fs.bgdTable g).bgInodeBitmap) off)
  found := fs.found

/-- `ialloc_bgd`.  The search looks at the byte behind the block before it
notices the end. -/
def iallocBgd (fs : Fs) (g : ℕ) : Except Halt (ℕ × Fs) :=
  if (fs.bgdTable g).bgFreeInodesCount = 0 then .ok (0, fs)
  else
    match scan (fs.blocks (fs.bgdTable g).bgInodeBitmap) fs.bitsPerBlock 0 with
    | none => .error .outOfBounds
    | some off => .ok (off + 1, fs.takeInode g off)

/-- The loop of `ext2_ialloc`. -/
def iallocGroups (fs : Fs) : List ℕ → Except Halt (ℕ × Fs)
  | [] => .ok (0, fs)
  | g :: gs => do
      let (num, fs) ← fs.iallocBgd g
      if num ≠ 0 then .ok (num, fs) else fs.iallocGroups gs

/-- `ext2_ialloc`. -/
def ialloc (fs : Fs) : Except Halt (ℕ × Fs) :=
  if fs.sb.sFreeInodesCount = 0 then .ok (0, fs)
  else fs.iallocGroups (List.range fs.nrBlkGroup)

def giveInode (fs : Fs) (g b : ℕ) : Fs where
  sb := { fs.sb with sFreeInodesCount := incr 32 fs.sb.sFreeInodesCount }
  bgdTable := Function.update fs.bgdTable g
    { fs.bgdTable g with bgFreeInodesCount := incr 16 (fs.bgdTable g).bgFreeInodesCount }
  nrBlkGroup := fs.nrBlkGroup
  modified := true
  blocks := Function.update fs.blocks (fs.bgdTable g).bgInodeBitmap
    (clearBit (fs.blocks (fs.bgdTable g).bgInodeBitmap) b)
  found := fs.found

/-- `ext2_ifree`. -/
def ifree (fs : Fs) (ino : ℕ) : Except Halt Fs :=
  if ino < fs.sb.firstFreeIno then .ok fs
  else if fs.nrBlkGroup ≤ fs.inodeGroup ino then .error .outOfBounds
  else if fs.bitsPerBlock ≤ decr 32 ino then .error .outOfBounds
  else if getBit (fs.blocks (fs.bgdTable (fs.inodeGroup ino)).bgInodeBitmap) (decr 32 ino) =
      false then
    .error (.panic "bfree: block is already free")
  else .ok (fs.giveInode (fs.inodeGroup ino) (decr 32 ino))

end Fs

end Yak.Ext2
