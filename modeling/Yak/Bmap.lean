import Yak.Ext2
import Yak.WordMemory

/-!
# Blocks of a file

A transcription of `fs/ext2/bmap.c`, of the routines of `fs/ext2/balloc.c` which free
whole trees of blocks, and of `ext2_itrunc` and `ext2_iput`.  What `ext2_iput` writes to
the inode table is left out.
-/

namespace Yak.Ext2

open ByteBitmap WordMemory

/-- `struct ext2_inode_m`, as far as it is used here. -/
structure InodeM extends Inode where
  iMode : ℕ
  iLinksCount : ℕ
  iSize : ℕ
  /-- The array `i_block` of 15 words. -/
  iBlock : ℕ → ℕ
  iCount : ℕ
  /-- Ghost: the blocks which `ext2_balloc` has handed out for the inode. -/
  allocated : List ℕ

namespace InodeM

def indirectBlock : ℕ := 12
def dindirectBlock : ℕ := 13
def tindirectBlock : ℕ := 14

def setBlock (ip : InodeM) (i b : ℕ) : InodeM := { ip with iBlock := Function.update ip.iBlock i b }

end InodeM

namespace Fs

/-! ## Allocation -/

/-- The number of block addresses in a block. -/
def indirBlocks (fs : Fs) : ℕ := fs.sb.blocksize / 4

/-- The block address at an index of a block. -/
def pointer (fs : Fs) (b k : ℕ) : ℕ := load32 (fs.blocks b) (4 * k)

def setPointer (fs : Fs) (b k v : ℕ) : Fs := fs.setBlock b (store32 (fs.blocks b) (4 * k) v)

/-- `ext2_balloc` for the inode. -/
def ballocFor (fs : Fs) (ip : InodeM) : Except Halt (ℕ × Fs × InodeM) := do
  let (block, fs, inode) ← fs.balloc ip.toInode
  .ok (block, fs,
    { ip with
      toInode := inode
      allocated := if block = 0 then ip.allocated else block :: ip.allocated })

/-- Down from a block through index blocks, by the index at each level.  The address of
a level that is missing is allocated if `create` is set. -/
def bmapLevels (fs : Fs) (ip : InodeM) (create : Bool) :
    (block : ℕ) → List ℕ → Except Halt (ℕ × Fs × InodeM)
  | block, [] => .ok (block, fs, ip)
  | block, k :: ks =>
      if block = 0 then .ok (0, fs, ip)
      else if fs.indirBlocks ≤ k then .error .outOfBounds
      else if create ∧ fs.pointer block k = 0 then do
        let (new, fs, ip) ← fs.ballocFor ip
        bmapLevels (fs.setPointer block k new) ip create new ks
      else bmapLevels fs ip create (fs.pointer block k) ks

/-- The same from an entry of `i_block` on. -/
def bmapFrom (fs : Fs) (ip : InodeM) (create : Bool) (slot : ℕ) (ks : List ℕ) :
    Except Halt (ℕ × Fs × InodeM) :=
  if create ∧ ip.iBlock slot = 0 then do
    let (new, fs, ip) ← fs.ballocFor ip
    fs.bmapLevels (ip.setBlock slot new) create new ks
  else fs.bmapLevels ip create (ip.iBlock slot) ks

/-- A byte of type `char` as a block address. -/
def charAddr (c : BitVec 8) : ℕ := (c.signExtend 32).toNat

/-- `bmap_create_indirect`.  The array `b_data` has elements of type `char`. -/
def bmapCreateIndirect (fs : Fs) (ip : InodeM) (lblk : ℕ) (create : Bool) :
    Except Halt (ℕ × Fs × InodeM) := do
  let k := lblk - 12
  let (b, fs, ip) ←
    if create ∧ ip.iBlock InodeM.indirectBlock = 0 then do
      let (new, fs, ip) ← fs.ballocFor ip
      .ok (new, fs, ip.setBlock InodeM.indirectBlock new)
    else .ok (ip.iBlock InodeM.indirectBlock, fs, ip)
  if b = 0 then .ok (0, fs, ip)
  else if create then
    if charAddr (fs.blocks b k) = 0 then do
      let (new, fs, ip) ← fs.ballocFor ip
      let c := BitVec.ofNat 8 new
      .ok (charAddr c, fs.setBlock b (Function.update (fs.blocks b) k c), ip)
    else .ok (charAddr (fs.blocks b k), fs, ip)
  else .ok (0, fs, ip)

def dindirBlocks (fs : Fs) : ℕ := fs.indirBlocks * fs.indirBlocks % 2 ^ 32

/-- `bmap_create_dindirect` -/
def bmapCreateDindirect (fs : Fs) (ip : InodeM) (lblk : ℕ) (create : Bool) :
    Except Halt (ℕ × Fs × InodeM) :=
  let l := lblk - (12 + fs.indirBlocks)
  fs.bmapFrom ip create InodeM.dindirectBlock [l / fs.indirBlocks, l % fs.indirBlocks]

/-- `bmap_create_tindirect`.  The second index is not reduced.  The number by which the first
one is computed is 0 in 32 bits when a block is large. -/
def bmapCreateTindirect (fs : Fs) (ip : InodeM) (lblk : ℕ) (create : Bool) :
    Except Halt (ℕ × Fs × InodeM) :=
  let l := lblk - (12 + fs.indirBlocks + fs.dindirBlocks)
  if fs.dindirBlocks = 0 then do
    let (b, fs, ip) ← fs.bmapFrom ip create InodeM.tindirectBlock []
    if b = 0 then .ok (0, fs, ip) else .error .divideByZero
  else
    fs.bmapFrom ip create InodeM.tindirectBlock
      [l / fs.dindirBlocks, l / fs.indirBlocks, l % fs.indirBlocks]

/-- `bmap_create` -/
def bmapCreate (fs : Fs) (ip : InodeM) (off : ℕ) (create : Bool) :
    Except Halt (ℕ × Fs × InodeM) :=
  let lblk := off / fs.sb.blocksize
  if lblk ≤ 11 then fs.bmapFrom ip create lblk []
  else if lblk < fs.indirBlocks + 12 then fs.bmapCreateIndirect ip lblk create
  else if lblk < fs.dindirBlocks + fs.indirBlocks + 12 then fs.bmapCreateDindirect ip lblk create
  else fs.bmapCreateTindirect ip lblk create

/-- `ext2_bmap` -/
def bmap (fs : Fs) (ip : InodeM) (off : ℕ) : Except Halt (ℕ × Fs × InodeM) :=
  fs.bmapCreate ip off false

/-- `ext2_create_block` -/
def createBlock (fs : Fs) (ip : InodeM) (off : ℕ) : Except Halt (ℕ × Fs × InodeM) :=
  fs.bmapCreate ip off true

/-! ## Truncation -/

/-- `ext2_bfree`, `ext2_bfree_indirect`, `ext2_bfree_dindirect` and
`ext2_bfree_tindirect`, by the number of levels of index blocks. -/
def bfreeTree : (levels : ℕ) → Fs → ℕ → Except Halt Fs
  | 0, fs, block => fs.bfree block
  | levels + 1, fs, block =>
      if block = 0 then .ok fs
      else do
        let fs ← (List.range fs.indirBlocks).foldlM
          (fun fs k => bfreeTree levels fs (fs.pointer block k)) fs
        fs.bfree block

/-- How many levels of index blocks there are below an entry of `i_block`. -/
def levelsOf (slot : ℕ) : ℕ := slot - 11

/-- `ext2_itrunc` -/
def itrunc (fs : Fs) (ip : InodeM) : Except Halt (Fs × InodeM) := do
  let fs ← (List.range 15).foldlM (fun fs i => bfreeTree (levelsOf i) fs (ip.iBlock i)) fs
  .ok (fs, { ip with iBlock := fun _ => 0, iBlocks := 0, iSize := 0, modified := true })

/-- `ext2_iput` -/
def iput (fs : Fs) (ip : InodeM) : Except Halt (Fs × InodeM) :=
  if ip.iCount = 0 then .error (.panic "ext2_iput: ip->i_count == 0")
  else if ip.iCount = 1 ∧ ip.iLinksCount = 0 then do
    let (fs, ip) ← fs.itrunc { ip with iCount := 0 }
    let fs ← fs.ifree ip.iNum
    .ok (fs, { ip with modified := false })
  else if ip.iCount = 1 then .ok (fs, { ip with iCount := 0, modified := false })
  else .ok (fs, { ip with iCount := ip.iCount - 1 })

end Fs

/-! ## New inodes -/

def sIfmt : ℕ := 0xF000
def sIfblk : ℕ := 0x6000
def sIfchr : ℕ := 0x2000
def sIflnk : ℕ := 0xA000

/-- `EXT2_S_ISCHR` or `EXT2_S_ISBLK` -/
def isDevice (mode : ℕ) : Prop := mode &&& sIfmt = sIfchr ∨ mode &&& sIfmt = sIfblk

instance (mode : ℕ) : Decidable (isDevice mode) := inferInstanceAs (Decidable (_ ∨ _))

/-- A number whose low bytes are cleared. -/
def clearLow (n x : ℕ) : ℕ := x / 256 ^ n * 256 ^ n

/-- The inode which `ext2_new_file` sets up, with `EXT2_INODE_SIZE` bytes of it cleared by
`memset`.  Behind the inode of the disk, `i_dev` is at 136, `i_num` at 140 and `i_count` at 148. -/
def newFile (size num mode dev : ℕ) : InodeM where
  iNum := clearLow (size - 140) num
  iBlocks := 0
  modified := true
  iMode := mode
  iLinksCount := 1
  iSize := 0
  iBlock i := if isDevice mode ∧ i = 0 then dev else 0
  iCount := clearLow (size - 148) 1
  allocated := []

def fastSymlinkLen : ℕ := 60

/-- The inode which `ext2_symlink` makes.  A long text goes to the block which
`ext2_bmap` returns, and that is block 0. -/
def newSymlink (size num : ℕ) (text : List (BitVec 8)) : InodeM :=
  { newFile size num (0o777 ||| sIflnk) 0 with
    iSize := text.length
    iBlock := fun i =>
      if text.length < fastSymlinkLen ∧ i < 15 then
        load32 (fun j => text.getD j 0#8) (4 * i)
      else 0 }

end Yak.Ext2
