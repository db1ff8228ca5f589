import Yak.DirAdd
import Yak.RecordMemory

/-!
# Inodes in memory

`struct ext2_inode_m` as the bytes of its object.  The first 128 bytes are the inode of the disk.
Behind them lie the mutex and, from 136 on, `i_dev`, `i_num`, `i_flags` and `i_count`.
-/

namespace Yak.Ext2

open ByteBitmap WordMemory

/-- The array `i_block` as bytes. -/
def InodeM.blockBytes (ip : InodeM) : Bytes := fun x =>
  BitVec.ofNat 8 (ip.iBlock (x / 4) / 2 ^ (8 * (x % 4)))

namespace InodeObject

section Fields

variable (obj : Bytes) (v : ℕ)

def iMode : ℕ := load16 obj 0
def iSize : ℕ := load32 obj 4
def iLinksCount : ℕ := load16 obj 26
def iBlocks : ℕ := load32 obj 28
def iBlock (i : ℕ) : ℕ := load32 obj (40 + 4 * i)
def iDev : ℕ := load32 obj 136
def iNum : ℕ := load32 obj 140
def iFlags : ℕ := load32 obj 144
def iCount : ℕ := load32 obj 148

def setMode : Bytes := store16 obj 0 v
def setUid : Bytes := store16 obj 2 v
def setSize : Bytes := store32 obj 4 v
def setAtime : Bytes := store32 obj 8 v
def setCtime : Bytes := store32 obj 12 v
def setMtime : Bytes := store32 obj 16 v
def setDtime : Bytes := store32 obj 20 v
def setGid : Bytes := store16 obj 24 v
def setLinksCount : Bytes := store16 obj 26 v
def setBlocks : Bytes := store32 obj 28 v
def setDev : Bytes := store32 obj 136 v
def setNum : Bytes := store32 obj 140 v
def setFlags : Bytes := store32 obj 144 v
def setCount : Bytes := store32 obj 148 v

end Fields

/-- The flag `I_MODIFIED` is set. -/
def setModified (obj : Bytes) : Bytes := setFlags obj (iFlags obj ||| 1)

/-- The inode in an object. -/
def toInode (obj : Bytes) (allocated : List ℕ) : InodeM where
  iNum := iNum obj
  iBlocks := iBlocks obj
  modified := decide (iFlags obj % 2 = 1)
  iMode := iMode obj
  iLinksCount := iLinksCount obj
  iSize := iSize obj
  iBlock i := if i < 15 then iBlock obj i else 0
  iCount := iCount obj
  allocated := allocated

/-- The array `i_block` is written to its place. -/
def putArray (obj : Bytes) (ip : InodeM) : Bytes := fun x =>
  if 40 ≤ x ∧ x < 100 then ip.blockBytes (x - 40) else obj x

/-- The fields of an inode are written to its object. -/
def putInode (obj : Bytes) (ip : InodeM) : Bytes :=
  let obj := setMode obj ip.iMode
  let obj := setSize obj ip.iSize
  let obj := setLinksCount obj ip.iLinksCount
  let obj := setBlocks obj ip.iBlocks
  let obj := setNum obj ip.iNum
  let obj := setFlags obj (iFlags obj / 2 * 2 + ip.modified.toNat)
  let obj := setCount obj ip.iCount
  putArray obj ip

/-- The fields of the inode have the widths of the structure. -/
structure Fits (ip : InodeM) : Prop where
  iNum : ip.iNum < 2 ^ 32
  iBlocks : ip.iBlocks < 2 ^ 32
  iMode : ip.iMode < 2 ^ 16
  iLinksCount : ip.iLinksCount < 2 ^ 16
  iSize : ip.iSize < 2 ^ 32
  iBlock : ∀ i < 15, ip.iBlock i < 2 ^ 32
  behind : ∀ i, 15 ≤ i → ip.iBlock i = 0
  iCount : ip.iCount < 2 ^ 32

variable {obj : Bytes} {ip : InodeM} {allocated : List ℕ}

theorem iBlock_toInode {i : ℕ} (hi : i < 15) : (toInode obj allocated).iBlock i = iBlock obj i :=
  if_pos hi

theorem fits_toInode : Fits (toInode obj allocated) where
  iNum := load32_lt _ _
  iBlocks := load32_lt _ _
  iMode := load16_lt _ _
  iLinksCount := load16_lt _ _
  iSize := load32_lt _ _
  iBlock i hi := by
    rw [iBlock_toInode hi]
    exact load32_lt _ _
  behind i hi := if_neg (Nat.not_lt.mpr hi)
  iCount := load32_lt _ _

theorem blockBytes_toInode {x : ℕ} (hx : x < 60) :
    (toInode obj allocated).blockBytes x = obj (40 + x) := by
  have hsplit : 40 + 4 * (x / 4) + x % 4 = 40 + x := by omega
  unfold InodeM.blockBytes
  rw [iBlock_toInode (by omega)]
  unfold iBlock
  rw [ofNat_load32 (Nat.mod_lt _ (by decide)), hsplit]

theorem putArray_apply {x : ℕ} (hx : x < 40 ∨ 100 ≤ x) : putArray obj ip x = obj x :=
  if_neg (by omega)

theorem load32_putArray_of_ne {a : ℕ} (h : a + 4 ≤ 40 ∨ 100 ≤ a) :
    load32 (putArray obj ip) a = load32 obj a := by
  apply load32_congr
  intro x _ _
  apply putArray_apply
  omega

theorem load16_putArray_of_ne {a : ℕ} (h : a + 2 ≤ 40 ∨ 100 ≤ a) :
    load16 (putArray obj ip) a = load16 obj a := by
  apply load16_congr
  intro x _ _
  apply putArray_apply
  omega

theorem iBlock_putArray {i : ℕ} (hi : i < 15) (hfits : ip.iBlock i < 2 ^ 32) :
    iBlock (putArray obj ip) i = ip.iBlock i := by
  have hbyte : ∀ k < 4, (putArray obj ip (40 + 4 * i + k)).toNat =
      ip.iBlock i / 2 ^ (8 * k) % 2 ^ 8 := by
    intro k hk
    have hword : (40 + 4 * i + k - 40) / 4 = i := by omega
    have hpart : (40 + 4 * i + k - 40) % 4 = k := by omega
    unfold putArray InodeM.blockBytes
    rw [if_pos (by omega), hword, hpart, BitVec.toNat_ofNat]
  have h0 := hbyte 0 (by decide)
  have h1 := hbyte 1 (by decide)
  have h2 := hbyte 2 (by decide)
  have h3 := hbyte 3 (by decide)
  rw [Nat.mul_zero, pow_zero, Nat.div_one, Nat.add_zero] at h0
  unfold iBlock load32
  rw [h0, h1, h2, h3]
  omega

theorem iMode_putInode : iMode (putInode obj ip) = ip.iMode % 2 ^ 16 := by
  unfold putInode iMode
  rw [load16_putArray_of_ne (by omega)]
  unfold setCount setFlags setNum setBlocks setLinksCount setSize setMode
  simp (disch := omega) only [load16_store32_of_ne, load16_store16_of_ne, load16_store16]

theorem toInode_putInode (h : Fits ip) : toInode (putInode obj ip) ip.allocated = ip := by
  have hnum : iNum (putInode obj ip) = ip.iNum := by
    unfold putInode iNum
    rw [load32_putArray_of_ne (by omega)]
    unfold setCount setFlags setNum
    simp (disch := omega) only [load32_store32_of_ne, load32_store32 h.iNum]
  have hblocks : iBlocks (putInode obj ip) = ip.iBlocks := by
    unfold putInode iBlocks
    rw [load32_putArray_of_ne (by omega)]
    unfold setCount setFlags setNum setBlocks
    simp (disch := omega) only [load32_store32_of_ne, load32_store32 h.iBlocks]
  have hmode : iMode (putInode obj ip) = ip.iMode :=
    iMode_putInode.trans (Nat.mod_eq_of_lt h.iMode)
  have hlinks : iLinksCount (putInode obj ip) = ip.iLinksCount := by
    unfold putInode iLinksCount
    rw [load16_putArray_of_ne (by omega)]
    unfold setCount setFlags setNum setBlocks setLinksCount
    simp (disch := omega) only [load16_store32_of_ne, load16_store16,
      Nat.mod_eq_of_lt h.iLinksCount]
  have hsize : iSize (putInode obj ip) = ip.iSize := by
    unfold putInode iSize
    rw [load32_putArray_of_ne (by omega)]
    unfold setCount setFlags setNum setBlocks setLinksCount setSize
    simp (disch := omega) only [load32_store32_of_ne, load32_store16_of_ne,
      load32_store32 h.iSize]
  have hcount : iCount (putInode obj ip) = ip.iCount := by
    unfold putInode iCount
    rw [load32_putArray_of_ne (by omega)]
    unfold setCount
    rw [load32_store32 h.iCount]
  have hflags : decide (iFlags (putInode obj ip) % 2 = 1) = ip.modified := by
    unfold putInode iFlags
    dsimp only
    rw [load32_putArray_of_ne (by omega)]
    unfold setCount
    rw [load32_store32_of_ne (by omega)]
    unfold setFlags
    have hold := load32_lt (setNum (setBlocks (setLinksCount (setSize (setMode obj ip.iMode) ip.iSize)
      ip.iLinksCount) ip.iBlocks) ip.iNum) 144
    have hbit := ip.modified.toNat_le
    rw [load32_store32 (by omega)]
    cases ip.modified
    · simp
    · simp [Nat.add_mod]
  have harray : (fun i => if i < 15 then iBlock (putInode obj ip) i else 0) = ip.iBlock := by
    funext i
    by_cases hi : i < 15
    · rw [if_pos hi]
      exact iBlock_putArray hi (h.iBlock i hi)
    · rw [if_neg hi, h.behind i (Nat.not_lt.mp hi)]
  unfold toInode
  rw [hnum, hblocks, hmode, hlinks, hsize, hcount, hflags, harray]

end InodeObject

end Yak.Ext2
