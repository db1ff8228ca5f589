import Yak.DirEntry
import Yak.FileBlocks

/-!
# The blocks of a directory

The data blocks below `i_block`, in the order of the file, and the live entries in them.
-/

namespace Yak.Ext2

open ByteBitmap WordMemory RecordChain IndexTree

namespace Fs

/-- The data blocks of a file. -/
def dataBlocks (fs : Fs) (ip : InodeM) : List ℕ :=
  (List.range 15).flatMap fun i => leaves fs.pointer fs.indirBlocks (levelsOf i) (ip.iBlock i)

/-- Every block of the directory is a chain of records. -/
def WellFormedDir (fs : Fs) (dir : InodeM) : Prop :=
  ∀ b ∈ fs.dataBlocks dir, WellFormed fs.sb.blocksize (fs.blocks b)

/-- The live entries of a directory. -/
def dirEntries (fs : Fs) (dir : InodeM) : List (Name × ℕ) :=
  (fs.dataBlocks dir).flatMap fun b => entries fs.sb.blocksize (fs.blocks b)

variable {fs : Fs} {dir : InodeM} {b i : ℕ}

theorem direct_mem_dataBlocks (hi : i < 12) (hb : dir.iBlock i ≠ 0) :
    dir.iBlock i ∈ fs.dataBlocks dir := by
  have hlevels : levelsOf i = 0 := by
    unfold levelsOf
    omega
  refine List.mem_flatMap.mpr ⟨i, List.mem_range.mpr (by omega), ?_⟩
  rw [hlevels, leaves, if_neg hb]
  exact List.mem_singleton_self _

/-- The data blocks are found by way of the index blocks. -/
theorem dataBlocks_congr {fs' : Fs} {dir' : InodeM} (hgeometry : SameGeometry fs fs')
    (hiBlock : dir'.iBlock = dir.iBlock)
    (hdata : ∀ c ∈ fileIndex fs dir, fs'.blocks c = fs.blocks c) :
    fs'.dataBlocks dir' = fs.dataBlocks dir := by
  unfold dataBlocks
  rw [hgeometry.indirBlocks, hiBlock]
  apply List.flatMap_congr
  intro i hi
  apply leaves_congr
  intro c hc k _
  unfold pointer
  rw [hdata c (List.mem_flatMap.mpr ⟨i, hi, hc⟩)]

theorem dataBlocks_sublist : (fs.dataBlocks dir).Sublist (fileBlocks fs dir) := by
  unfold dataBlocks fileBlocks
  induction List.range 15 with
  | nil => exact List.Sublist.refl _
  | cons i is ih =>
      rw [List.flatMap_cons, List.flatMap_cons]
      exact leaves_sublist.append ih

theorem Owns.dataBlocks_allocated {others : List ℕ} (h : Owns fs dir others)
    (hb : b ∈ fs.dataBlocks dir) : b ∈ dir.allocated := h.tree.subset (dataBlocks_sublist.subset hb)

theorem Owns.nodup_dataBlocks {others : List ℕ} (h : Owns fs dir others) :
    (fs.dataBlocks dir).Nodup := h.nodup_fileBlocks.sublist dataBlocks_sublist

theorem mem_dirEntries {e : Name × ℕ} :
    e ∈ fs.dirEntries dir ↔ ∃ b ∈ fs.dataBlocks dir, e ∈ entries fs.sb.blocksize (fs.blocks b) :=
  List.mem_flatMap

end Fs

/-! ## Small directories -/

/-- A superblock with blocks of 1 KiB. -/
def kibSb : Superblock where
  sInodesCount := 16
  sBlocksCount := 16
  sFreeBlocksCount := 0
  sFreeInodesCount := 0
  sFirstDataBlock := 1
  sLogBlockSize := 0
  sBlocksPerGroup := 16
  sInodesPerGroup := 16
  sMagic := Superblock.ext2Magic
  sState := 1
  sErrors := 1
  sRevLevel := 0
  sFirstIno := 11

/-- A directory with the given blocks. -/
def dirInode (blocks : ℕ → ℕ) : InodeM := { newFile 128 30 0x41ED 0 with iBlock := blocks, iSize := 1024 }

/-- The device with the directory in block 8, and another block of it in block 9. -/
def dirFs (first second : Bytes) : Fs where
  sb := kibSb
  bgdTable _ :=
    { bgBlockBitmap := 3, bgInodeBitmap := 4, bgFreeBlocksCount := 0, bgFreeInodesCount := 0 }
  nrBlkGroup := 1
  modified := false
  blocks n := if n = 8 then first else if n = 9 then second else fun _ => 0#8

/-- A directory in one block. -/
def oneBlockDir : InodeM := dirInode fun i => if i = 0 then 8 else 0

/-- A directory in two blocks. -/
def twoBlockDir : InodeM := dirInode fun i => if i = 0 then 8 else if i = 1 then 9 else 0

theorem dataBlocks_oneBlockDir (first second : Bytes) :
    (dirFs first second).dataBlocks oneBlockDir = [8] := rfl

theorem dataBlocks_twoBlockDir (first second : Bytes) :
    (dirFs first second).dataBlocks twoBlockDir = [8, 9] := rfl

/-- The two entries alone. -/
def dotsBlock : Bytes :=
  blockOf [(0, recordBytes 30 12 2#8 dot), (12, recordBytes 2 1012 2#8 dotDot)]

end Yak.Ext2
