import Yak.WordMemory
import Mathlib.Tactic

/-!
# Disks and their partitions

A transcription of the partition table in `drivers/drive.c` and of `hddev_physio`.  The
driver of a disk is known only by the two functions called here.  The sectors of a
transfer are numbered without a bound, whatever the width of a variable.
-/

namespace Yak.Disk

open ByteBitmap (Bytes)
open WordMemory (load32)

def sectorSize : ℕ := 512
def maxNrDrives : ℕ := 4
def maxNrPartitions : ℕ := 4

inductive Rw where
  | read
  | write
  deriving DecidableEq

/-- `struct generic_disk_dev`.  The driver is the same for all of them. -/
structure GenericDiskDev where
  lbaStart : BitVec 32
  lbaLen : BitVec 32
  deriving DecidableEq

/-- `disk_dev_table`, by minor device number. -/
abbrev DiskDevTable := ℕ → GenericDiskDev

/-! ## The table in the first sector -/

def mbrMagic : ℕ := 0xAA55
def mbrPte1Off : ℕ := 0x1BE
def pteSize : ℕ := 16

structure MbrPartition where
  lbaStart : ℕ
  nrSectors : ℕ

/-- `struct mbr_partition` number `i` of a first sector. -/
def mbrPartition (buf : Bytes) (i : ℕ) : MbrPartition :=
  let p := mbrPte1Off + pteSize * i
  { lbaStart := load32 buf (p + 8), nrSectors := load32 buf (p + 12) }

def parseMbr (table : DiskDevTable) (disk : ℕ) (buf : Bytes) : DiskDevTable :=
  if (buf 510).toNat + 2 ^ 8 * (buf 511).toNat ≠ mbrMagic then table
  else
    (List.range maxNrPartitions).foldl (fun table i =>
      let p := mbrPartition buf i
      if p.nrSectors = 0 then table
      else
        Function.update table (disk * maxNrPartitions + i)
          { lbaStart := BitVec.ofNat 32 p.lbaStart, lbaLen := BitVec.ofNat 32 p.nrSectors })
      table

/-- `read_partition_table_mbr`.  Of a disk that exists, `sector` is what its driver has
left in the buffer. -/
def readPartitionTableMbr (sector : ℕ → Option Bytes) (table : DiskDevTable) : DiskDevTable :=
  (List.range maxNrDrives).foldl (fun table disk =>
    match sector disk with
    | some buf => parseMbr table disk buf
    | none => table) table

/-- The table as it is loaded with the kernel. -/
def emptyTable : DiskDevTable := fun _ => { lbaStart := 0, lbaLen := 0 }

/-! ## Transfers -/

/-- What a driver is asked for. -/
structure Transfer where
  disk : ℕ
  count : BitVec 32
  lba : BitVec 32
  rw : Rw
  deriving DecidableEq

/-- `struct drive_driver`.  A request which is refused is one that no transfer is
started for. -/
structure DriveDriver where
  starts : Transfer → Bool
  driveStart : Transfer → ℤ
  refused : ∀ t, starts t = false → driveStart t < 0

/-- The value of a call and the transfer it has started. -/
structure Outcome where
  ret : ℤ
  started : Option Transfer
  deriving DecidableEq

def driveRw (table : DiskDevTable) (driver : DriveDriver) (minor : ℕ) (blockOff : BitVec 32)
    (count : BitVec 32) (rw : Rw) : Outcome :=
  if maxNrDrives * maxNrPartitions ≤ minor then { ret := -1, started := none }
  else
    let dev := table minor
    let disk := minor / maxNrPartitions
    if dev.lbaLen < blockOff then { ret := -1, started := none }
    else
      let t := { disk := disk, count := count, lba := dev.lbaStart + blockOff, rw := rw }
      { ret := driver.driveStart t, started := if driver.starts t then some t else none }

/-- `struct buffer`, as far as it is used here. -/
structure Buf where
  bDev : ℕ
  bBlknr : BitVec 32
  bBlksize : BitVec 32
  done : Bool
  error : Bool

def devMinor (dev : ℕ) : ℕ := dev % 2 ^ 8

/-- The variable `ratio` of `hddev_physio`. -/
def Buf.ratio (bp : Buf) : BitVec 32 := bp.bBlksize.sdiv 512

def Buf.blockOff (bp : Buf) : BitVec 32 := bp.bBlknr * bp.ratio

def hddevPhysio (table : DiskDevTable) (driver : DriveDriver) (bp : Buf) (rw : Rw) :
    Buf × Outcome :=
  let out := driveRw table driver (devMinor bp.bDev) bp.blockOff bp.ratio rw
  if out.ret < 0 then ({ bp with error := true }, { out with ret := -1 })
  else ({ bp with done := true }, { out with ret := 0 })

/-! ## Partitions -/

/-- The sectors in a block, of the signed type of `b_blksize`. -/
def Buf.sectors (bp : Buf) : ℤ := bp.bBlksize.toInt.tdiv sectorSize

/-- The call fails before it starts anything, or the transfer is that of the sectors of
the block, and all of them are in the partition. -/
def Contained (dev : GenericDiskDev) (bp : Buf) (out : Outcome) : Prop :=
  match out.started with
  | none => out.ret < 0
  | some t =>
      (t.count.toNat : ℤ) = bp.sectors ∧
        ∀ i < t.count.toNat,
          ((t.lba.toNat + i : ℕ) : ℤ) = dev.lbaStart.toNat + bp.bBlknr.toNat * bp.sectors + i ∧
            dev.lbaStart.toNat ≤ t.lba.toNat + i ∧
            t.lba.toNat + i < dev.lbaStart.toNat + dev.lbaLen.toNat

/-- What `hddev_physio` asks the driver for. -/
def Buf.transfer (bp : Buf) (table : DiskDevTable) (rw : Rw) : Transfer :=
  { disk := devMinor bp.bDev / maxNrPartitions
    count := bp.ratio
    lba := (table (devMinor bp.bDev)).lbaStart + bp.blockOff
    rw := rw }

/-- The block ends in its partition, and neither its offset nor its first sector is
above the largest number of 32 bits. -/
def Buf.Fits (bp : Buf) (dev : GenericDiskDev) : Prop :=
  0 ≤ bp.sectors ∧
    (bp.sectors = 0 ∨
      bp.bBlknr.toNat * bp.sectors + bp.sectors ≤ dev.lbaLen.toNat ∧
        dev.lbaStart.toNat + bp.bBlknr.toNat * bp.sectors < 2 ^ 32)

theorem Buf.toInt_ratio (bp : Buf) : bp.ratio.toInt = bp.sectors := by
  have hlo : -2 ^ 31 ≤ bp.bBlksize.toInt := bp.bBlksize.le_toInt
  have hhi : bp.bBlksize.toInt < 2 ^ 31 := bp.bBlksize.toInt_lt
  have hdivisor : (512 : BitVec 32).toInt = 512 := by decide
  unfold Buf.ratio Buf.sectors sectorSize
  rw [BitVec.toInt_sdiv, hdivisor]
  have hquotient := Int.tdiv_eq_ediv (a := bp.bBlksize.toInt) (b := 512)
  have hsign : (512 : ℤ).sign = 1 := by decide
  apply Int.bmod_eq_of_le <;> split at hquotient <;> omega

/-- The number of sectors asked for is that of the block, unless it is negative. -/
theorem Buf.toNat_ratio_eq_iff (bp : Buf) : (bp.ratio.toNat : ℤ) = bp.sectors ↔ 0 ≤ bp.sectors := by
  have hratio := bp.toInt_ratio
  have hlt := bp.ratio.isLt
  rw [BitVec.toInt_eq_toNat_cond] at hratio
  split at hratio <;> omega

theorem Buf.toNat_lba (bp : Buf) (table : DiskDevTable) (rw : Rw) :
    (bp.transfer table rw).lba.toNat =
      ((table (devMinor bp.bDev)).lbaStart.toNat + bp.bBlknr.toNat * bp.ratio.toNat) % 2 ^ 32 := by
  simp [Buf.transfer, Buf.blockOff, BitVec.toNat_add, BitVec.toNat_mul]

/-- A block which is moved is in its partition if and only if it fits there. -/
theorem Buf.contained_transfer_iff (bp : Buf) (table : DiskDevTable) (rw : Rw) (ret : ℤ) :
    Contained (table (devMinor bp.bDev)) bp
        { ret := ret, started := some (bp.transfer table rw) } ↔
      bp.Fits (table (devMinor bp.bDev)) := by
  have hlba := bp.toNat_lba table rw
  have hcount : (bp.transfer table rw).count = bp.ratio := rfl
  unfold Contained Buf.Fits
  simp only [hcount, bp.toNat_ratio_eq_iff]
  apply and_congr_right
  intro hsectors
  rw [← bp.toNat_ratio_eq_iff] at hsectors
  rw [← hsectors]
  generalize (bp.transfer table rw).lba.toNat = lba at hlba
  generalize hstart : (table (devMinor bp.bDev)).lbaStart.toNat = start at hlba
  generalize (table (devMinor bp.bDev)).lbaLen.toNat = len
  generalize bp.ratio.toNat = ratio at hlba
  generalize bp.bBlknr.toNat = blknr at hlba
  norm_cast
  constructor
  · intro hall
    rcases Nat.eq_zero_or_pos ratio with hzero | hpos
    · exact Or.inl hzero
    · have hfirst := hall 0 hpos
      have hlast := hall (ratio - 1) (by omega)
      right
      constructor <;> omega
  · rintro (hzero | ⟨hend, hwrap⟩) i hi
    · omega
    · rw [Nat.mod_eq_of_lt hwrap] at hlba
      omega

/-! ## Containment of every transfer -/

@[simp]
theorem hddevPhysio_started (table : DiskDevTable) (driver : DriveDriver) (bp : Buf) (rw : Rw) :
    (hddevPhysio table driver bp rw).2.started =
      (driveRw table driver (devMinor bp.bDev) bp.blockOff bp.ratio rw).started := by
  by_cases hret : (driveRw table driver (devMinor bp.bDev) bp.blockOff bp.ratio rw).ret < 0 <;>
    simp [hddevPhysio, hret]

theorem hddevPhysio_ret_neg_iff (table : DiskDevTable) (driver : DriveDriver) (bp : Buf) (rw : Rw) :
    (hddevPhysio table driver bp rw).2.ret < 0 ↔
      (driveRw table driver (devMinor bp.bDev) bp.blockOff bp.ratio rw).ret < 0 := by
  by_cases hret : (driveRw table driver (devMinor bp.bDev) bp.blockOff bp.ratio rw).ret < 0 <;>
    simp [hddevPhysio, hret]

theorem driveRw_of_refused {table : DiskDevTable} {driver : DriveDriver} {minor : ℕ}
    {blockOff count : BitVec 32} {rw : Rw}
    (h : maxNrDrives * maxNrPartitions ≤ minor ∨ (table minor).lbaLen < blockOff) :
    driveRw table driver minor blockOff count rw = { ret := -1, started := none } := by
  unfold driveRw
  rcases h with hminor | hoff
  · rw [if_pos hminor]
  · simp [hoff]

theorem Buf.driveRw_transfer {table : DiskDevTable} {driver : DriveDriver} {bp : Buf} {rw : Rw}
    (h : ¬ (maxNrDrives * maxNrPartitions ≤ devMinor bp.bDev ∨
      (table (devMinor bp.bDev)).lbaLen < bp.blockOff)) :
    driveRw table driver (devMinor bp.bDev) bp.blockOff bp.ratio rw =
      { ret := driver.driveStart (bp.transfer table rw)
        started :=
          if driver.starts (bp.transfer table rw) then some (bp.transfer table rw) else none } := by
  rw [not_or] at h
  unfold driveRw
  simp only [if_neg h.1, if_neg h.2]
  rfl

/-- Of every read or write of a block, the sectors moved are those of the block and are
in its partition, if and only if the block has no place in the table, starts beyond the
end of its partition by the sum of 32 bits, is refused by the driver, or fits. -/
theorem hddevPhysio_contained_iff (table : DiskDevTable) (driver : DriveDriver) (bp : Buf)
    (rw : Rw) :
    Contained (table (devMinor bp.bDev)) bp (hddevPhysio table driver bp rw).2 ↔
      maxNrDrives * maxNrPartitions ≤ devMinor bp.bDev ∨
        (table (devMinor bp.bDev)).lbaLen < bp.blockOff ∨
        driver.starts (bp.transfer table rw) = false ∨
        bp.Fits (table (devMinor bp.bDev)) := by
  have hret := hddevPhysio_ret_neg_iff table driver bp rw
  have hstarted := hddevPhysio_started table driver bp rw
  by_cases hrefused : maxNrDrives * maxNrPartitions ≤ devMinor bp.bDev ∨
      (table (devMinor bp.bDev)).lbaLen < bp.blockOff
  · rw [driveRw_of_refused hrefused] at hret hstarted
    have hcontained : Contained (table (devMinor bp.bDev)) bp
        (hddevPhysio table driver bp rw).2 := by
      unfold Contained
      rw [hstarted]
      exact hret.mpr (by decide)
    tauto
  · rw [Buf.driveRw_transfer hrefused] at hret hstarted
    rw [not_or] at hrefused
    cases hstarts : driver.starts (bp.transfer table rw) with
    | false =>
        have hcontained : Contained (table (devMinor bp.bDev)) bp
            (hddevPhysio table driver bp rw).2 := by
          unfold Contained
          simp only [hstarts] at hstarted
          rw [hstarted]
          exact hret.mpr (driver.refused _ hstarts)
        tauto
    | true =>
        have hfits := bp.contained_transfer_iff table rw (hddevPhysio table driver bp rw).2.ret
        simp only [hstarts, if_true] at hstarted
        rw [← hstarted] at hfits
        rw [hfits]
        simp [hrefused]

/-- A first sector with one partition, of five sectors from sector 2048 on. -/
def fiveSectors : Bytes := fun a =>
  if a = 510 then 0x55 else if a = 511 then 0xAA
  else if a = 0x1BE + 9 then 8 else if a = 0x1BE + 12 then 5 else 0

/-- A driver which does what it is asked for. -/
def obedientDriver : DriveDriver where
  starts _ := true
  driveStart _ := 0
  refused := nofun

/-- The third block of 1024 bytes in a partition of five sectors ends in the sector
behind the partition. -/
theorem hddevPhysio_not_contained :
    ∃ sector : ℕ → Option Bytes,
      let table := readPartitionTableMbr sector emptyTable
      let bp : Buf :=
        { bDev := 0x300, bBlknr := 2, bBlksize := 1024, done := false, error := false }
      ¬ Contained (table 0) bp (hddevPhysio table obedientDriver bp .write).2 := by
  refine ⟨fun disk => if disk = 0 then some fiveSectors else none, ?_⟩
  intro table bp hcontained
  have hpart : table 0 = { lbaStart := 2048, lbaLen := 5 } := by decide +kernel
  have hout : (hddevPhysio table obedientDriver bp .write).2 =
      { ret := 0, started := some { disk := 0, count := 2, lba := 2052, rw := .write } } := by
    decide +kernel
  rw [hout, hpart] at hcontained
  have hlast := (hcontained.2 1 (by decide)).2.2
  exact absurd hlast (by decide)

end Yak.Disk
