import Yak.AtaPio

/-!
# The task file

`ata_start_request` writes a request into the registers which the two devices of a bus share.
A device goes by the last byte that was written to each register, and for a command with 48
bits of address by the byte before as well.  With 48 bits of address the driver selects a device
without the LBA bit, and does not select it when it was the last one.
-/

namespace Yak.Disk

inductive AtaDrive where
  | busDrive1
  | busDrive2
  deriving DecidableEq

/-! ## Registers -/

def regSecCount : ℕ := 2
def regLba1 : ℕ := 3
def regLba2 : ℕ := 4
def regLba3 : ℕ := 5
def regDrive : ℕ := 6
def regCmd : ℕ := 7

def regDevCtrl : ℕ := 0
def regDriveAddr : ℕ := 1

def ataDriveDrv : BitVec 32 := 0x10#32
def ataDriveLba : BitVec 32 := 0x40#32

/-- The codes of the commands with 48 bits of address, by PIO and by DMA. -/
def extCommands : List (BitVec 8) := [0x24#8, 0x34#8, 0x25#8, 0x35#8]

/-- What a device takes from its registers when it is given a command. -/
structure Seen where
  drive : AtaDrive
  lbaMode : Bool
  lba : ℕ
  count : ℕ
  cmd : BitVec 8
  deriving DecidableEq

/-- The registers of a bus with the last two bytes written to each port, and the commands which
its devices have seen. -/
structure AtaBus where
  cmdBase : ℕ
  ctrlBase : ℕ
  bsy : Bool
  drq : Bool
  /-- `last_selected`, where it is a device of this bus -/
  lastSelected : Option AtaDrive
  last : ℕ → BitVec 8
  previous : ℕ → BitVec 8
  seen : List Seen

/-- A request whose command has as many bits of address as it needs. -/
structure BusRequest where
  drive : AtaDrive
  lba : BitVec 32
  count : BitVec 32
  cmd : BitVec 8
  count_pos : 0 < count.toNat
  count_le : count.toNat ≤ 256
  ext_iff : cmd ∈ extCommands ↔ maxLba28 < lba

def AtaCmd.code : AtaCmd → BitVec 8
  | .readSectors => 0x20#8
  | .writeSectors => 0x30#8
  | .readSectorsExt => 0x24#8
  | .writeSectorsExt => 0x34#8

theorem code_ataPioCmd_mem_iff (rw : Rw) (lba : BitVec 32) :
    (ataPioCmd rw lba).code ∈ extCommands ↔ maxLba28 < lba := by
  unfold ataPioCmd
  cases rw with
  | read =>
      by_cases h : maxLba28 < lba
      · simp [h, AtaCmd.code, extCommands]
      · simp [h, AtaCmd.code, extCommands]
  | write =>
      by_cases h : maxLba28 < lba
      · simp [h, AtaCmd.code, extCommands]
      · simp [h, AtaCmd.code, extCommands]

/-- The request, as its device should see it. -/
def BusRequest.meant (r : BusRequest) : Seen where
  drive := r.drive
  lbaMode := true
  lba := r.lba.toNat
  count := r.count.toNat
  cmd := r.cmd

/-- The device that a byte in the drive register selects. -/
def driveOf (byte : BitVec 8) : AtaDrive := if byte.getLsbD 4 then .busDrive2 else .busDrive1

def lbaModeOf (byte : BitVec 8) : Bool := byte.getLsbD 6

/-- The number of sectors in registers of `width` bits, where zero is the number after the
largest. -/
def sectorCount (width n : ℕ) : ℕ := if n = 0 then 2 ^ width else n

namespace AtaBus

/-- The last byte that was written to a register, and the one before. -/
def lastByte (s : AtaBus) (reg : ℕ) : BitVec 8 := s.last (s.cmdBase + reg)

def previousByte (s : AtaBus) (reg : ℕ) : BitVec 8 := s.previous (s.cmdBase + reg)

/-- The command as a device decodes it. -/
def decode (s : AtaBus) (cmd : BitVec 8) : Seen :=
  let last (reg : ℕ) := (s.lastByte reg).toNat
  let previous (reg : ℕ) := (s.previousByte reg).toNat
  let low := last regLba1 + 2 ^ 8 * last regLba2 + 2 ^ 16 * last regLba3
  let byte := s.lastByte regDrive
  if extCommands.contains cmd then
    { drive := driveOf byte
      lbaMode := lbaModeOf byte
      lba := low + 2 ^ 24 * previous regLba1 + 2 ^ 32 * previous regLba2 +
        2 ^ 40 * previous regLba3
      count := sectorCount 16 (last regSecCount + 2 ^ 8 * previous regSecCount)
      cmd := cmd }
  else
    { drive := driveOf byte
      lbaMode := lbaModeOf byte
      lba := low + 2 ^ 24 * (byte.toNat % 2 ^ 4)
      count := sectorCount 8 (last regSecCount)
      cmd := cmd }

/-- A byte for a port of the bus. -/
def outb (s : AtaBus) (val : BitVec 32) (port : ℕ) : AtaBus :=
  if port = s.cmdBase + regCmd then
    { s with bsy := true, seen := s.seen ++ [s.decode (val.setWidth 8)] }
  else
    { s with
      last := Function.update s.last port (val.setWidth 8)
      previous := Function.update s.previous port (s.last port) }

def ataRegWrite (s : AtaBus) (val : BitVec 32) (reg : ℕ) : AtaBus :=
  if reg = regDevCtrl ∨ reg = regDriveAddr then s.outb val (s.ctrlBase + reg)
  else s.outb val (s.cmdBase + reg)

/-- What `ata_select_drive` writes, with the LBA bit and the highest bits of the address or
without them. -/
def selectByte (drive : AtaDrive) (includeLba : Bool) (lba : BitVec 32) : BitVec 32 :=
  let lbaBits := if includeLba then ataDriveLba ||| (lba >>> 24 &&& 0x0F#32) else 0#32
  match drive with
  | .busDrive1 => 0xA0#32 ||| lbaBits
  | .busDrive2 => 0xA0#32 ||| ataDriveDrv ||| lbaBits

def ataSelectDrive (s : AtaBus) (drive : AtaDrive) (includeLba : Bool) (lba : BitVec 32) :
    Except Halt AtaBus :=
  if s.bsy ∨ s.drq then .error (.panic "ata_select_drive: bsy or drq not cleared")
  else if s.lastSelected = some drive ∧ includeLba = false then .ok s
  else
    .ok ({ s with lastSelected := some drive }.ataRegWrite (selectByte drive includeLba lba)
      regDrive)

/-- The writes of `ata_start_request_lba28` once the drive is selected. -/
def writeLba28 (s : AtaBus) (r : BusRequest) : AtaBus :=
  let s := s.ataRegWrite ((r.count.setWidth 8).setWidth 32) regSecCount
  let s := s.ataRegWrite (r.lba &&& 0xFF#32) regLba1
  let s := s.ataRegWrite (r.lba >>> 8 &&& 0xFF#32) regLba2
  let s := s.ataRegWrite (r.lba >>> 16 &&& 0xFF#32) regLba3
  s.ataRegWrite (r.cmd.setWidth 32) regCmd

/-- The writes of `ata_start_request_lba48` once the drive is selected. -/
def writeLba48 (s : AtaBus) (r : BusRequest) : AtaBus :=
  let s := s.ataRegWrite (r.count >>> 8 &&& 0xFF#32) regSecCount
  let s := s.ataRegWrite (r.lba >>> 24 &&& 0xFF#32) regLba1
  let s := s.ataRegWrite 0#32 regLba2
  let s := s.ataRegWrite 0#32 regLba3
  let s := s.ataRegWrite (r.count &&& 0xFF#32) regSecCount
  let s := s.ataRegWrite (r.lba &&& 0xFF#32) regLba1
  let s := s.ataRegWrite (r.lba >>> 8 &&& 0xFF#32) regLba2
  let s := s.ataRegWrite (r.lba >>> 16 &&& 0xFF#32) regLba3
  s.ataRegWrite (r.cmd.setWidth 32) regCmd

def ataStartRequestLba28 (s : AtaBus) (r : BusRequest) : Except Halt AtaBus := do
  let s ← s.ataSelectDrive r.drive true r.lba
  .ok (s.writeLba28 r)

def ataStartRequestLba48 (s : AtaBus) (r : BusRequest) : Except Halt AtaBus := do
  let s ← s.ataSelectDrive r.drive false 0#32
  .ok (s.writeLba48 r)

def ataStartRequest (s : AtaBus) (r : BusRequest) : Except Halt AtaBus :=
  if r.lba ≤ maxLba28 then s.ataStartRequestLba28 r else s.ataStartRequestLba48 r

/-- The requests one after the other, each when the device is done with the one before. -/
def startAll (s : AtaBus) : List BusRequest → Except Halt AtaBus
  | [] => .ok s
  | r :: rs => do
      let s ← { s with bsy := false, drq := false }.ataStartRequest r
      s.startAll rs

/-- At each command the device of the request sees the request. -/
def Faithful (s : AtaBus) (rs : List BusRequest) : Prop :=
  ∃ s', s.startAll rs = .ok s' ∧ s'.seen = s.seen ++ rs.map BusRequest.meant

/-! ## When it is so -/

/-- The device that the driver has selected last, if the drive register selects it too, with
the LBA bit. -/
def ready (s : AtaBus) : Option AtaDrive :=
  let byte := s.lastByte regDrive
  s.lastSelected.filter fun drive => driveOf byte = drive ∧ lbaModeOf byte = true

end AtaBus

/-- Each request with 48 bits of address comes directly after one to the same device. -/
def LongAfterSame : Option AtaDrive → List BusRequest → Prop
  | _, [] => True
  | ready, r :: rs => (maxLba28 < r.lba → ready = some r.drive) ∧ LongAfterSame (some r.drive) rs

/-! ## Bytes -/

section Bytes

variable (x : BitVec 32)

theorem toNat_byte (shift : ℕ) :
    ((x >>> shift &&& 0xFF#32).setWidth 8).toNat = x.toNat / 2 ^ shift % 2 ^ 8 := by
  have hmask (n : ℕ) : n &&& 255 = n % 2 ^ 8 := Nat.and_two_pow_sub_one_eq_mod n 8
  simp only [BitVec.toNat_setWidth, BitVec.toNat_and, BitVec.toNat_ushiftRight,
    BitVec.toNat_ofNat, Nat.shiftRight_eq_div_pow]
  rw [show 255 % 2 ^ 32 = 255 from rfl, hmask, Nat.mod_mod]

theorem toNat_lowByte : ((x &&& 0xFF#32).setWidth 8).toNat = x.toNat % 2 ^ 8 := by
  have h := toNat_byte x 0
  rwa [BitVec.ushiftRight_zero, Nat.pow_zero, Nat.div_one] at h

theorem lowBytes_eq : ((x &&& 0xFF#32).setWidth 8).toNat +
    2 ^ 8 * ((x >>> 8 &&& 0xFF#32).setWidth 8).toNat +
    2 ^ 16 * ((x >>> 16 &&& 0xFF#32).setWidth 8).toNat = x.toNat % 2 ^ 24 := by
  rw [toNat_lowByte, toNat_byte, toNat_byte]
  omega

/-- What a byte with the LBA bit selects. -/
theorem selectByte_lba (drive : AtaDrive) :
    driveOf ((AtaBus.selectByte drive true x).setWidth 8) = drive ∧
      lbaModeOf ((AtaBus.selectByte drive true x).setWidth 8) = true ∧
      ((AtaBus.selectByte drive true x).setWidth 8).toNat % 2 ^ 4 = x.toNat / 2 ^ 24 % 2 ^ 4 := by
  have hmask : x >>> 24 &&& 0x0F#32 = BitVec.ofNat 32 (x.toNat / 2 ^ 24 % 2 ^ 4) := by
    have hand (n : ℕ) : n &&& 15 = n % 2 ^ 4 := Nat.and_two_pow_sub_one_eq_mod n 4
    apply BitVec.eq_of_toNat_eq
    rw [BitVec.toNat_and, BitVec.toNat_ushiftRight, Nat.shiftRight_eq_div_pow, BitVec.toNat_ofNat,
      BitVec.toNat_ofNat, show 15 % 2 ^ 32 = 15 from rfl, hand]
    omega
  have hall : ∀ n : Fin 16, ∀ lbaBits, lbaBits = ataDriveLba ||| BitVec.ofNat 32 n →
      driveOf ((0xA0#32 ||| lbaBits).setWidth 8) = .busDrive1 ∧
      driveOf ((0xA0#32 ||| ataDriveDrv ||| lbaBits).setWidth 8) = .busDrive2 ∧
      lbaModeOf ((0xA0#32 ||| lbaBits).setWidth 8) = true ∧
      lbaModeOf ((0xA0#32 ||| ataDriveDrv ||| lbaBits).setWidth 8) = true ∧
      ((0xA0#32 ||| lbaBits).setWidth 8).toNat % 2 ^ 4 = n ∧
      ((0xA0#32 ||| ataDriveDrv ||| lbaBits).setWidth 8).toNat % 2 ^ 4 = n := by
    rintro n _ rfl
    revert n
    decide
  obtain ⟨hone, htwo, hmode, hmode', hlow, hlow'⟩ :=
    hall ⟨x.toNat / 2 ^ 24 % 2 ^ 4, Nat.mod_lt _ (by decide)⟩ _ (congrArg _ hmask)
  unfold AtaBus.selectByte
  cases drive with
  | busDrive1 => exact ⟨hone, hmode, hlow⟩
  | busDrive2 => exact ⟨htwo, hmode', hlow'⟩

end Bytes

/-- Without 28 bits of address the LBA bit is not written. -/
theorem selectByte_noLba (drive : AtaDrive) :
    lbaModeOf ((AtaBus.selectByte drive false 0#32).setWidth 8) = false := by
  cases drive <;> decide

theorem BusRequest.count_short (r : BusRequest) :
    sectorCount 8 (r.count.toNat % 2 ^ 8) = r.count.toNat := by
  have hpos := r.count_pos
  have hle := r.count_le
  unfold sectorCount
  split <;> omega

theorem BusRequest.lba_short {r : BusRequest} (h : r.lba ≤ maxLba28) :
    r.lba.toNat % 2 ^ 24 + 2 ^ 24 * (r.lba.toNat / 2 ^ 24 % 2 ^ 4) = r.lba.toNat := by
  have hle : r.lba.toNat ≤ 2 ^ 28 - 1 := h
  omega

/-! ## One request -/

namespace AtaBus

variable {s s' : AtaBus} {r : BusRequest}

/-- A register with a new byte. -/
def setReg (s : AtaBus) (reg : ℕ) (byte : BitVec 8) : AtaBus :=
  { s with
    last := Function.update s.last (s.cmdBase + reg) byte
    previous := Function.update s.previous (s.cmdBase + reg) (s.lastByte reg) }

/-- A device with a new command. -/
def command (s : AtaBus) (byte : BitVec 8) : AtaBus :=
  { s with bsy := true, seen := s.seen ++ [s.decode byte] }

@[simp] theorem lastSelected_command (byte : BitVec 8) :
    (s.command byte).lastSelected = s.lastSelected := rfl

@[simp] theorem lastByte_command (byte : BitVec 8) (reg : ℕ) :
    (s.command byte).lastByte reg = s.lastByte reg := rfl

@[simp] theorem seen_command (byte : BitVec 8) :
    (s.command byte).seen = s.seen ++ [s.decode byte] := rfl

section SetReg

variable {reg reg' : ℕ} {byte : BitVec 8}

@[simp] theorem cmdBase_setReg : (s.setReg reg byte).cmdBase = s.cmdBase := rfl
@[simp] theorem lastSelected_setReg : (s.setReg reg byte).lastSelected = s.lastSelected := rfl
@[simp] theorem seen_setReg : (s.setReg reg byte).seen = s.seen := rfl

@[simp] theorem lastByte_setReg :
    (s.setReg reg byte).lastByte reg' = if reg' = reg then byte else s.lastByte reg' := by
  simp [lastByte, setReg, Function.update_apply]

@[simp] theorem previousByte_setReg : (s.setReg reg byte).previousByte reg' =
    if reg' = reg then s.lastByte reg' else s.previousByte reg' := by
  unfold previousByte setReg
  by_cases h : reg' = reg
  · simp [h]
  · simp [h]

end SetReg

theorem ataRegWrite_eq (v : BitVec 32) {k : ℕ} (hlow : 2 ≤ k) (hhigh : k < 7) :
    s.ataRegWrite v k = s.setReg k (v.setWidth 8) := by
  unfold ataRegWrite outb regDevCtrl regDriveAddr regCmd
  rw [if_neg (by omega), if_neg (by omega)]
  rfl

theorem ataRegWrite_cmd (byte : BitVec 8) :
    s.ataRegWrite (byte.setWidth 32) regCmd = s.command byte := by
  unfold command ataRegWrite outb regDevCtrl regDriveAddr regCmd
  rw [if_neg (by omega), if_pos rfl, BitVec.setWidth_setWidth_of_le _ (by decide),
    BitVec.setWidth_eq]

/-- The drive register when the request's device is given the command. -/
def driveByte (s : AtaBus) (r : BusRequest) : BitVec 8 :=
  if r.lba ≤ maxLba28 then (selectByte r.drive true r.lba).setWidth 8
  else if s.lastSelected = some r.drive then s.lastByte regDrive
  else (selectByte r.drive false 0#32).setWidth 8

/-- What the devices see of a request when the drive register has this byte. -/
def seenAs (r : BusRequest) (byte : BitVec 8) : Seen :=
  { r.meant with drive := driveOf byte, lbaMode := lbaModeOf byte }

theorem decode_short (hlba : r.lba ≤ maxLba28)
    (hdrive : s.lastByte regDrive = (selectByte r.drive true r.lba).setWidth 8)
    (hcount : s.lastByte regSecCount = r.count.setWidth 8)
    (hone : s.lastByte regLba1 = (r.lba &&& 0xFF#32).setWidth 8)
    (htwo : s.lastByte regLba2 = (r.lba >>> 8 &&& 0xFF#32).setWidth 8)
    (hthree : s.lastByte regLba3 = (r.lba >>> 16 &&& 0xFF#32).setWidth 8) :
    s.decode r.cmd = seenAs r (s.lastByte regDrive) := by
  have hext : ¬ extCommands.contains r.cmd = true := fun h =>
    absurd (r.ext_iff.mp (List.contains_iff_mem.mp h)) (BitVec.not_lt.mpr hlba)
  obtain ⟨-, -, hnibble⟩ := selectByte_lba r.lba r.drive
  unfold decode seenAs BusRequest.meant
  dsimp only
  rw [if_neg hext, hone, htwo, hthree, hcount, lowBytes_eq, hdrive, hnibble, r.lba_short hlba,
    BitVec.toNat_setWidth, r.count_short]

theorem decode_long (hlba : maxLba28 < r.lba)
    (hcount : s.lastByte regSecCount = (r.count &&& 0xFF#32).setWidth 8)
    (hcount' : s.previousByte regSecCount = (r.count >>> 8 &&& 0xFF#32).setWidth 8)
    (hone : s.lastByte regLba1 = (r.lba &&& 0xFF#32).setWidth 8)
    (hone' : s.previousByte regLba1 = (r.lba >>> 24 &&& 0xFF#32).setWidth 8)
    (htwo : s.lastByte regLba2 = (r.lba >>> 8 &&& 0xFF#32).setWidth 8)
    (htwo' : s.previousByte regLba2 = 0#8)
    (hthree : s.lastByte regLba3 = (r.lba >>> 16 &&& 0xFF#32).setWidth 8)
    (hthree' : s.previousByte regLba3 = 0#8) :
    s.decode r.cmd = seenAs r (s.lastByte regDrive) := by
  have hext : extCommands.contains r.cmd = true := List.contains_iff_mem.mpr (r.ext_iff.mpr hlba)
  have hlong : r.lba.toNat % 2 ^ 24 + 2 ^ 24 * (r.lba.toNat / 2 ^ 24 % 2 ^ 8) = r.lba.toNat := by
    have hlt := r.lba.isLt
    omega
  have hbytes : r.count.toNat % 2 ^ 8 + 2 ^ 8 * (r.count.toNat / 2 ^ 8 % 2 ^ 8) =
      r.count.toNat := by
    have hle := r.count_le
    omega
  unfold decode seenAs BusRequest.meant
  dsimp only
  rw [if_pos hext, hone, htwo, hthree, hone', htwo', hthree', hcount, hcount', lowBytes_eq,
    toNat_byte, toNat_lowByte, toNat_byte, BitVec.toNat_ofNat, Nat.zero_mod, Nat.mul_zero,
    Nat.mul_zero, Nat.add_zero, hlong, hbytes, sectorCount, if_neg r.count_pos.ne']

/-- The writes leave the drive register as it is, and the device sees what they say. -/
theorem writeLba28_eq (hlba : r.lba ≤ maxLba28)
    (hdrive : s.lastByte regDrive = (selectByte r.drive true r.lba).setWidth 8) :
    (s.writeLba28 r).lastSelected = s.lastSelected ∧
      (s.writeLba28 r).lastByte regDrive = s.lastByte regDrive ∧
      (s.writeLba28 r).seen = s.seen ++ [seenAs r (s.lastByte regDrive)] := by
  unfold writeLba28
  dsimp only
  rw [ataRegWrite_cmd]
  simp only [regSecCount, regLba1, regLba2, regLba3, ataRegWrite_eq, Nat.reduceLeDiff,
    Nat.reduceLT]
  refine ⟨by simp, by simp [regDrive], ?_⟩
  rw [seen_command, decode_short hlba]
  all_goals simp [regSecCount, regLba1, regLba2, regLba3, regDrive]
  exact hdrive

theorem writeLba48_eq (hlba : maxLba28 < r.lba) :
    (s.writeLba48 r).lastSelected = s.lastSelected ∧
      (s.writeLba48 r).lastByte regDrive = s.lastByte regDrive ∧
      (s.writeLba48 r).seen = s.seen ++ [seenAs r (s.lastByte regDrive)] := by
  unfold writeLba48
  dsimp only
  rw [ataRegWrite_cmd]
  simp only [regSecCount, regLba1, regLba2, regLba3, ataRegWrite_eq, Nat.reduceLeDiff,
    Nat.reduceLT]
  refine ⟨by simp, by simp [regDrive], ?_⟩
  rw [seen_command, decode_long hlba]
  all_goals simp [regSecCount, regLba1, regLba2, regLba3, regDrive]

theorem ataSelectDrive_writes (drive : AtaDrive) (v : BitVec 32) :
    ({ s with lastSelected := some drive }.ataRegWrite v regDrive).lastSelected = some drive ∧
      ({ s with lastSelected := some drive }.ataRegWrite v regDrive).lastByte regDrive =
        v.setWidth 8 ∧
      ({ s with lastSelected := some drive }.ataRegWrite v regDrive).seen = s.seen := by
  rw [ataRegWrite_eq v (by decide) (by decide)]
  exact ⟨rfl, by simp, rfl⟩

/-- A request is seen as it is meant, but for what the drive register says. -/
theorem ataStartRequest_eq (hbsy : s.bsy = false) (hdrq : s.drq = false) (r : BusRequest) :
    ∃ s', s.ataStartRequest r = .ok s' ∧ s'.lastSelected = some r.drive ∧
      s'.lastByte regDrive = s.driveByte r ∧ s'.seen = s.seen ++ [seenAs r (s.driveByte r)] := by
  have hidle : ¬ (s.bsy = true ∨ s.drq = true) := by simp [hbsy, hdrq]
  unfold ataStartRequest driveByte
  by_cases hlba : r.lba ≤ maxLba28
  · rw [if_pos hlba, if_pos hlba]
    unfold ataStartRequestLba28 ataSelectDrive
    rw [if_neg hidle, if_neg (by simp), ok_bind]
    obtain ⟨hselected, hbyte, hkept⟩ := ataSelectDrive_writes (s := s) r.drive
      (selectByte r.drive true r.lba)
    obtain ⟨hselected', hdrive, hseen⟩ := writeLba28_eq hlba hbyte
    rw [hbyte, hkept] at hseen
    exact ⟨_, rfl, hselected'.trans hselected, hdrive.trans hbyte, hseen⟩
  · rw [if_neg hlba, if_neg hlba]
    unfold ataStartRequestLba48 ataSelectDrive
    rw [if_neg hidle]
    have hlong := BitVec.not_le.mp hlba
    by_cases hsame : s.lastSelected = some r.drive
    · rw [if_pos ⟨hsame, rfl⟩, if_pos hsame, ok_bind]
      obtain ⟨hselected, hdrive, hseen⟩ := writeLba48_eq (s := s) hlong
      exact ⟨_, rfl, hselected.trans hsame, hdrive, hseen⟩
    · rw [if_neg (fun h => hsame h.1), if_neg hsame, ok_bind]
      obtain ⟨hselected, hbyte, hkept⟩ := ataSelectDrive_writes (s := s) r.drive
        (selectByte r.drive false 0#32)
      obtain ⟨hselected', hdrive, hseen⟩ := writeLba48_eq (s := { s with
        lastSelected := some r.drive }.ataRegWrite (selectByte r.drive false 0#32) regDrive) hlong
      rw [hbyte, hkept] at hseen
      exact ⟨_, rfl, hselected'.trans hselected, hdrive.trans hbyte, hseen⟩

/-! ## All requests -/

theorem seenAs_eq_meant_iff (r : BusRequest) (byte : BitVec 8) :
    seenAs r byte = r.meant ↔ driveOf byte = r.drive ∧ lbaModeOf byte = true := by
  unfold seenAs BusRequest.meant
  simp

theorem ready_eq_some_iff {drive : AtaDrive} : s.ready = some drive ↔
    s.lastSelected = some drive ∧ driveOf (s.lastByte regDrive) = drive ∧
      lbaModeOf (s.lastByte regDrive) = true := by
  unfold ready
  simp [Option.filter_eq_some_iff]

/-- The drive register is right for a request with 28 bits of address, and for one with 48 bits
if the device is ready. -/
theorem driveByte_right_iff (r : BusRequest) :
    (driveOf (s.driveByte r) = r.drive ∧ lbaModeOf (s.driveByte r) = true) ↔
      (maxLba28 < r.lba → s.ready = some r.drive) := by
  rw [ready_eq_some_iff]
  unfold driveByte
  by_cases hlba : r.lba ≤ maxLba28
  · obtain ⟨hdrive, hmode, -⟩ := selectByte_lba r.lba r.drive
    rw [if_pos hlba]
    exact ⟨fun _ hlong => absurd hlong (BitVec.not_lt.mpr hlba), fun _ => ⟨hdrive, hmode⟩⟩
  · rw [if_neg hlba]
    by_cases hsame : s.lastSelected = some r.drive
    · rw [if_pos hsame]
      exact ⟨fun h _ => ⟨hsame, h⟩, fun h => (h (BitVec.not_le.mp hlba)).2⟩
    · rw [if_neg hsame, selectByte_noLba]
      exact ⟨fun h => absurd h.2 Bool.false_ne_true,
        fun h => absurd (h (BitVec.not_le.mp hlba)).1 hsame⟩

/-- A request shows its device one command. -/
theorem startAll_cons (s : AtaBus) (r : BusRequest) (rs : List BusRequest) :
    ∃ s' : AtaBus, s.startAll (r :: rs) = s'.startAll rs ∧
      s'.seen = s.seen ++ [seenAs r (s.driveByte r)] ∧
      ((maxLba28 < r.lba → s.ready = some r.drive) → s'.ready = some r.drive) := by
  obtain ⟨s', hstart, hselected, hdrive, hseen⟩ :=
    ataStartRequest_eq (s := { s with bsy := false, drq := false }) rfl rfl r
  refine ⟨s', ?_, hseen, fun h => ?_⟩
  · rw [startAll, hstart, ok_bind]
  · have hright := (driveByte_right_iff r).mpr h
    rw [ready_eq_some_iff, hdrive]
    exact ⟨hselected, hright⟩

theorem startAll_seen {rs : List BusRequest} (h : s.startAll rs = .ok s') :
    ∃ more, s'.seen = s.seen ++ more ∧ more.length = rs.length := by
  induction rs generalizing s with
  | nil =>
      cases h
      exact ⟨[], (List.append_nil _).symm, rfl⟩
  | cons r rs ih =>
      obtain ⟨s₁, hnext, hseen, -⟩ := startAll_cons s r rs
      rw [hnext] at h
      obtain ⟨more, hmore, hlength⟩ := ih h
      refine ⟨seenAs r (s.driveByte r) :: more, ?_, congrArg (· + 1) hlength⟩
      rw [hmore, hseen, List.append_assoc]
      rfl

/-- Every request is seen as it is meant if and only if each with 48 bits of address comes
directly after one to the same device. -/
theorem faithful_iff (s : AtaBus) (rs : List BusRequest) :
    s.Faithful rs ↔ LongAfterSame s.ready rs := by
  induction rs generalizing s with
  | nil => exact ⟨fun _ => trivial, fun _ => ⟨s, rfl, (List.append_nil _).symm⟩⟩
  | cons r rs ih =>
      obtain ⟨s₁, hnext, hseen, hready⟩ := startAll_cons s r rs
      rw [LongAfterSame]
      constructor
      · rintro ⟨s', hs', hall⟩
        rw [hnext] at hs'
        obtain ⟨more, hmore, -⟩ := startAll_seen hs'
        rw [hmore, hseen, List.append_assoc] at hall
        obtain ⟨hfirst, hrest⟩ := List.cons.inj (List.append_cancel_left hall)
        have hdevice := (driveByte_right_iff r).mp ((seenAs_eq_meant_iff r _).mp hfirst)
        refine ⟨hdevice, ?_⟩
        rw [← hready hdevice, ← ih]
        exact ⟨s', hs', hmore.trans (congrArg (s₁.seen ++ ·) hrest)⟩
      · rintro ⟨hdevice, hrest⟩
        rw [← hready hdevice, ← ih] at hrest
        obtain ⟨s', hs', hall⟩ := hrest
        have hfirst := (seenAs_eq_meant_iff r _).mpr ((driveByte_right_iff r).mpr hdevice)
        refine ⟨s', hnext.trans hs', ?_⟩
        rw [hall, hseen, hfirst, List.append_assoc]
        rfl

/-- The primary bus before the first request. -/
def primary : AtaBus where
  cmdBase := 0x1F0
  ctrlBase := 0x3F6
  bsy := false
  drq := false
  lastSelected := none
  last _ := 0#8
  previous _ := 0#8
  seen := []

def readOne (drive : AtaDrive) (lba : BitVec 32) : BusRequest where
  drive := drive
  lba := lba
  count := 1
  cmd := (ataPioCmd .read lba).code
  count_pos := by decide
  count_le := by decide
  ext_iff := code_ataPioCmd_mem_iff .read lba

/-- A sector beyond the first 128 GiB of the first device, after one of the second. -/
theorem not_faithful_otherDevice : ¬ primary.Faithful
    [readOne .busDrive1 0#32, readOne .busDrive2 0#32, readOne .busDrive1 0x10000000#32] := by
  rintro ⟨s', hs', hall⟩
  have hmodes : ((primary.startAll [readOne .busDrive1 0#32, readOne .busDrive2 0#32,
      readOne .busDrive1 0x10000000#32]).map fun s => s.seen.map Seen.lbaMode) =
        .ok [true, true, false] := by decide +kernel
  rw [hs'] at hmodes
  have hseen : s'.seen.map Seen.lbaMode = [true, true, false] := Except.ok.inj hmodes
  rw [hall] at hseen
  cases hseen

end AtaBus

end Yak.Disk
