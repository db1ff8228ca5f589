import Yak.Halt
import Yak.Partitions

/-!
# The ATA driver in PIO mode

A transcription of `drivers/ata/ata_pio.c` for one request on an idle device, by polling
and by interrupts.  The device raises one interrupt for each sector of the command that it
has been given, and a sector of the command is there until it is moved.
-/

namespace Yak.Disk

open ByteBitmap (Bytes)

abbrev Sector := Fin sectorSize → BitVec 8

inductive AtaCmd where
  | readSectors
  | writeSectors
  | readSectorsExt
  | writeSectorsExt
  deriving DecidableEq

inductive AtaPioDirection where
  | pioIn
  | pioOut
  deriving DecidableEq

/-- `struct ata_request`, with whether `dev` is not `NULL`. -/
structure AtaRequest where
  dev : Bool
  cmd : AtaCmd
  count : BitVec 32
  lba : BitVec 32
  buf : ℕ
  error : Bool
  retry : ℕ

structure AtaDevice where
  /-- `ATA_STATUS_ERR` -/
  err : Bool
  /-- The sectors of the command which are still to be moved. -/
  left : ℕ
  /-- What the device sends, byte by byte. -/
  data : ℕ → BitVec 8
  /-- The sectors which it has sent. -/
  sent : ℕ
  received : List Sector

/-- The driver with its only request. -/
structure AtaPio where
  mem : Bytes
  device : AtaDevice
  req : AtaRequest
  /-- `drive_intr`, by the direction in which the handler moves. -/
  driveIntr : Option AtaPioDirection

def maxLba28 : BitVec 32 := 0x0FFFFFFF#32

def ataBuildRequest (lba count : BitVec 32) (cmd : AtaCmd) (buf : ℕ) : AtaRequest where
  dev := true
  cmd := cmd
  count := count
  lba := lba
  buf := buf
  error := false
  retry := 0

/-- The command that `ata_pio_start` chooses. -/
def ataPioCmd (rw : Rw) (lba : BitVec 32) : AtaCmd :=
  match rw with
  | .read => if lba > maxLba28 then .readSectorsExt else .readSectors
  | .write => if lba > maxLba28 then .writeSectorsExt else .writeSectors

/-- The sectors of a command whose registers for the number have `width` bits.  Zero is the
number after the largest. -/
def commandSectors (width : ℕ) (count : BitVec 32) : ℕ :=
  if count.toNat % 2 ^ width = 0 then 2 ^ width else count.toNat % 2 ^ width

/-- The sectors of the command that `ata_start_request` gives to the device. -/
def AtaRequest.sectors (req : AtaRequest) : ℕ :=
  if req.lba ≤ maxLba28 then commandSectors 8 req.count else commandSectors 16 req.count

def sectorAt (mem : Bytes) (a : ℕ) : Sector := fun j => mem (a + j)

namespace AtaPio

def ataStartRequest (s : AtaPio) : AtaPio :=
  { s with device := { s.device with left := s.req.sectors } }

def ataPollDrq (s : AtaPio) : Except Halt Unit :=
  if s.device.left = 0 ∧ s.device.err = false then .error .endless else .ok ()

/-- `ata_pio_transfer`, from or to `req->buf` -/
def ataPioTransfer (s : AtaPio) (dir : AtaPioDirection) : AtaPio :=
  match dir with
  | .pioIn =>
      { s with
        mem := fun a =>
          if s.req.buf ≤ a ∧ a < s.req.buf + sectorSize then
            s.device.data (sectorSize * s.device.sent + (a - s.req.buf))
          else s.mem a
        device := { s.device with left := s.device.left - 1, sent := s.device.sent + 1 } }
  | .pioOut =>
      { s with
        device :=
          { s.device with
            left := s.device.left - 1
            received := s.device.received ++ [sectorAt s.mem s.req.buf] } }

def ataFinishRequest (s : AtaPio) : AtaPio := { s with req := { s.req with dev := false } }

def decrementCount (s : AtaPio) : AtaPio :=
  { s with req := { s.req with count := s.req.count - 1 } }

def advanceBuf (s : AtaPio) : AtaPio :=
  { s with req := { s.req with buf := s.req.buf + sectorSize } }

/-- The handler that `ata_pio_start_request` chooses. -/
def handlerOf (cmd : AtaCmd) : AtaPioDirection :=
  if cmd = .writeSectors ∨ cmd = .writeSectorsExt then .pioOut else .pioIn

/-- `ata_pio_start_request`, and whether the caller has to wait. -/
def ataPioStartRequest (s : AtaPio) : Except Halt (AtaPio × Bool) := do
  let s := { s with driveIntr := some (handlerOf s.req.cmd) }
  let s := s.ataStartRequest
  if s.device.err then
    .ok ({ s with req := { s.req with retry := s.req.retry + 1, error := true } }, false)
  else if s.req.cmd = .writeSectors then
    s.ataPollDrq
    let s := (s.ataPioTransfer .pioOut).decrementCount
    if s.req.count = 0 then .ok ({ s.ataFinishRequest with driveIntr := none }, false)
    else .ok (s, s.req.dev)
  else .ok (s, s.req.dev)

/-- What the two handlers do to the only request. -/
def ataPioIntr (dir : AtaPioDirection) (s : AtaPio) : AtaPio :=
  let s := (s.ataPioTransfer dir).advanceBuf.decrementCount
  if s.req.count = 0 then { s.ataFinishRequest with driveIntr := none } else s

def ataPioReadIntr : AtaPio → AtaPio := ataPioIntr .pioIn
def ataPioWriteIntr : AtaPio → AtaPio := ataPioIntr .pioOut

/-- An interrupt of the disk. -/
def driveInterrupt (s : AtaPio) : AtaPio :=
  match s.driveIntr with
  | none => s
  | some .pioIn => s.ataPioReadIntr
  | some .pioOut => s.ataPioWriteIntr

/-- What the two loops of the polled path do, with the number of times that `count` can be
lowered. -/
def ataPioPoll (dir : AtaPioDirection) : ℕ → AtaPio → Except Halt (AtaPio × ℤ)
  | 0, s => .ok (s.decrementCount, 0)
  | n + 1, s => do
      let s := s.decrementCount
      s.ataPollDrq
      if s.device.err then .ok (s, -1)
      else ataPioPoll dir n (s.ataPioTransfer dir).advanceBuf

def ataPioPollRead (s : AtaPio) : Except Halt (AtaPio × ℤ) :=
  ataPioPoll .pioIn s.req.count.toNat s

def ataPioPollWrite (s : AtaPio) : Except Halt (AtaPio × ℤ) :=
  ataPioPoll .pioOut s.req.count.toNat s

/-- The request with interrupts off. -/
def polled (rw : Rw) (s : AtaPio) : Except Halt AtaPio := do
  let s := s.ataStartRequest
  let (s, _) ← match rw with
    | .read => s.ataPioPollRead
    | .write => s.ataPioPollWrite
  .ok s.ataFinishRequest

/-- The request with the interrupts of the command. -/
def interruptDriven (s : AtaPio) : Except Halt AtaPio := do
  let (s', _) ← s.ataPioStartRequest
  .ok (driveInterrupt^[s.req.sectors] s')

/-- The driver with a new request, as `ata_pio_start` makes it. -/
def request (mem : Bytes) (device : AtaDevice) (rw : Rw) (lba count : BitVec 32) (buf : ℕ) :
    AtaPio where
  mem := mem
  device := device
  req := ataBuildRequest lba count (ataPioCmd rw lba) buf
  driveIntr := none

/-! ## Sectors in order -/

/-- The first `n` sectors of the buffer have been moved, in their order and nothing else. -/
def SectorsMoved (rw : Rw) (n : ℕ) (s s' : AtaPio) : Prop :=
  match rw with
  | .read =>
      s'.device.received = s.device.received ∧ s'.device.sent = s.device.sent + n ∧
        ∀ a, s'.mem a =
          if s.req.buf ≤ a ∧ a < s.req.buf + sectorSize * n then
            s.device.data (sectorSize * s.device.sent + (a - s.req.buf))
          else s.mem a
  | .write =>
      s'.mem = s.mem ∧ s'.device.sent = s.device.sent ∧
        s'.device.received = s.device.received ++
          (List.range n).map fun i => sectorAt s.mem (s.req.buf + sectorSize * i)

/-- Both paths finish, and have moved all sectors of the request in order. -/
def MovesAlike (rw : Rw) (s : AtaPio) : Prop :=
  (∃ s', s.polled rw = .ok s' ∧ SectorsMoved rw s.req.count.toNat s s') ∧
    ∃ s', s.interruptDriven = .ok s' ∧ s'.req.dev = false ∧
      SectorsMoved rw s.req.count.toNat s s'

/-- The conditions for it: the registers for the number of sectors hold it, and a write with
28 bits of address has one sector, or several with the same content. -/
def Transferable (mem : Bytes) (rw : Rw) (lba count : BitVec 32) (buf : ℕ) : Prop :=
  count.toNat ≤ 2 ^ (if lba ≤ maxLba28 then 8 else 16) ∧
    (rw = .write ∧ lba ≤ maxLba28 →
      ∀ i < count.toNat, sectorAt mem (buf + sectorSize * i) = sectorAt mem buf)

variable {s s' : AtaPio} {dir : AtaPioDirection} {rw : Rw} {mem : Bytes} {device : AtaDevice}
  {lba count : BitVec 32} {buf k n : ℕ}

/-! ## Turns of the two loops -/

def rwDir : Rw → AtaPioDirection
  | .read => .pioIn
  | .write => .pioOut

/-- One sector, as both the handlers and the loops move it. -/
def turn (dir : AtaPioDirection) (s : AtaPio) : AtaPio :=
  (s.ataPioTransfer dir).advanceBuf.decrementCount

theorem decrementCount_turn (dir : AtaPioDirection) (s : AtaPio) :
    (s.decrementCount.ataPioTransfer dir).advanceBuf = s.turn dir := by
  cases dir <;> rfl

theorem iterate_turn (dir : AtaPioDirection) (s : AtaPio) (k : ℕ) :
    ((turn dir)^[k] s).req =
        { s.req with count := s.req.count - BitVec.ofNat 32 k, buf := s.req.buf + sectorSize * k } ∧
      ((turn dir)^[k] s).device.data = s.device.data ∧
      ((turn dir)^[k] s).device.err = s.device.err ∧
      ((turn dir)^[k] s).device.left = s.device.left - k ∧
      ((turn dir)^[k] s).driveIntr = s.driveIntr := by
  induction k with
  | zero => simp
  | succ k ih =>
      obtain ⟨hreq, hdata, herr, hleft, hintr⟩ := ih
      rw [Function.iterate_succ_apply']
      generalize (turn dir)^[k] s = s' at hreq hdata herr hleft hintr
      have hcount : s.req.count - BitVec.ofNat 32 k - 1#32 =
          s.req.count - BitVec.ofNat 32 (k + 1) := by
        rw [BitVec.ofNat_add]
        bv_omega
      have hsteps : (s'.turn dir).req =
            { s'.req with count := s'.req.count - 1#32, buf := s'.req.buf + sectorSize } ∧
          (s'.turn dir).device.data = s'.device.data ∧
          (s'.turn dir).device.err = s'.device.err ∧
          (s'.turn dir).device.left = s'.device.left - 1 ∧
          (s'.turn dir).driveIntr = s'.driveIntr := by
        cases dir <;> exact ⟨rfl, rfl, rfl, rfl, rfl⟩
      obtain ⟨hreq', hdata', herr', hleft', hintr'⟩ := hsteps
      refine ⟨?_, hdata'.trans hdata, herr'.trans herr, ?_, hintr'.trans hintr⟩
      · rw [hreq', hreq]
        dsimp only
        rw [hcount, Nat.add_assoc, Nat.mul_succ]
      · rw [hleft', hleft]
        omega

theorem sectorsMoved_turn (h : SectorsMoved rw k s s')
    (hbuf : s'.req.buf = s.req.buf + sectorSize * k) (hdata : s'.device.data = s.device.data) :
    SectorsMoved rw (k + 1) s (s'.turn (rwDir rw)) := by
  cases rw with
  | read =>
      obtain ⟨hreceived, hsent, hmem⟩ := h
      refine ⟨hreceived, ?_, ?_⟩
      · change s'.device.sent + 1 = _
        omega
      · intro a
        change (if s'.req.buf ≤ a ∧ a < s'.req.buf + sectorSize then
          s'.device.data (sectorSize * s'.device.sent + (a - s'.req.buf)) else s'.mem a) = _
        rw [hmem a, hbuf, hdata, hsent]
        unfold sectorSize
        split_ifs <;> first | omega | rfl | (congr 1; omega)
  | write =>
      obtain ⟨hmem, hsent, hreceived⟩ := h
      refine ⟨hmem, hsent, ?_⟩
      change s'.device.received ++ [sectorAt s'.mem s'.req.buf] = _
      rw [hreceived, hmem, hbuf, List.range_succ, List.map_append, List.append_assoc]
      rfl

theorem sectorsMoved_iterate (rw : Rw) (s : AtaPio) (k : ℕ) :
    SectorsMoved rw k s ((turn (rwDir rw))^[k] s) := by
  induction k with
  | zero =>
      cases rw with
      | read =>
          refine ⟨rfl, rfl, fun a => ?_⟩
          rw [if_neg (by omega)]
          rfl
      | write => exact ⟨rfl, rfl, (List.append_nil _).symm⟩
  | succ k ih =>
      obtain ⟨hreq, hdata, -⟩ := iterate_turn (rwDir rw) s k
      rw [Function.iterate_succ_apply']
      exact sectorsMoved_turn ih (by rw [hreq]) hdata

/-! ## Polling -/

theorem ataPioPoll_eq (dir : AtaPioDirection) (hleft : n ≤ s.device.left)
    (herr : s.device.err = false) :
    ataPioPoll dir n s = .ok (((turn dir)^[n] s).decrementCount, 0) := by
  induction n generalizing s with
  | zero => rfl
  | succ n ih =>
      have hpoll : s.decrementCount.ataPollDrq = .ok () := if_neg fun h => by
        have hnone : s.device.left = 0 := h.1
        omega
      obtain ⟨-, -, herr', hleft', -⟩ := iterate_turn dir s 1
      rw [Function.iterate_one] at herr' hleft'
      unfold ataPioPoll
      dsimp only
      rw [hpoll, ok_bind, if_neg (by rw [show s.decrementCount.device.err = false from herr]; decide),
        decrementCount_turn, ih (by omega) (herr'.trans herr), Function.iterate_succ_apply]

/-- The polled path moves all sectors that the device has been told of. -/
theorem polled_ok (rw : Rw) (hsectors : s.req.sectors = s.req.count.toNat)
    (herr : s.device.err = false) :
    ∃ s', s.polled rw = .ok s' ∧ SectorsMoved rw s.req.count.toNat s s' := by
  have hpoll := ataPioPoll_eq (s := s.ataStartRequest) (rwDir rw) hsectors.ge herr
  have hmoved := sectorsMoved_iterate rw s.ataStartRequest s.req.count.toNat
  refine ⟨((turn (rwDir rw))^[s.req.count.toNat]
    s.ataStartRequest).decrementCount.ataFinishRequest, ?_, ?_⟩
  · unfold polled
    cases rw with
    | read =>
        change (do
          let (s, _) ← ataPioPoll .pioIn s.req.count.toNat s.ataStartRequest
          .ok s.ataFinishRequest) = _
        rw [show ataPioPoll .pioIn _ _ = _ from hpoll]
        rfl
    | write =>
        change (do
          let (s, _) ← ataPioPoll .pioOut s.req.count.toNat s.ataStartRequest
          .ok s.ataFinishRequest) = _
        rw [show ataPioPoll .pioOut _ _ = _ from hpoll]
        rfl
  · cases rw <;> exact hmoved

/-! ## Interrupts -/

theorem driveInterrupt_eq (h : s.driveIntr = some dir) : s.driveInterrupt = ataPioIntr dir s := by
  unfold driveInterrupt
  rw [h]
  cases dir <;> rfl

theorem driveInterrupt_none (h : s.driveIntr = none) : s.driveInterrupt = s := by
  unfold driveInterrupt
  rw [h]

theorem count_sub_eq_zero_iff (hk : k ≤ count.toNat) :
    count - BitVec.ofNat 32 k = 0#32 ↔ k = count.toNat := by
  have hlt := count.isLt
  rw [← BitVec.toNat_inj, BitVec.toNat_sub, BitVec.toNat_ofNat, BitVec.toNat_ofNat]
  omega

/-- Before the last sector each interrupt is a turn. -/
theorem driveInterrupt_iterate (h : s.driveIntr = some dir) (hk : k < s.req.count.toNat) :
    driveInterrupt^[k] s = (turn dir)^[k] s := by
  induction k with
  | zero => rfl
  | succ k ih =>
      obtain ⟨-, -, -, -, hintr⟩ := iterate_turn dir s k
      obtain ⟨hreq, -⟩ := iterate_turn dir s (k + 1)
      rw [Function.iterate_succ_apply'] at hreq ⊢
      rw [ih (by omega), driveInterrupt_eq (hintr.trans h), Function.iterate_succ_apply']
      unfold ataPioIntr
      change (if ((turn dir) ((turn dir)^[k] s)).req.count = 0 then _ else _) = _
      rw [hreq]
      exact if_neg fun hzero => by
        have hend := (count_sub_eq_zero_iff hk.le).mp hzero
        omega

/-- The request is finished by the interrupt for its last sector, and those after it do
nothing. -/
theorem driveInterrupt_finishes (h : s.driveIntr = some dir) (hpos : 0 < s.req.count.toNat)
    (hk : s.req.count.toNat ≤ k) :
    driveInterrupt^[k] s =
      { ((turn dir)^[s.req.count.toNat] s).ataFinishRequest with driveIntr := none } := by
  obtain ⟨extra, rfl⟩ := Nat.exists_eq_add_of_le hk
  obtain ⟨n, hn⟩ := Nat.exists_eq_succ_of_ne_zero hpos.ne'
  have hlast : driveInterrupt^[s.req.count.toNat] s =
      { ((turn dir)^[s.req.count.toNat] s).ataFinishRequest with driveIntr := none } := by
    obtain ⟨-, -, -, -, hintr⟩ := iterate_turn dir s n
    obtain ⟨hreq, -⟩ := iterate_turn dir s s.req.count.toNat
    rw [hn] at hreq ⊢
    rw [Function.iterate_succ_apply'] at hreq
    rw [Function.iterate_succ_apply', Function.iterate_succ_apply',
      driveInterrupt_iterate h (by omega), driveInterrupt_eq (hintr.trans h)]
    unfold ataPioIntr
    change (if ((turn dir) ((turn dir)^[n] s)).req.count = 0 then _ else _) = _
    rw [hreq]
    exact if_pos ((count_sub_eq_zero_iff hn.ge).mpr hn.symm)
  rw [Nat.add_comm, Function.iterate_add_apply, hlast]
  exact Function.iterate_fixed (driveInterrupt_none rfl) extra

/-! ## The number of sectors in a command -/

theorem commandSectors_eq (width : ℕ) (hpos : 0 < count.toNat) (h : count.toNat ≤ 2 ^ width) :
    commandSectors width count = count.toNat := by
  unfold commandSectors
  rcases h.lt_or_eq with hlt | heq
  · rw [Nat.mod_eq_of_lt hlt, if_neg hpos.ne']
  · rw [heq, Nat.mod_self, if_pos rfl]

theorem commandSectors_add_le (width : ℕ) (count : BitVec 32) (h : 2 ^ width < count.toNat) :
    commandSectors width count + 2 ^ width ≤ count.toNat := by
  have hpos : 0 < 2 ^ width := Nat.two_pow_pos width
  have hdiv := Nat.mod_add_div count.toNat (2 ^ width)
  have hquotient : 1 ≤ count.toNat / 2 ^ width := (Nat.one_le_div_iff hpos).mpr h.le
  unfold commandSectors
  split
  next hzero =>
    rw [hzero, Nat.zero_add] at hdiv
    have htwo : 2 ≤ count.toNat / 2 ^ width := by
      by_contra hone
      have hq : count.toNat / 2 ^ width = 1 := by omega
      rw [hq, Nat.mul_one] at hdiv
      omega
    have hmul := Nat.mul_le_mul_left (2 ^ width) htwo
    omega
  next =>
    have hmul := Nat.mul_le_mul_left (2 ^ width) hquotient
    omega

theorem sectors_request (mem : Bytes) (device : AtaDevice) (rw : Rw) (lba count : BitVec 32)
    (buf : ℕ) : (request mem device rw lba count buf).req.sectors =
      commandSectors (if lba ≤ maxLba28 then 8 else 16) count :=
  (apply_ite (commandSectors · count) (lba ≤ maxLba28) 8 16).symm

/-! ## The first sector -/

/-- The request when its command has been given. -/
def started (mem : Bytes) (device : AtaDevice) (rw : Rw) (lba count : BitVec 32) (buf : ℕ) :
    AtaPio :=
  { (request mem device rw lba count buf).ataStartRequest with driveIntr := some (rwDir rw) }

theorem ataPioCmd_eq_writeSectors_iff :
    ataPioCmd rw lba = .writeSectors ↔ rw = .write ∧ lba ≤ maxLba28 := by
  unfold ataPioCmd
  cases rw with
  | read => dsimp only; split <;> simp
  | write =>
      dsimp only
      split
      next hlba => simpa using hlba
      next hlba => simpa using hlba

theorem handlerOf_ataPioCmd (rw : Rw) (lba : BitVec 32) :
    handlerOf (ataPioCmd rw lba) = rwDir rw := by
  unfold ataPioCmd
  cases rw <;> dsimp only <;> split <;> rfl

theorem ataPioStartRequest_eq (herr : device.err = false) :
    (request mem device rw lba count buf).ataPioStartRequest =
      if rw = .write ∧ lba ≤ maxLba28 then
        (started mem device rw lba count buf).ataPollDrq >>= fun _ =>
          let s := ((started mem device rw lba count buf).ataPioTransfer .pioOut).decrementCount
          if s.req.count = 0 then .ok ({ s.ataFinishRequest with driveIntr := none }, false)
          else .ok (s, true)
      else .ok (started mem device rw lba count buf, true) := by
  have herr' : (started mem device rw lba count buf).device.err = false := herr
  have hstart : ataStartRequest { request mem device rw lba count buf with
      driveIntr := some (handlerOf (request mem device rw lba count buf).req.cmd) } =
        started mem device rw lba count buf := by
    change ataStartRequest { request mem device rw lba count buf with
      driveIntr := some (handlerOf (ataPioCmd rw lba)) } = _
    rw [handlerOf_ataPioCmd]
    rfl
  unfold ataPioStartRequest
  dsimp only
  rw [hstart, herr', if_neg Bool.false_ne_true]
  by_cases hfirst : rw = .write ∧ lba ≤ maxLba28
  · rw [if_pos hfirst]
    exact if_pos (ataPioCmd_eq_writeSectors_iff.mpr hfirst)
  · rw [if_neg hfirst]
    exact if_neg fun hcmd => hfirst (ataPioCmd_eq_writeSectors_iff.mp hcmd)

/-- After a first sector out of turn, the others are in order only if all are the same. -/
theorem cons_map_range_iff {α : Type*} (f : ℕ → α) (n : ℕ) :
    f 0 :: (List.range n).map f = (List.range (n + 1)).map f ↔ ∀ i < n + 1, f i = f 0 := by
  rw [List.range_succ_eq_map, List.map_cons, List.map_map, List.cons.injEq, List.map_inj_left]
  constructor
  · rintro ⟨-, hnext⟩ i hi
    induction i with
    | zero => rfl
    | succ i ih => exact (hnext i (List.mem_range.mpr (by omega))).symm.trans (ih (by omega))
  · intro hall
    refine ⟨rfl, fun i hi => ?_⟩
    have hlt := List.mem_range.mp hi
    exact (hall i (by omega)).trans (hall (i + 1) (by omega)).symm

/-! ## The two paths -/

/-- What is expected of the path with interrupts. -/
def InterruptsMove (rw : Rw) (s : AtaPio) : Prop :=
  ∃ s', s.interruptDriven = .ok s' ∧ s'.req.dev = false ∧ SectorsMoved rw s.req.count.toNat s s'

/-- Without a first sector that is sent at once, the command must have all sectors. -/
theorem interruptsMove_iff_of_waits (hpos : 0 < count.toNat) (herr : device.err = false)
    (hwaits : ¬ (rw = .write ∧ lba ≤ maxLba28)) :
    InterruptsMove rw (request mem device rw lba count buf) ↔
      count.toNat ≤ 2 ^ (if lba ≤ maxLba28 then 8 else 16) := by
  have hsectors := sectors_request mem device rw lba count buf
  have hrun : (request mem device rw lba count buf).interruptDriven = .ok
      (driveInterrupt^[(request mem device rw lba count buf).req.sectors]
        (started mem device rw lba count buf)) := by
    unfold interruptDriven
    rw [ataPioStartRequest_eq herr, if_neg hwaits]
    rfl
  have hintr : (started mem device rw lba count buf).driveIntr = some (rwDir rw) := rfl
  constructor
  · rintro ⟨s', hs', hdone, -⟩
    by_contra hfits
    have hfew := commandSectors_add_le _ count (not_le.mp hfits)
    rw [← hsectors] at hfew
    have hwidth := Nat.two_pow_pos (if lba ≤ maxLba28 then 8 else 16)
    rw [hrun, driveInterrupt_iterate hintr (show _ < count.toNat by omega)] at hs'
    obtain ⟨hreq, -⟩ := iterate_turn (rwDir rw) (started mem device rw lba count buf)
      (request mem device rw lba count buf).req.sectors
    rw [← Except.ok.inj hs', hreq] at hdone
    cases hdone
  · intro hfits
    have hall := commandSectors_eq _ hpos hfits
    rw [← hsectors] at hall
    have hlast := driveInterrupt_finishes hintr hpos hall.ge
    rw [hlast] at hrun
    refine ⟨_, hrun, rfl, ?_⟩
    have hmoved := sectorsMoved_iterate rw (started mem device rw lba count buf) count.toNat
    cases rw <;> exact hmoved

/-- The request for a write once its first sector is sent. -/
def firstSent (mem : Bytes) (device : AtaDevice) (lba count : BitVec 32) (buf : ℕ) : AtaPio :=
  ((started mem device .write lba count buf).ataPioTransfer .pioOut).decrementCount

theorem sectorsMoved_firstSent_iff (mem : Bytes) (device : AtaDevice) (lba count : BitVec 32)
    (buf n : ℕ) :
    SectorsMoved .write (n + 1) (request mem device .write lba count buf)
        ((turn .pioOut)^[n] (firstSent mem device lba count buf)) ↔
      ∀ i < n + 1, sectorAt mem (buf + sectorSize * i) = sectorAt mem buf := by
  obtain ⟨hmem, hsent, hreceived⟩ :=
    sectorsMoved_iterate .write (firstSent mem device lba count buf) n
  have hfirst : (firstSent mem device lba count buf).device.received =
      device.received ++ [sectorAt mem buf] := rfl
  rw [hfirst, List.append_assoc, List.singleton_append] at hreceived
  have hmap := cons_map_range_iff (fun i => sectorAt mem (buf + sectorSize * i)) n
  unfold SectorsMoved
  constructor
  · rintro ⟨-, -, hinorder⟩
    exact hmap.mp (List.append_cancel_left (hreceived.symm.trans hinorder))
  · intro hsame
    refine ⟨hmem, hsent, hreceived.trans ?_⟩
    exact congrArg (device.received ++ ·) (hmap.mpr hsame)

/-- The first interrupt sends the sector again that has been sent at once. -/
theorem interruptsMove_iff_of_first (hpos : 0 < count.toNat) (herr : device.err = false)
    (hlba : lba ≤ maxLba28) :
    InterruptsMove .write (request mem device .write lba count buf) ↔
      count.toNat ≤ 2 ^ 8 ∧
        ∀ i < count.toNat, sectorAt mem (buf + sectorSize * i) = sectorAt mem buf := by
  have hsectors := sectors_request mem device .write lba count buf
  rw [if_pos hlba] at hsectors
  have hpoll : (started mem device .write lba count buf).ataPollDrq = .ok () := by
    have hsome : (request mem device .write lba count buf).req.sectors ≠ 0 := by
      rw [hsectors]
      unfold commandSectors
      split
      next => exact (Nat.two_pow_pos 8).ne'
      next hmod => exact hmod
    exact if_neg fun h => hsome h.1
  have hrun : (request mem device .write lba count buf).interruptDriven =
      (if (firstSent mem device lba count buf).req.count = 0 then
        .ok ({ (firstSent mem device lba count buf).ataFinishRequest with driveIntr := none }, false)
      else .ok (firstSent mem device lba count buf, true)) >>= fun r =>
        .ok (driveInterrupt^[(request mem device .write lba count buf).req.sectors] r.1) := by
    unfold interruptDriven
    rw [ataPioStartRequest_eq herr, if_pos ⟨rfl, hlba⟩, hpoll]
    rfl
  have hintr : (firstSent mem device lba count buf).driveIntr = some .pioOut := rfl
  obtain ⟨n, hn⟩ := Nat.exists_eq_succ_of_ne_zero hpos.ne'
  have hmoved := sectorsMoved_firstSent_iff mem device lba count buf n
  have hcount : (firstSent mem device lba count buf).req.count.toNat = n := by
    have hlt := count.isLt
    have hone : (firstSent mem device lba count buf).req.count = count - 1#32 := rfl
    rw [hone, BitVec.toNat_sub, hn]
    simp
    omega
  have hzero : (firstSent mem device lba count buf).req.count = 0 ↔ n = 0 := by
    rw [← BitVec.toNat_inj, hcount]
    rfl
  unfold InterruptsMove
  rw [hrun, show (request mem device .write lba count buf).req.count.toNat = n + 1 from hn, hn]
  by_cases hone : n = 0
  · -- the request is finished at once
    rw [if_pos (hzero.mpr hone), ok_bind, Function.iterate_fixed (driveInterrupt_none rfl)]
    subst hone
    constructor
    · rintro ⟨s', hs', -, hinorder⟩
      rw [← Except.ok.inj hs'] at hinorder
      exact ⟨by omega, hmoved.mp hinorder⟩
    · rintro ⟨-, hsame⟩
      exact ⟨_, rfl, rfl, hmoved.mpr hsame⟩
  · rw [if_neg fun h => hone (hzero.mp h), ok_bind]
    constructor
    · rintro ⟨s', hs', hdone, hinorder⟩
      have hfits : n + 1 ≤ 2 ^ 8 := by
        by_contra hmany
        have hfew := commandSectors_add_le 8 count (by omega)
        rw [driveInterrupt_iterate hintr (by omega)] at hs'
        obtain ⟨hreq, -⟩ := iterate_turn .pioOut (firstSent mem device lba count buf)
          (request mem device .write lba count buf).req.sectors
        rw [← Except.ok.inj hs', hreq] at hdone
        cases hdone
      have hall := commandSectors_eq 8 hpos (by omega)
      rw [driveInterrupt_finishes hintr (by omega) (by omega), hcount] at hs'
      rw [← Except.ok.inj hs'] at hinorder
      exact ⟨hfits, hmoved.mp hinorder⟩
    · rintro ⟨hfits, hsame⟩
      have hall := commandSectors_eq 8 hpos (by omega)
      rw [driveInterrupt_finishes hintr (by omega) (by omega), hcount]
      exact ⟨_, rfl, rfl, hmoved.mpr hsame⟩

/-- On a device without errors the path with interrupts moves what the polled one does, all
sectors in their order, if and only if the request can be transferred. -/
theorem movesAlike_iff (mem : Bytes) (rw : Rw) (lba : BitVec 32) (buf : ℕ) (hcount : count ≠ 0)
    (herr : device.err = false) :
    MovesAlike rw (request mem device rw lba count buf) ↔ Transferable mem rw lba count buf := by
  have hpos : 0 < count.toNat := Nat.pos_of_ne_zero fun h => hcount (BitVec.eq_of_toNat_eq h)
  have hinterrupts : InterruptsMove rw (request mem device rw lba count buf) ↔
      Transferable mem rw lba count buf := by
    unfold Transferable
    by_cases hfirst : rw = .write ∧ lba ≤ maxLba28
    · obtain ⟨rfl, hlba⟩ := hfirst
      rw [interruptsMove_iff_of_first hpos herr hlba, if_pos hlba]
      exact and_congr_right fun _ => ⟨fun h _ => h, fun h => h ⟨rfl, hlba⟩⟩
    · rw [interruptsMove_iff_of_waits hpos herr hfirst]
      exact ⟨fun h => ⟨h, fun hwrite => absurd hwrite hfirst⟩, And.left⟩
  constructor
  · exact fun h => hinterrupts.mp h.2
  · intro h
    have hsectors := sectors_request mem device rw lba count buf
    rw [commandSectors_eq _ hpos h.1] at hsectors
    exact ⟨polled_ok rw hsectors herr, hinterrupts.mpr h⟩

/-- A disk that has received nothing and sends the numbers of its sectors. -/
def numberedDisk : AtaDevice where
  err := false
  left := 0
  data i := BitVec.ofNat 8 (i / 512)
  sent := 0
  received := []

theorem movesAlike_numberedDisk :
    MovesAlike .read (request (fun _ => 0#8) numberedDisk .read 63 4 0x1000) := by
  refine (movesAlike_iff _ .read 63 0x1000 (by decide) rfl).mpr ⟨by decide, ?_⟩
  rintro ⟨hwrite, -⟩
  cases hwrite

/-- Of a block of two sectors the first is sent twice. -/
theorem not_movesAlike_numberedDisk :
    ¬ ∀ (mem : Bytes) (device : AtaDevice) (rw : Rw) (lba count : BitVec 32) (buf : ℕ),
      count ≠ 0 → device.err = false → MovesAlike rw (request mem device rw lba count buf) := by
  intro hall
  obtain ⟨-, s', hs', -, -, -, hreceived⟩ :=
    hall (fun a => BitVec.ofNat 8 (a / 512)) numberedDisk .write 63 2 0 (by decide) rfl
  have hrun : ((request (fun a => BitVec.ofNat 8 (a / 512)) numberedDisk .write 63 2
      0).interruptDriven.map fun s => s.device.received.map fun sector => sector ⟨0, by decide⟩) =
        .ok [0#8, 0#8] := by decide +kernel
  rw [hs'] at hrun
  have hsent : s'.device.received.map (fun sector => sector ⟨0, by decide⟩) = [0#8, 0#8] :=
    Except.ok.inj hrun
  rw [hreceived] at hsent
  exact absurd hsent (by decide +kernel)

end AtaPio

end Yak.Disk
