import Yak.Tty

/-!
# The serial terminal

A transcription of `drivers/uart_8250.c` and of `tty_write` on the terminal which it drives.
A request keeps a pointer into the write queue, and interrupts send its bytes.  They may come
between any two statements of `tty_write` and `uart8250_rw` which look at what they share;
`struct tty` goes on behind the buffer of the queue, and what a pointer finds there is `rest`.
-/

namespace Yak.SerialLine

open ByteBitmap (Bytes)
open Terminal

abbrev nrUart8250Requests : ℕ := 5

abbrev ReqSlot := Fin nrUart8250Requests

def com1PortBase : BitVec 16 := 0x3F8
def com2PortBase : BitVec 16 := 0x2F8
def com3PortBase : BitVec 16 := 0x3E8
def com4PortBase : BitVec 16 := 0x2E8

def ports : List (BitVec 16) := [com1PortBase, com2PortBase, com3PortBase, com4PortBase]

/-- `TTY_NUM` of `DEBUG_TTY` -/
def ttyNum : ℕ := 0

def iirInterruptPending : BitVec 16 := 1
def iirModemStatusInt : BitVec 16 := 0
def iirTransmitterEmptyInt : BitVec 16 := 1
def iirDataAvailableInt : BitVec 16 := 2
def iirLineStatusInt : BitVec 16 := 3

def ierReceivedDataInt : BitVec 8 := 1
def ierTransmitterEmptyInt : BitVec 8 := 2

inductive Rw where
  | write
  | read
  deriving DecidableEq

/-- `struct uart8250_request`.  The pointer `buf` is an offset into the write queue. -/
structure Request where
  buf : ℕ
  irq : ℤ
  free : Bool
  rw : Rw
  port : BitVec 16
  next : Option ReqSlot
  deriving DecidableEq

/-- The driver, the register `INT_ENABLE` of its port, the bytes which were put into the data
register, and the memory behind the buffer. -/
structure Uart where
  requestTab : ReqSlot → Request
  currentReq : Option ReqSlot
  intEnable : BitVec 8
  sent : List (BitVec 8)
  rest : Bytes

namespace Uart

/-- After `uart8250_serial_init`.  The last slot has no next one: that store goes behind the
table. -/
def init (rest : Bytes) : Uart where
  requestTab r := ⟨0, 0, true, .write, 0, if r = Fin.last 4 then none else some (r + 1)⟩
  currentReq := none
  intEnable := 0
  sent := []
  rest := rest

def setReq (u : Uart) (r : ReqSlot) (q : Request) : Uart :=
  { u with requestTab := Function.update u.requestTab r q }

/-- `uart8250_find_free_req` -/
def findFreeReq (u : Uart) : Option ReqSlot :=
  (List.finRange nrUart8250Requests).find? fun r => (u.requestTab r).free

/-- What `uart8250_rw` writes into a free request. -/
def build (u : Uart) (r : ReqSlot) (port buf : ℕ) (rw : Rw) (count : ℤ) : Uart :=
  u.setReq r ⟨buf, count, false, rw, ports.getD port 0, none⟩

/-- `uart8250_start_req` -/
def startReq (u : Uart) (r : ReqSlot) : Uart :=
  { u with
    currentReq := some r
    intEnable := u.intEnable ||| match (u.requestTab r).rw with
      | .write => ierTransmitterEmptyInt
      | .read => ierReceivedDataInt }

/-- The loop of `uart8250_add_req`. -/
def lastReq (u : Uart) : (fuel : ℕ) → ReqSlot → Except Halt ReqSlot
  | 0, _ => .error .badWalk
  | fuel + 1, p =>
      match (u.requestTab p).next with
      | none => .ok p
      | some q => lastReq u fuel q

/-- The end of `uart8250_add_req`, at the last request. -/
def linkReq (u : Uart) (p r : ReqSlot) : Uart :=
  u.setReq p { u.requestTab p with next := some r }

/-- `uart8250_rw` -/
def rw (u : Uart) (port buf : ℕ) (rw : Rw) (count : ℤ) : Except Halt Uart :=
  match u.findFreeReq with
  | none => .ok u
  | some r =>
      let u := u.build r port buf rw count
      match u.currentReq with
      | none => .ok (u.startReq r)
      | some p => do
          let p ← u.lastReq (nrUart8250Requests + 1) p
          .ok (u.linkReq p r)

/-- `uart8250_tty_out` -/
def ttyOut (tq : TtyQueue) (u : Uart) : Except Halt Uart :=
  let nr : ℤ := (tq.tqTail : ℤ) - tq.tqHead
  if nr < 0 then .ok u else u.rw ttyNum tq.tqHead .write nr

/-- The end of a request: the next one is started, or none is current. -/
def finish (u : Uart) (r : ReqSlot) : Uart :=
  let q := u.requestTab r
  let u := { u.setReq r { q with free := true } with
    intEnable := if q.rw = Rw.write then u.intEnable &&& ~~~ierTransmitterEmptyInt &&& 0xF
      else u.intEnable }
  match q.next with
  | some r' => u.startReq r'
  | none => { u with currentReq := none }

end Uart

/-! ## The terminal -/

/-- A byte which a request points to. -/
def load (tp : Tty Uart) (p : ℕ) : BitVec 8 :=
  if p < ttyBufSize then tp.tWriteq.tqBuf p else tp.driver.rest p

def store (tp : Tty Uart) (p : ℕ) (c : BitVec 8) : Tty Uart :=
  if p < ttyBufSize then
    { tp with tWriteq := { tp.tWriteq with tqBuf := Function.update tp.tWriteq.tqBuf p c } }
  else { tp with driver := { tp.driver with rest := Function.update tp.driver.rest p c } }

def setDriver (tp : Tty Uart) (u : Uart) : Tty Uart := { tp with driver := u }

/-- What `handle_com_irq` does for the cause of the interrupt; `data` is a byte which has been
received. -/
def serve (tp : Tty Uart) (r : ReqSlot) (cause : BitVec 16) (data : BitVec 8) : Tty Uart :=
  let u := tp.driver
  let q := u.requestTab r
  if cause = iirLineStatusInt then tp
  else if cause = iirDataAvailableInt then
    store (setDriver tp (u.setReq r { q with buf := q.buf + 1 })) q.buf data
  else if cause = iirModemStatusInt then tp
  else if cause = iirTransmitterEmptyInt then
    setDriver tp
      { u.setReq r { q with buf := q.buf + 1 } with sent := u.sent ++ [load tp q.buf] }
  else tp

/-- `handle_com_irq`, when `INTERRUPT_ID` reads `iir`. -/
def handleComIrq (tp : Tty Uart) (iir : BitVec 16) (data : BitVec 8) : Tty Uart :=
  match tp.driver.currentReq with
  | none => tp
  | some r =>
      if iir &&& iirInterruptPending ≠ 0 then tp
      else
        let tp := serve tp r (iir >>> 1 &&& 7) data
        let q := tp.driver.requestTab r
        let u := tp.driver.setReq r { q with irq := q.irq - 1 }
        setDriver tp (if q.irq - 1 = 0 then u.finish r else u)

/-! ## Interleavings -/

/-- Where the process in `tty_write` is. -/
inductive Writer where
  | idle
  /-- In the loop, at place `p` of the buffer. -/
  | filling (buf : Bytes) (i : ℤ) (p : ℕ)
  /-- Before `tty_flush`. -/
  | filled
  /-- `uart8250_find_free_req` has found this request. -/
  | found (r : ReqSlot) (nr : ℤ)
  /-- The request is filled in. -/
  | built (r : ReqSlot)
  | starting (r : ReqSlot)
  | adding (r : ReqSlot)
  /-- The loop of `uart8250_add_req` has come to the last request. -/
  | linking (r p : ReqSlot)
  /-- Before `tty_queue_reset`. -/
  | flushed

/-- The terminal, the process in `tty_write`, and the output of the characters which all calls
so far have taken from their buffers. -/
structure Serial where
  tty : Tty Uart
  writer : Writer
  expected : List (BitVec 8)

inductive Event where
  | write (buf : Bytes) (count : ℤ)
  /-- The process in `tty_write` goes on. -/
  | go
  | irq (iir : BitVec 16) (data : BitVec 8)

namespace Serial

def start (t : Termios) (rest : Bytes) : Serial where
  tty := ⟨t, .reset, .reset, false, true, .init rest, []⟩
  writer := .idle
  expected := []

def setTty (s : Serial) (tp : Tty Uart) : Serial := { s with tty := tp }
def setUart (s : Serial) (u : Uart) : Serial := s.setTty (setDriver s.tty u)
def goto (s : Serial) (w : Writer) : Serial := { s with writer := w }

/-- The loop of `tty_write` goes on with the character at `p`. -/
def Fills (s : Serial) (buf : Bytes) (i : ℤ) (p : ℕ) : Prop :=
  buf p ≠ 0#8 ∧ i ≠ 0 ∧ ¬ s.tty.tWriteq.Full

instance (s : Serial) (buf : Bytes) (i : ℤ) (p : ℕ) : Decidable (s.Fills buf i p) :=
  inferInstanceAs (Decidable (_ ∧ _))

/-- A turn of the loop of `tty_write`. -/
def fill (s : Serial) (c : BitVec 8) : Serial where
  tty := { s.tty with tWriteq := Tty.putOutput s.tty.tTermios s.tty.tWriteq c }
  writer := s.writer
  expected := s.expected ++ outputOf s.tty.tTermios c

/-- The next statement of `tty_write`, and of `uart8250_rw` in it. -/
def go (s : Serial) : Except Halt Serial :=
  let u := s.tty.driver
  match s.writer with
  | .idle => .ok s
  | .filling buf i p =>
      .ok (if s.Fills buf i p then (s.fill (buf p)).goto (.filling buf (i - 1) (p + 1))
        else s.goto .filled)
  | .filled =>
      let nr : ℤ := (s.tty.tWriteq.tqTail : ℤ) - s.tty.tWriteq.tqHead
      .ok (if s.tty.tStopped ∨ nr < 0 then s.goto .flushed
        else
          match u.findFreeReq with
          | none => s.goto .flushed
          | some r => s.goto (.found r nr))
  | .found r nr =>
      .ok ((s.setUart (u.build r ttyNum s.tty.tWriteq.tqHead .write nr)).goto (.built r))
  | .built r => .ok (s.goto (if u.currentReq = none then .starting r else .adding r))
  | .starting r => .ok ((s.setUart (u.startReq r)).goto .flushed)
  | .adding r =>
      match u.currentReq with
      | none => .error .nullDeref
      | some p => do
          let p ← u.lastReq (nrUart8250Requests + 1) p
          .ok (s.goto (.linking r p))
  | .linking r p => .ok ((s.setUart (u.linkReq p r)).goto .flushed)
  | .flushed => .ok ((s.setTty { s.tty with tWriteq := .reset }).goto .idle)

def step (s : Serial) : Event → Except Halt Serial
  | .write buf count =>
      match s.writer with
      | .idle => .ok (s.goto (.filling buf count 0))
      | _ => .error .asleep
  | .go => s.go
  | .irq iir data => .ok (s.setTty (handleComIrq s.tty iir data))

def run (s : Serial) : List Event → Except Halt Serial
  | [] => .ok s
  | e :: es => do
      let s ← s.step e
      run s es

/-- What has been sent is the beginning of the output, and all of it when nobody is at work. -/
structure Faithful (s : Serial) : Prop where
  sent : s.tty.driver.sent <+: s.expected
  idle : s.writer = .idle → s.tty.driver.currentReq = none → s.tty.driver.sent = s.expected

def FaithfulRun (s : Serial) : List Event → Prop
  | [] => s.Faithful
  | e :: es =>
      s.Faithful ∧
        match s.step e with
        | .ok s' => FaithfulRun s' es
        | .error _ => True

/-- A newline fits in together with its carriage return, something is written, and it has been
sent before the queue is reset. -/
def SafeGo (s : Serial) : Writer → Prop
  | .filling buf i p =>
      if s.Fills buf i p then
        s.tty.tWriteq.tqTail + (outputOf s.tty.tTermios (buf p)).length ≤ ttyBufSize
      else 0 < s.tty.tWriteq.tqTail
  | .flushed => s.tty.driver.currentReq = none
  | _ => True

/-- An interrupt which comes for a request is that of an empty transmitter. -/
def SafeStep (s : Serial) : Event → Prop
  | .write _ _ => True
  | .go => s.SafeGo s.writer
  | .irq iir _ =>
      s.tty.driver.currentReq = none ∨ iir &&& iirInterruptPending ≠ 0 ∨
        iir >>> 1 &&& 7 = iirTransmitterEmptyInt

def SafeRun (s : Serial) : List Event → Prop
  | [] => True
  | e :: es =>
      s.SafeStep e ∧
        match s.step e with
        | .ok s' => SafeRun s' es
        | .error _ => True

end Serial

/-! ## The queue -/

/-- The bytes of the queue from the place `k` on. -/
def tailFrom (tq : TtyQueue) (k : ℕ) : List (BitVec 8) :=
  (List.range (tq.tqTail - k)).map fun i => tq.tqBuf (k + i)

theorem tailFrom_cons {tq : TtyQueue} {k : ℕ} (h : k < tq.tqTail) :
    tailFrom tq k = tq.tqBuf k :: tailFrom tq (k + 1) := by
  obtain ⟨n, hn⟩ := Nat.exists_eq_add_of_lt h
  unfold tailFrom
  rw [show tq.tqTail - k = n + 1 by omega, show tq.tqTail - (k + 1) = n by omega,
    List.range_succ_eq_map, List.map_cons, List.map_map, Nat.add_zero]
  refine congrArg _ (List.map_congr_left fun i _ => ?_)
  show tq.tqBuf (k + (i + 1)) = tq.tqBuf (k + 1 + i)
  rw [Nat.add_assoc, Nat.add_comm 1 i]

theorem tailFrom_end (tq : TtyQueue) : tailFrom tq tq.tqTail = [] := by
  rw [tailFrom, Nat.sub_self]
  rfl

theorem tailFrom_putch {tq : TtyQueue} {k : ℕ} {c : BitVec 8} (hk : k ≤ tq.tqTail)
    (hroom : tq.tqTail < ttyBufSize) : tailFrom (tq.putch c) k = tailFrom tq k ++ [c] := by
  have hfull : ¬ tq.Full := hroom.ne
  unfold tailFrom
  rw [TtyQueue.putch, if_neg hfull]
  dsimp only
  rw [show tq.tqTail + 1 - k = tq.tqTail - k + 1 by omega, List.range_succ, List.map_append]
  congr 1
  · refine List.map_congr_left fun i hi => Function.update_of_ne ?_ _ _
    have hlt := List.mem_range.mp hi
    omega
  · rw [List.map_singleton, show k + (tq.tqTail - k) = tq.tqTail by omega, Function.update_self]

theorem putch_tail {tq : TtyQueue} (c : BitVec 8) (hroom : tq.tqTail < ttyBufSize) :
    (tq.putch c).tqTail = tq.tqTail + 1 ∧ (tq.putch c).tqHead = tq.tqHead := by
  rw [TtyQueue.putch, if_neg (show ¬ tq.Full from hroom.ne)]
  exact ⟨rfl, rfl⟩

theorem putOutput_eq (t : Termios) (tq : TtyQueue) (c : BitVec 8) :
    Tty.putOutput t tq c = (outputOf t c).foldl TtyQueue.putch tq := by
  unfold Tty.putOutput outputOf
  split
  next h =>
    rw [h.2.1]
    rfl
  next => split <;> rfl

theorem foldl_putch {cs : List (BitVec 8)} {tq : TtyQueue}
    (hroom : tq.tqTail + cs.length ≤ ttyBufSize) :
    tailFrom (cs.foldl TtyQueue.putch tq) 0 = tailFrom tq 0 ++ cs ∧
      (cs.foldl TtyQueue.putch tq).tqTail = tq.tqTail + cs.length ∧
        (cs.foldl TtyQueue.putch tq).tqHead = tq.tqHead := by
  induction cs generalizing tq with
  | nil => exact ⟨(List.append_nil _).symm, rfl, rfl⟩
  | cons c cs ih =>
      rw [List.length_cons] at hroom
      have hone : tq.tqTail < ttyBufSize := by omega
      obtain ⟨htail, hhead⟩ := putch_tail c hone
      obtain ⟨hbytes, htail', hhead'⟩ := @ih (tq.putch c) (by omega)
      rw [List.foldl_cons]
      refine ⟨?_, ?_, hhead'.trans hhead⟩
      · rw [hbytes, tailFrom_putch (Nat.zero_le _) hone, List.append_assoc]
        rfl
      · rw [htail', htail, List.length_cons]
        omega

/-! ## What a run preserves -/

/-- No request is in use. -/
structure Quiet (u : Uart) : Prop where
  current : u.currentReq = none
  free : ∀ r, (u.requestTab r).free = true

/-- The first request is free when all are. -/
theorem Quiet.findFreeReq {u : Uart} (h : Quiet u) : u.findFreeReq = some 0 := by
  unfold Uart.findFreeReq
  rw [show List.finRange nrUart8250Requests = [0, 1, 2, 3, 4] from rfl, List.find?_cons, h.free]

/-- The queue holds the output which has not been sent, and no request is current. -/
structure Ready (s : Serial) : Prop where
  head : s.tty.tWriteq.tqHead = 0
  tail : s.tty.tWriteq.tqTail ≤ ttyBufSize
  current : s.tty.driver.currentReq = none
  output : s.tty.driver.sent ++ tailFrom s.tty.tWriteq 0 = s.expected

/-- The request at `r` is for the queue from place `k` on, and no other one is in use. -/
structure Asks (s : Serial) (r : ReqSlot) (k : ℕ) : Prop where
  buf : (s.tty.driver.requestTab r).buf = k
  irq : (s.tty.driver.requestTab r).irq = s.tty.tWriteq.tqTail - k
  rw : (s.tty.driver.requestTab r).rw = .write
  next : (s.tty.driver.requestTab r).next = none
  others : ∀ r', r' ≠ r → (s.tty.driver.requestTab r').free = true
  more : k < s.tty.tWriteq.tqTail

namespace Serial

/-- What holds at each point of `tty_write`. -/
inductive Inv (s : Serial) : Prop where
  | idle (h : s.writer = .idle) (hquiet : Quiet s.tty.driver) (hready : Ready s)
      (hempty : s.tty.tWriteq.tqTail = 0)
  | filling (buf : Bytes) (i : ℤ) (p : ℕ) (h : s.writer = .filling buf i p)
      (hquiet : Quiet s.tty.driver) (hready : Ready s)
  | filled (h : s.writer = .filled) (hquiet : Quiet s.tty.driver) (hready : Ready s)
      (hsome : 0 < s.tty.tWriteq.tqTail)
  | found (r : ReqSlot) (nr : ℤ) (h : s.writer = .found r nr) (hquiet : Quiet s.tty.driver)
      (hready : Ready s) (hsome : 0 < s.tty.tWriteq.tqTail) (hnr : nr = s.tty.tWriteq.tqTail)
  | built (r : ReqSlot) (h : s.writer = .built r ∨ s.writer = .starting r) (hready : Ready s)
      (hasks : Asks s r 0)
  | sending (r : ReqSlot) (k : ℕ) (h : s.writer = .flushed) (hhead : s.tty.tWriteq.tqHead = 0)
      (htail : s.tty.tWriteq.tqTail ≤ ttyBufSize) (hcurrent : s.tty.driver.currentReq = some r)
      (hasks : Asks s r k)
      (houtput : s.tty.driver.sent ++ tailFrom s.tty.tWriteq k = s.expected)
  | sent (h : s.writer = .flushed) (hquiet : Quiet s.tty.driver)
      (hhead : s.tty.tWriteq.tqHead = 0) (houtput : s.tty.driver.sent = s.expected)

theorem inv_start (t : Termios) (rest : Bytes) : (start t rest).Inv :=
  .idle rfl ⟨rfl, fun _ => rfl⟩ ⟨rfl, Nat.zero_le _, rfl, rfl⟩ rfl

variable {s s' : Serial} {e : Event}

theorem Inv.faithful (h : s.Inv) : s.Faithful := by
  have hready (hready : Ready s) : s.tty.driver.sent <+: s.expected := ⟨_, hready.output⟩
  cases h with
  | idle hw hquiet hr hempty =>
      refine ⟨hready hr, fun _ _ => ?_⟩
      have houtput := hr.output
      rwa [tailFrom, hempty, List.range_zero, List.map_nil, List.append_nil] at houtput
  | filling buf i p hw hquiet hr => exact ⟨hready hr, by rw [hw]; exact nofun⟩
  | filled hw hquiet hr hsome => exact ⟨hready hr, by rw [hw]; exact nofun⟩
  | found r nr hw hquiet hr hsome hnr => exact ⟨hready hr, by rw [hw]; exact nofun⟩
  | built r hw hr hasks =>
      refine ⟨hready hr, ?_⟩
      rcases hw with hw | hw
      · rw [hw]
        exact nofun
      · rw [hw]
        exact nofun
  | sending r k hw hhead htail hcurrent hasks houtput =>
      exact ⟨⟨_, houtput⟩, by rw [hw]; exact nofun⟩
  | sent hw hquiet hhead houtput => exact ⟨⟨[], by rw [houtput, List.append_nil]⟩, fun _ _ => houtput⟩

/-- The driver after a byte of the request at `r`, before it looks at the count. -/
def sendByte (tp : Tty Uart) (r : ReqSlot) : Uart :=
  let u := tp.driver
  let q := u.requestTab r
  { u.setReq r { q with buf := q.buf + 1, irq := q.irq - 1 } with
    sent := u.sent ++ [load tp q.buf] }

theorem handleComIrq_none {tp : Tty Uart} {iir : BitVec 16} (data : BitVec 8)
    (h : tp.driver.currentReq = none ∨ iir &&& iirInterruptPending ≠ 0) :
    handleComIrq tp iir data = tp := by
  unfold handleComIrq
  split
  next => rfl
  next r hcurrent =>
    have hpending := h.resolve_left (by rw [hcurrent]; exact nofun)
    exact if_pos hpending

theorem handleComIrq_send {tp : Tty Uart} {iir : BitVec 16} (data : BitVec 8) {r : ReqSlot}
    (hcurrent : tp.driver.currentReq = some r) (hpending : iir &&& iirInterruptPending = 0)
    (hcause : iir >>> 1 &&& 7 = iirTransmitterEmptyInt) :
    handleComIrq tp iir data = setDriver tp
      (if (tp.driver.requestTab r).irq - 1 = 0 then (sendByte tp r).finish r
      else sendByte tp r) := by
  have hserve : serve tp r iirTransmitterEmptyInt data = setDriver tp
      { tp.driver.setReq r
          { tp.driver.requestTab r with buf := (tp.driver.requestTab r).buf + 1 } with
        sent := tp.driver.sent ++ [load tp (tp.driver.requestTab r).buf] } := by
    unfold serve
    rw [if_neg (by decide), if_neg (by decide), if_neg (by decide), if_pos rfl]
  unfold handleComIrq
  simp only [hcurrent]
  rw [if_neg (not_not.mpr hpending), hcause, hserve]
  simp only [setDriver, Uart.setReq, Function.update_self, Function.update_idem, sendByte]

/-- A byte of the request is sent, and with the last one the request is finished. -/
theorem Inv.sendByte {r : ReqSlot} {k : ℕ} (hw : s.writer = .flushed)
    (hhead : s.tty.tWriteq.tqHead = 0) (htail : s.tty.tWriteq.tqTail ≤ ttyBufSize)
    (hcurrent : s.tty.driver.currentReq = some r) (hasks : Asks s r k)
    (houtput : s.tty.driver.sent ++ tailFrom s.tty.tWriteq k = s.expected) :
    (s.setUart (if (s.tty.driver.requestTab r).irq - 1 = 0 then (sendByte s.tty r).finish r
      else sendByte s.tty r)).Inv := by
  have hmore := hasks.more
  have hload : load s.tty (s.tty.driver.requestTab r).buf = s.tty.tWriteq.tqBuf k := by
    rw [hasks.buf]
    exact if_pos (by omega)
  have hsent : (Serial.sendByte s.tty r).sent ++ tailFrom s.tty.tWriteq (k + 1) = s.expected := by
    rw [← houtput, tailFrom_cons hmore]
    simp [Serial.sendByte, hload]
  have hself : (Serial.sendByte s.tty r).requestTab r =
      { s.tty.driver.requestTab r with
        buf := (s.tty.driver.requestTab r).buf + 1, irq := (s.tty.driver.requestTab r).irq - 1 } :=
    Function.update_self ..
  have hothers (r' : ReqSlot) (hne : r' ≠ r) :
      (Serial.sendByte s.tty r).requestTab r' = s.tty.driver.requestTab r' :=
    Function.update_of_ne hne _ _
  split
  next hlast =>
    have hend : s.tty.tWriteq.tqTail = k + 1 := by
      rw [hasks.irq] at hlast
      omega
    rw [← hend, tailFrom_end, List.append_nil] at hsent
    have hnext : ((Serial.sendByte s.tty r).requestTab r).next = none := by
      rw [hself]
      exact hasks.next
    refine .sent hw ⟨?_, ?_⟩ hhead ?_
    · simp only [setUart, setTty, setDriver, Uart.finish, hnext]
    · intro r'
      simp only [setUart, setTty, setDriver, Uart.finish, hnext, Uart.setReq]
      by_cases heq : r' = r
      · rw [heq, Function.update_self]
      · rw [Function.update_of_ne heq, hothers r' heq]
        exact hasks.others r' heq
    · simp only [setUart, setTty, setDriver, Uart.finish, hnext, Uart.setReq]
      exact hsent
  next hlast =>
    refine .sending r (k + 1) hw hhead htail hcurrent ?_ hsent
    have hreq : ((s.setUart (Serial.sendByte s.tty r)).tty.driver.requestTab r) =
        { s.tty.driver.requestTab r with
          buf := (s.tty.driver.requestTab r).buf + 1,
          irq := (s.tty.driver.requestTab r).irq - 1 } := hself
    constructor
    · rw [hreq]
      exact congrArg (· + 1) hasks.buf
    · rw [hreq]
      have hirq := hasks.irq
      simp only [setUart, setTty, setDriver]
      push_cast
      omega
    · rw [hreq]
      exact hasks.rw
    · rw [hreq]
      exact hasks.next
    · intro r' hne
      have hother := hothers r' hne
      rw [← hasks.others r' hne]
      exact congrArg Request.free hother
    · rw [hasks.irq] at hlast
      have hnot : k + 1 ≠ s.tty.tWriteq.tqTail := by omega
      show k + 1 < s.tty.tWriteq.tqTail
      omega

theorem Inv.irq (h : s.Inv) {iir : BitVec 16} (data : BitVec 8)
    (hsafe : s.SafeStep (.irq iir data)) : (s.setTty (handleComIrq s.tty iir data)).Inv := by
  by_cases hidle : s.tty.driver.currentReq = none ∨ iir &&& iirInterruptPending ≠ 0
  · rw [handleComIrq_none data hidle]
    exact h
  · rw [not_or] at hidle
    have hpending : iir &&& iirInterruptPending = 0 := not_not.mp hidle.2
    have hcause : iir >>> 1 &&& 7 = iirTransmitterEmptyInt :=
      (hsafe.resolve_left hidle.1).resolve_left hidle.2
    cases h with
    | idle hw hquiet hr hempty => exact absurd hquiet.current hidle.1
    | filling buf i p hw hquiet hr => exact absurd hquiet.current hidle.1
    | filled hw hquiet hr hsome => exact absurd hquiet.current hidle.1
    | found r nr hw hquiet hr hsome hnr => exact absurd hquiet.current hidle.1
    | built r hw hr hasks => exact absurd hr.current hidle.1
    | sending r k hw hhead htail hcurrent hasks houtput =>
        rw [handleComIrq_send data hcurrent hpending hcause]
        exact Inv.sendByte hw hhead htail hcurrent hasks houtput
    | sent hw hquiet hhead houtput => exact absurd hquiet.current hidle.1

theorem Inv.filling_go {buf : Bytes} {i : ℤ} {p : ℕ} (hw : s.writer = .filling buf i p)
    (hquiet : Quiet s.tty.driver) (hr : Ready s) (hsafe : s.SafeStep .go) :
    Yields Inv s.go := by
  simp only [SafeStep, SafeGo, hw] at hsafe
  simp only [go, hw]
  refine Yields.ok ?_
  split at hsafe
  next hfills =>
    rw [if_pos hfills]
    obtain ⟨hbytes, htail, hhead⟩ := foldl_putch hsafe
    rw [← putOutput_eq] at hbytes htail hhead
    refine .filling buf (i - 1) (p + 1) rfl hquiet ⟨hhead.trans hr.head, ?_, hr.current, ?_⟩
    · exact htail.trans_le hsafe
    · show s.tty.driver.sent ++ tailFrom (Tty.putOutput _ _ _) 0 = s.expected ++ outputOf _ _
      rw [hbytes, ← List.append_assoc, hr.output]
  next hfills =>
    rw [if_neg hfills]
    exact .filled rfl hquiet ⟨hr.head, hr.tail, hr.current, hr.output⟩ hsafe

theorem Inv.found_go {r : ReqSlot} {nr : ℤ} (hw : s.writer = .found r nr)
    (hquiet : Quiet s.tty.driver) (hr : Ready s) (hsome : 0 < s.tty.tWriteq.tqTail)
    (hnr : nr = s.tty.tWriteq.tqTail) : Yields Inv s.go := by
  simp only [go, hw]
  refine Yields.ok (.built r (Or.inl rfl) ⟨hr.head, hr.tail, hr.current, hr.output⟩ ?_)
  have hself : (s.tty.driver.build r ttyNum s.tty.tWriteq.tqHead .write nr).requestTab r =
      ⟨s.tty.tWriteq.tqHead, nr, false, .write, ports.getD ttyNum 0, none⟩ :=
    Function.update_self ..
  constructor
  · exact (congrArg Request.buf hself).trans hr.head
  · refine (congrArg Request.irq hself).trans (hnr.trans ?_)
    exact (sub_zero _).symm
  · exact congrArg Request.rw hself
  · exact congrArg Request.next hself
  · intro r' hne
    have hother : (s.tty.driver.build r ttyNum s.tty.tWriteq.tqHead .write nr).requestTab r' =
        s.tty.driver.requestTab r' := Function.update_of_ne hne _ _
    exact (congrArg Request.free hother).trans (hquiet.free r')
  · exact hsome

theorem Inv.go (h : s.Inv) (hstopped : s.tty.tStopped = false) (hsafe : s.SafeStep .go) :
    Yields Inv s.go := by
  cases h with
  | idle hw hquiet hr hempty =>
      simp only [Serial.go, hw]
      exact Yields.ok (.idle hw hquiet hr hempty)
  | filling buf i p hw hquiet hr => exact Inv.filling_go hw hquiet hr hsafe
  | filled hw hquiet hr hsome =>
      have hnr : ¬ (s.tty.tStopped = true ∨
          (s.tty.tWriteq.tqTail : ℤ) - s.tty.tWriteq.tqHead < 0) := by
        rw [hstopped, hr.head]
        simp
      simp only [Serial.go, hw]
      rw [if_neg hnr, hquiet.findFreeReq]
      refine Yields.ok (.found 0 _ rfl hquiet ⟨hr.head, hr.tail, hr.current, hr.output⟩ hsome ?_)
      rw [hr.head]
      exact sub_zero _
  | found r nr hw hquiet hr hsome hnr => exact Inv.found_go hw hquiet hr hsome hnr
  | built r hw hr hasks =>
      rcases hw with hw | hw
      · simp only [Serial.go, hw]
        rw [if_pos hr.current]
        exact Yields.ok (.built r (Or.inr rfl) ⟨hr.head, hr.tail, hr.current, hr.output⟩
          ⟨hasks.buf, hasks.irq, hasks.rw, hasks.next, hasks.others, hasks.more⟩)
      · simp only [Serial.go, hw]
        exact Yields.ok (.sending r 0 rfl hr.head hr.tail rfl
          ⟨hasks.buf, hasks.irq, hasks.rw, hasks.next, hasks.others, hasks.more⟩ hr.output)
  | sending r k hw hhead htail hcurrent hasks houtput =>
      simp only [SafeStep, SafeGo, hw] at hsafe
      rw [hcurrent] at hsafe
      cases hsafe
  | sent hw hquiet hhead houtput =>
      simp only [Serial.go, hw]
      refine Yields.ok (.idle rfl hquiet ⟨rfl, Nat.zero_le _, hquiet.current, ?_⟩ rfl)
      exact (List.append_nil _).trans houtput

theorem go_stopped : Yields (fun s' => s'.tty.tStopped = s.tty.tStopped) s.go := by
  unfold go
  dsimp only
  split
  next => exact Yields.ok rfl
  next =>
    refine Yields.ok ?_
    split <;> rfl
  next =>
    refine Yields.ok ?_
    split
    next => rfl
    next => split <;> rfl
  next => exact Yields.ok rfl
  next => exact Yields.ok rfl
  next => exact Yields.ok rfl
  next =>
    split
    next => exact Yields.error _
    next => exact Yields.of_forall fun p => Yields.ok rfl
  next => exact Yields.ok rfl
  next => exact Yields.ok rfl

theorem irq_stopped (tp : Tty Uart) (iir : BitVec 16) (data : BitVec 8) :
    (handleComIrq tp iir data).tStopped = tp.tStopped := by
  have hstore (tp : Tty Uart) (p : ℕ) : (store tp p data).tStopped = tp.tStopped := by
    unfold store
    split <;> rfl
  have hserve (r : ReqSlot) (cause : BitVec 16) :
      (serve tp r cause data).tStopped = tp.tStopped := by
    unfold serve
    dsimp only
    split
    next => rfl
    next =>
      split
      next => exact hstore _ _
      next => split_ifs <;> rfl
  unfold handleComIrq
  split
  next => rfl
  next =>
    split
    next => rfl
    next => exact hserve _ _

theorem Inv.step (h : s.Inv) (hstopped : s.tty.tStopped = false) (hsafe : s.SafeStep e)
    (hstep : s.step e = .ok s') : s'.Inv ∧ s'.tty.tStopped = false := by
  cases e with
  | write buf count =>
      simp only [Serial.step] at hstep
      split at hstep
      next hw =>
        obtain rfl := Except.ok.inj hstep
        refine ⟨?_, hstopped⟩
        cases h with
        | idle hw' hquiet hr hempty =>
            exact .filling buf count 0 rfl hquiet ⟨hr.head, hr.tail, hr.current, hr.output⟩
        | built r hw' => rcases hw' with hw' | hw' <;> cases hw.symm.trans hw'
        | _ => simp_all
      next => cases hstep
  | go => exact ⟨h.go hstopped hsafe s' hstep, (go_stopped s' hstep).trans hstopped⟩
  | irq iir data =>
      obtain rfl := Except.ok.inj hstep
      exact ⟨h.irq data hsafe, (irq_stopped s.tty iir data).trans hstopped⟩

theorem Inv.faithfulRun {es : List Event} (h : s.Inv) (hstopped : s.tty.tStopped = false)
    (hsafe : s.SafeRun es) : s.FaithfulRun es := by
  induction es generalizing s with
  | nil => exact h.faithful
  | cons e es ih =>
      refine ⟨h.faithful, ?_⟩
      cases hstep : s.step e with
      | error halt => trivial
      | ok s' =>
          have hrest := hsafe.2
          rw [hstep] at hrest
          obtain ⟨h', hstopped'⟩ := h.step hstopped hsafe.1 hstep
          exact ih h' hstopped' hrest

/-! ## A call which is not interrupted -/

theorem run_append {s s' : Serial} {es : List Event} (h : s.run es = .ok s') (es' : List Event) :
    s.run (es ++ es') = s'.run es' := by
  induction es generalizing s with
  | nil => rw [← Except.ok.inj h, List.nil_append]
  | cons e es ih =>
      obtain ⟨s₁, hstep, hrest⟩ := bind_eq_ok.mp h
      rw [List.cons_append, run, hstep, ok_bind]
      exact ih hrest

theorem putOutput_tail_le (t : Termios) {tq : TtyQueue} (c : BitVec 8)
    (h : tq.tqTail < ttyBufSize) : tq.tqTail < (Tty.putOutput t tq c).tqTail ∧
      (Tty.putOutput t tq c).tqTail ≤ ttyBufSize := by
  have hput (tq : TtyQueue) (c : BitVec 8) (h : tq.tqTail ≤ ttyBufSize) :
      tq.tqTail ≤ (tq.putch c).tqTail ∧ (tq.putch c).tqTail ≤ ttyBufSize := by
    by_cases hfull : tq.Full
    · rw [TtyQueue.putch, if_pos hfull]
      exact ⟨le_rfl, h⟩
    · rw [TtyQueue.putch, if_neg hfull]
      exact ⟨Nat.le_succ _, lt_of_le_of_ne h hfull⟩
  obtain ⟨hcr, -⟩ := putch_tail cr h
  obtain ⟨hnl, -⟩ := putch_tail nl h
  obtain ⟨hc, -⟩ := putch_tail c h
  unfold Tty.putOutput
  split
  next =>
    obtain ⟨hge, hle⟩ := hput (tq.putch cr) c (by omega)
    exact ⟨by omega, hle⟩
  next =>
    split
    next => exact ⟨by omega, by omega⟩
    next => exact ⟨by omega, by omega⟩

/-- The output of the characters from `p` up to `q`. -/
def outputBetween (t : Termios) (buf : Bytes) (p q : ℕ) : List (BitVec 8) :=
  ((List.range (q - p)).map fun i => buf (p + i)).flatMap (outputOf t)

theorem outputBetween_self (t : Termios) (buf : Bytes) (p : ℕ) : outputBetween t buf p p = [] := by
  rw [outputBetween, Nat.sub_self]
  rfl

theorem outputBetween_cons (t : Termios) (buf : Bytes) {p q : ℕ} (h : p < q) :
    outputBetween t buf p q = outputOf t (buf p) ++ outputBetween t buf (p + 1) q := by
  obtain ⟨n, rfl⟩ := Nat.exists_eq_add_of_lt h
  unfold outputBetween
  rw [show p + n + 1 - p = n + 1 by omega, show p + n + 1 - (p + 1) = n by omega,
    List.range_succ_eq_map, List.map_cons, List.flatMap_cons, List.map_map, Nat.add_zero]
  refine congrArg _ (congrArg _ (List.map_congr_left fun i _ => ?_))
  show buf (p + (i + 1)) = buf (p + 1 + i)
  rw [Nat.add_assoc, Nat.add_comm 1 i]

theorem run_loopEnd {buf : Bytes} {i : ℤ} {p : ℕ} (hw : s.writer = .filling buf i p)
    (hfills : ¬ s.Fills buf i p) : s.run [.go] = .ok (s.goto .filled) := by
  simp only [run, step, go, hw, if_neg hfills, ok_bind]

theorem run_writeLoop {buf : Bytes} {room : ℕ} {i : ℤ} {p q : ℕ} {tq' : TtyQueue}
    (hw : s.writer = .filling buf i p) (htail : s.tty.tWriteq.tqTail ≤ ttyBufSize)
    (hroom : ttyBufSize ≤ s.tty.tWriteq.tqTail + room)
    (h : Tty.writeLoop s.tty.tTermios buf room i p s.tty.tWriteq = (q, tq')) :
    p ≤ q ∧ ∃ k, s.run (List.replicate k .go) =
      .ok ⟨{ s.tty with tWriteq := tq' }, .filled,
        s.expected ++ outputBetween s.tty.tTermios buf p q⟩ := by
  induction room generalizing s i p with
  | zero =>
      have hfull : s.tty.tWriteq.Full := le_antisymm htail hroom
      obtain ⟨rfl, rfl⟩ := Prod.mk.inj h
      refine ⟨le_rfl, 1, ?_⟩
      rw [outputBetween_self, List.append_nil]
      exact run_loopEnd hw fun hfills => hfills.2.2 hfull
  | succ room ih =>
      by_cases hfills : s.Fills buf i p
      · obtain ⟨hlt, hle⟩ := putOutput_tail_le s.tty.tTermios (buf p)
          (lt_of_le_of_ne htail hfills.2.2)
        rw [Tty.writeLoop,
          if_pos (show buf p ≠ 0#8 ∧ i ≠ 0 ∧ ¬ s.tty.tWriteq.Full from hfills)] at h
        have hroom' : ttyBufSize ≤
            (Tty.putOutput s.tty.tTermios s.tty.tWriteq (buf p)).tqTail + room := by omega
        obtain ⟨hpq, k, hrun⟩ :=
          @ih ((s.fill (buf p)).goto (.filling buf (i - 1) (p + 1))) _ _ rfl hle hroom' h
        refine ⟨by omega, k + 1, ?_⟩
        have hstep : s.step .go =
            .ok ((s.fill (buf p)).goto (.filling buf (i - 1) (p + 1))) := by
          simp only [step, go, hw, if_pos hfills]
        rw [List.replicate_succ, run, hstep, ok_bind, hrun,
          outputBetween_cons s.tty.tTermios buf (show p < q by omega), ← List.append_assoc]
        rfl
      · rw [Tty.writeLoop, if_neg (show ¬ (buf p ≠ 0#8 ∧ i ≠ 0 ∧ ¬ s.tty.tWriteq.Full) from hfills)]
          at h
        obtain ⟨rfl, rfl⟩ := Prod.mk.inj h
        refine ⟨le_rfl, 1, ?_⟩
        rw [outputBetween_self, List.append_nil]
        exact run_loopEnd hw hfills

/-- The statements from `tty_flush` on. -/
theorem run_flush {u : Uart} (hw : s.writer = .filled) (hstopped : s.tty.tStopped = false)
    (h : Uart.ttyOut s.tty.tWriteq s.tty.driver = .ok u) :
    ∃ k, s.run (List.replicate k .go) = .ok ((s.setUart u).goto .flushed) := by
  unfold Uart.ttyOut at h
  dsimp only at h
  split at h
  next hnr =>
    obtain rfl := Except.ok.inj h
    refine ⟨1, ?_⟩
    simp only [List.replicate_one, run, step, go, hw, if_pos (Or.inr hnr), ok_bind]
    rfl
  next hnr =>
    have hgoes : ¬ (s.tty.tStopped = true ∨
        (s.tty.tWriteq.tqTail : ℤ) - s.tty.tWriteq.tqHead < 0) := by
      rw [hstopped]
      simpa using hnr
    unfold Uart.rw at h
    split at h
    next hfree =>
      obtain rfl := Except.ok.inj h
      refine ⟨1, ?_⟩
      simp only [List.replicate_one, run, step, go, hw, if_neg hgoes, hfree, ok_bind]
      rfl
    next r hfree =>
      have hfound : s.step .go =
          .ok (s.goto (.found r ((s.tty.tWriteq.tqTail : ℤ) - s.tty.tWriteq.tqHead))) := by
        simp only [step, go, hw, if_neg hgoes, hfree]
      have hbuilt (nr : ℤ) : (s.goto (.found r nr)).step .go = .ok
          ((s.setUart (s.tty.driver.build r ttyNum s.tty.tWriteq.tqHead .write nr)).goto
            (.built r)) := rfl
      dsimp only at h
      split at h
      next hcurrent =>
        obtain rfl := Except.ok.inj h
        refine ⟨4, ?_⟩
        simp only [List.replicate, run, hfound, hbuilt, ok_bind]
        simp only [step, go, goto, setUart, setTty, setDriver, hcurrent, ok_bind]
        rfl
      next p hcurrent =>
        obtain ⟨p', hlast, hend⟩ := bind_eq_ok.mp h
        obtain rfl := Except.ok.inj hend
        refine ⟨5, ?_⟩
        simp only [List.replicate, run, hfound, hbuilt, ok_bind]
        simp only [step, go, goto, setUart, setTty, setDriver, hcurrent, hlast, ok_bind]
        rfl

/-- A call of `tty_write` in which no interrupt comes is a run, and the characters whose output
is expected are those which it says it has taken. -/
theorem run_ttyWrite {n : ℕ} {buf : Bytes} {count ret : ℤ} {tp : Tty Uart} (hw : s.writer = .idle)
    (hstopped : s.tty.tStopped = false) (htail : s.tty.tWriteq.tqTail ≤ ttyBufSize)
    (h : s.tty.ttyWrite Uart.ttyOut n buf count = .ok (ret, tp)) :
    ∃ (q k : ℕ), ret = q ∧ s.run (.write buf count :: List.replicate k .go) =
      .ok ⟨tp, .idle, s.expected ++ outputBetween s.tty.tTermios buf 0 q⟩ := by
  unfold Tty.ttyWrite at h
  split at h
  next => cases h
  next =>
    split at h
    next q tq hloop =>
      obtain ⟨tp₂, hreset, hend⟩ := bind_eq_ok.mp h
      obtain ⟨hret, rfl⟩ := Prod.mk.inj (Except.ok.inj hend)
      obtain ⟨tp₁, hflush, htp⟩ := bind_eq_ok.mp hreset
      rw [Tty.flush, if_neg (by rw [hstopped]; exact nofun)] at hflush
      obtain ⟨u, hout, htp₁⟩ := bind_eq_ok.mp hflush
      have hroom : ttyBufSize ≤ s.tty.tWriteq.tqTail + (ttyBufSize - s.tty.tWriteq.tqTail) := by
        omega
      obtain ⟨k, hfill⟩ : ∃ k, (s.goto (.filling buf count 0)).run (List.replicate k .go) =
          .ok ⟨{ s.tty with tWriteq := tq }, .filled,
            s.expected ++ outputBetween s.tty.tTermios buf 0 q⟩ :=
        (@run_writeLoop (s.goto (.filling buf count 0)) _ _ _ _ _ _ rfl htail hroom hloop).2
      obtain ⟨k', hflushed⟩ := @run_flush ⟨{ s.tty with tWriteq := tq }, .filled,
        s.expected ++ outputBetween s.tty.tTermios buf 0 q⟩ u rfl hstopped hout
      refine ⟨q, k + (k' + 1), hret.symm, ?_⟩
      have hstart : s.step (.write buf count) = .ok (s.goto (.filling buf count 0)) := by
        simp only [step, hw]
      rw [run, hstart, ok_bind, List.replicate_add, run_append hfill, List.replicate_add,
        run_append hflushed, ← Except.ok.inj htp, ← Except.ok.inj htp₁]
      rfl

/-- In every run whose steps are safe, the line gets the output of the characters which
`tty_write` has taken, in order and each byte once. -/
theorem faithful_of_safeRun (t : Termios) (rest : Bytes) (es : List Event)
    (hsafe : (start t rest).SafeRun es) : (start t rest).FaithfulRun es :=
  (inv_start t rest).faithfulRun rfl hsafe

/-! ## Two writes -/

instance (s : Serial) : (w : Writer) → Decidable (s.SafeGo w)
  | .filling buf i p => inferInstanceAs (Decidable (if s.Fills buf i p then
      s.tty.tWriteq.tqTail + (outputOf s.tty.tTermios (buf p)).length ≤ ttyBufSize
      else 0 < s.tty.tWriteq.tqTail))
  | .flushed => inferInstanceAs (Decidable (s.tty.driver.currentReq = none))
  | .idle => isTrue trivial
  | .filled => isTrue trivial
  | .found _ _ => isTrue trivial
  | .built _ => isTrue trivial
  | .starting _ => isTrue trivial
  | .adding _ => isTrue trivial
  | .linking _ _ => isTrue trivial

instance (s : Serial) : (e : Event) → Decidable (s.SafeStep e)
  | .write _ _ => isTrue trivial
  | .go => inferInstanceAs (Decidable (s.SafeGo s.writer))
  | .irq _ _ => inferInstanceAs (Decidable (_ ∨ _ ∨ _))

instance decidableSafeRun (s : Serial) : (es : List Event) → Decidable (s.SafeRun es)
  | [] => isTrue trivial
  | e :: es =>
      letI : Decidable (match s.step e with
          | .ok s' => SafeRun s' es
          | .error _ => True) :=
        match s.step e with
        | .ok s' => decidableSafeRun s' es
        | .error _ => isTrue trivial
      inferInstanceAs (Decidable (_ ∧ _))

/-- `hi` and a newline. -/
def line : Bytes := fun p => [0x68#8, 0x69#8, nl].getD p 0#8

/-- The interrupts come before the queue is reset. -/
def drained : List Event :=
  .write line 3 :: List.replicate 8 .go ++ List.replicate 4 (.irq 2 0) ++ [.go]

theorem faithful_of_safeRun_drained :
    (start Termios.init fun _ => 0#8).FaithfulRun drained :=
  faithful_of_safeRun _ _ _ (by decide +kernel)

theorem FaithfulRun.last {es : List Event} (h : s.FaithfulRun es) (hrun : s.run es = .ok s') :
    s'.Faithful := by
  induction es generalizing s with
  | nil => exact Except.ok.inj hrun ▸ h
  | cons e es ih =>
      obtain ⟨s₁, hstep, hrest⟩ := bind_eq_ok.mp hrun
      have hlater := h.2
      rw [hstep] at hlater
      exact ih hlater hrest

/-- The queue is reset before the first interrupt comes, and a zero is sent. -/
theorem not_faithful_reset :
    ¬ ∀ (t : Termios) (rest : Bytes) (es : List Event), (start t rest).FaithfulRun es := by
  intro hall
  have hrun : ((start Termios.init fun _ => 0#8).run
      (.write line 3 :: List.replicate 9 .go ++ [.irq 2 0])).map
        (fun s => decide (¬ s.tty.driver.sent <+: s.expected)) = .ok true := by decide +kernel
  obtain ⟨s, hs, hsent⟩ := exists_of_map_decide hrun
  exact hsent ((hall _ _ _).last hs).sent

end Serial

end Yak.SerialLine
