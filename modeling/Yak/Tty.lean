import Yak.Halt
import Yak.WordMemory

/-!
# Terminals

A transcription of `drivers/tty.c` for one terminal.  The pointers of a queue are offsets
into its buffer.  What `driver_out` makes of the write queue is a parameter.  A call of
`tty_read` which goes to sleep is resumed by the one who wakes it up, so that input can come
between any two of its turns.
-/

namespace Yak.Terminal

open ByteBitmap (Bytes)

def ttyBufSize : ℕ := 512
def maxCanon : ℕ := 255
def debugTty : ℕ := 4
def eintr : ℤ := 26

/-! ## Queues -/

/-- `struct tty_queue` -/
structure TtyQueue where
  tqBuf : Bytes
  tqHead : ℕ
  tqTail : ℕ

namespace TtyQueue

/-- `tty_queue_empty` -/
def Empty (tq : TtyQueue) : Prop := tq.tqHead = tq.tqTail

/-- `tty_queue_full` -/
def Full (tq : TtyQueue) : Prop := tq.tqTail = ttyBufSize

instance (tq : TtyQueue) : Decidable tq.Empty := inferInstanceAs (Decidable (_ = _))
instance (tq : TtyQueue) : Decidable tq.Full := inferInstanceAs (Decidable (_ = _))

/-- `tty_putch` -/
def putch (tq : TtyQueue) (c : BitVec 8) : TtyQueue :=
  if tq.Full then tq
  else { tq with tqBuf := Function.update tq.tqBuf tq.tqTail c, tqTail := tq.tqTail + 1 }

/-- `tty_getch` -/
def getch (tq : TtyQueue) : BitVec 8 × TtyQueue :=
  if tq.Empty then (0#8, tq) else (tq.tqBuf tq.tqHead, { tq with tqHead := tq.tqHead + 1 })

/-- `tty_queue_reset` -/
def reset : TtyQueue := ⟨fun _ => 0#8, 0, 0⟩

/-- The characters between head and tail. -/
def bytes (tq : TtyQueue) : List (BitVec 8) :=
  (List.range (tq.tqTail - tq.tqHead)).map fun i => tq.tqBuf (tq.tqHead + i)

end TtyQueue

/-! ## Settings -/

def icrnl : BitVec 32 := 0o2
def igncr : BitVec 32 := 0o10
def inlcr : BitVec 32 := 0o20

def opost : BitVec 32 := 0o1
def onlcr : BitVec 32 := 0o2
def ocrnl : BitVec 32 := 0o4
def onlret : BitVec 32 := 0o20

def echo : BitVec 32 := 0o1
def echoe : BitVec 32 := 0o2
def echok : BitVec 32 := 0o4
def echonl : BitVec 32 := 0o10
def icanon : BitVec 32 := 0o20

def veof : ℕ := 0
def verase : ℕ := 2
def vkill : ℕ := 4
def vmin : ℕ := 5
def vtime : ℕ := 10

/-- `struct termios` -/
structure Termios where
  cIflag : BitVec 32
  cOflag : BitVec 32
  cLflag : BitVec 32
  cCc : ℕ → BitVec 8

namespace Termios

def iflag (t : Termios) (flag : BitVec 32) : Bool := t.cIflag &&& flag ≠ 0
def oflag (t : Termios) (flag : BitVec 32) : Bool := t.cOflag &&& flag ≠ 0
def lflag (t : Termios) (flag : BitVec 32) : Bool := t.cLflag &&& flag ≠ 0

/-- A character is compared with a control character as an `int`. -/
def Is (t : Termios) (c : BitVec 8) (i : ℕ) : Prop := c.toInt = (t.cCc i).toNat

instance (t : Termios) (c : BitVec 8) (i : ℕ) : Decidable (t.Is c i) :=
  inferInstanceAs (Decidable (_ = _))

/-- The characters which `tty_struct_init` sets are not all of them: those which no function
looks at are left out. -/
def init : Termios where
  cIflag := 0
  cOflag := opost ||| onlcr
  cLflag := icanon ||| echo ||| echok ||| echoe
  cCc i := if i = veof then 4 else if i = verase then 0x7F else if i = vkill then 0x15
    else if i = vmin then 1 else 0

end Termios

/-- `struct tty`, with the state of its driver and the messages of `printk`. -/
structure Tty (δ : Type) where
  tTermios : Termios
  tWriteq : TtyQueue
  tReadq : TtyQueue
  tStopped : Bool
  tOpen : Bool
  driver : δ
  messages : List String

def cr : BitVec 8 := 0x0D#8
def nl : BitVec 8 := 0x0A#8
def bs : BitVec 8 := 0x08#8
def blank : BitVec 8 := 0x20#8

/-- The bytes for one character. -/
def outputOf (t : Termios) (c : BitVec 8) : List (BitVec 8) :=
  if t.oflag opost ∧ c = nl ∧ t.oflag onlcr then [cr, nl]
  else if t.oflag opost ∧ c = cr ∧ t.oflag ocrnl then [nl]
  else [c]

namespace Tty

variable {δ : Type} (driverOut : TtyQueue → δ → Except Halt δ)

/-! ## Output -/

/-- `tty_flush` -/
def flush (tp : Tty δ) : Except Halt (Tty δ) :=
  if tp.tStopped then .ok tp
  else do
    let driver ← driverOut tp.tWriteq tp.driver
    .ok { tp with driver := driver }

/-- `tty_flush`, and then `tty_queue_reset` for the write queue. -/
def flushReset (tp : Tty δ) : Except Halt (Tty δ) := do
  let tp ← tp.flush driverOut
  .ok { tp with tWriteq := .reset }

/-- `tty_putch` for the write queue. -/
def outch (tp : Tty δ) (c : BitVec 8) : Tty δ := { tp with tWriteq := tp.tWriteq.putch c }

/-- What a turn of `tty_write` puts into the queue. -/
def putOutput (t : Termios) (tq : TtyQueue) (c : BitVec 8) : TtyQueue :=
  if t.oflag opost ∧ c = nl ∧ t.oflag onlcr then (tq.putch cr).putch c
  else if t.oflag opost ∧ c = cr ∧ t.oflag ocrnl then tq.putch nl
  else tq.putch c

/-- The loop of `tty_write` at place `p` of the buffer.  Every turn takes some of the room
in the queue. -/
def writeLoop (t : Termios) (buf : Bytes) : (room : ℕ) → (i : ℤ) → (p : ℕ) → TtyQueue →
    ℕ × TtyQueue
  | 0, _, p, tq => (p, tq)
  | room + 1, i, p, tq =>
      if buf p ≠ 0#8 ∧ i ≠ 0 ∧ ¬ tq.Full then
        writeLoop t buf room (i - 1) (p + 1) (putOutput t tq (buf p))
      else (p, tq)

/-- `tty_write` for terminal `n`. -/
def ttyWrite (tp : Tty δ) (n : ℕ) (buf : Bytes) (count : ℤ) : Except Halt (ℤ × Tty δ) :=
  if ¬ tp.tOpen ∧ n ≠ debugTty then .error (.panic "tty_write: TTY is not open!")
  else
    match writeLoop tp.tTermios buf (ttyBufSize - tp.tWriteq.tqTail) count 0 tp.tWriteq with
    | (p, tq) => do
        let tp ← { tp with tWriteq := tq }.flushReset driverOut
        .ok (p, tp)

/-- The end of `tty_process_output`, with the character it has come to. -/
def echoChar (tp : Tty δ) (printable : Bool) (c : BitVec 8) : Except Halt (Tty δ) :=
  let t := tp.tTermios
  if t.lflag icanon ∧ t.lflag echoe ∧ t.Is c verase then do
    let tp ← tp.flushReset driverOut
    .ok (((tp.outch bs).outch blank).outch bs)
  else if t.lflag icanon ∧ t.lflag echok ∧ t.Is c vkill then do
    let tp ← tp.flushReset driverOut
    let tp := tp.outch nl
    .ok (if t.oflag opost ∧ t.oflag onlcr then tp.outch cr else tp)
  else .ok (if printable then tp.outch c else tp)

/-- A full write queue is flushed before the next character. -/
def makeRoom (tp : Tty δ) : Except Halt (Tty δ) :=
  if tp.tWriteq.Full then tp.flushReset driverOut else .ok tp

/-- `tty_process_output` -/
def processOutput (tp : Tty δ) (c : BitVec 8) : Except Halt (Tty δ) := do
  let t := tp.tTermios
  let tp ← tp.makeRoom driverOut
  if t.oflag opost ∧ c = nl ∧ t.oflag onlcr then (tp.outch cr).echoChar driverOut true c
  else if t.oflag opost ∧ c = cr ∧ t.oflag onlret then .ok tp
  else if t.oflag opost ∧ c = cr ∧ t.oflag ocrnl then tp.echoChar driverOut true nl
  else tp.echoChar driverOut (32 ≤ c.toInt) c

/-! ## Input -/

def queueFull : String := "WARNING: tty read input queue full\r\n"

/-- A carriage return which `IGNCR` takes away. -/
def Ignored (t : Termios) (c : BitVec 8) : Prop := c = cr ∧ ¬ t.iflag icrnl ∧ t.iflag igncr

instance (t : Termios) (c : BitVec 8) : Decidable (Ignored t c) :=
  inferInstanceAs (Decidable (_ ∧ _))

/-- The character which is stored for an input character. -/
def mapInput (t : Termios) (c : BitVec 8) : BitVec 8 :=
  let c := if c = cr ∧ t.iflag icrnl then nl else c
  if c = nl ∧ t.iflag inlcr then cr else c

/-- `tty_process_input`, without the wakeup at its end. -/
def processInput (tp : Tty δ) (c : BitVec 8) : Tty δ :=
  if tp.tReadq.Full then { tp with messages := tp.messages ++ [queueFull] }
  else if Ignored tp.tTermios c then tp
  else { tp with tReadq := tp.tReadq.putch (mapInput tp.tTermios c) }

/-- A character of the loops of `do_update_tty` which echo: without `ECHO` they look for
newlines. -/
def echoTurn (tp : Tty δ) (c : BitVec 8) : Except Halt (Tty δ) :=
  if tp.tTermios.lflag echo ∨ (c = nl ∧ tp.tTermios.lflag echonl) then tp.processOutput driverOut c
  else .ok tp

/-- What `do_update_tty` does with a string before it takes it in. -/
def echoInput (tp : Tty δ) (buf : List (BitVec 8)) : Except Halt (Tty δ) := do
  let tp ← buf.foldlM (fun tp c => tp.echoTurn driverOut c) tp
  tp.flushReset driverOut

/-- `do_update_tty` for the terminal of the current process, when nobody is woken up. -/
def doUpdateTty (tp : Tty δ) (buf : List (BitVec 8)) : Except Halt (Tty δ) :=
  if ¬ tp.tOpen then .ok tp
  else do
    let tp ← tp.echoInput driverOut buf
    .ok (buf.foldl processInput tp)

end Tty

/-! ## Reading -/

/-- Where a call of `tty_read` is: back in its caller with what it has stored, or asleep.
The flag `block` is the local variable of `tty_sleep`. -/
inductive Read where
  | returned (ret : ℤ) (buf : List (BitVec 8))
  | canon (scratch : List (BitVec 8)) (count : ℤ)
  | case1First (req : ℤ) (block : Bool)
  | case1 (got : List (BitVec 8)) (req : ℤ) (block : Bool)
  /-- `tty_read_case1` has more than it wants and goes round its loop. -/
  | case1Spin (got : List (BitVec 8)) (req : ℤ)
  | case2 (got : List (BitVec 8)) (req : ℤ) (block : Bool)
  | case3 (block : Bool)

/-- The reading process: its call, the queue it reads from, and whether its `tty_block` is
set. -/
structure Reader where
  read : Read
  tReadq : TtyQueue
  ttyBlock : Bool

/-- The loop which takes characters until there are `req` of them or the queue is empty. -/
def drain (req : ℤ) : (count : ℕ) → List (BitVec 8) → TtyQueue → Bool × List (BitVec 8) × TtyQueue
  | 0, got, tq => (false, got, tq)
  | count + 1, got, tq =>
      match tq.getch with
      | (c, tq) =>
          if (got.length : ℤ) + 1 = req then (true, got ++ [c], tq)
          else drain req count (got ++ [c]) tq

/-- The loop of `tty_read_case1`.  The timer is set for every character but the last one. -/
def case1Loop (got : List (BitVec 8)) (req : ℤ) (tq : TtyQueue) (block : Bool) : Reader :=
  match drain req (tq.tqTail - tq.tqHead) got tq with
  | (true, got', tq') => ⟨.returned req got', tq', block || got.length + 1 < got'.length⟩
  | (false, got', tq') =>
      let block := block || got.length < got'.length
      ⟨if (got'.length : ℤ) < req then .case1 got' req block else .case1Spin got' req, tq', block⟩

/-- The loop of `tty_read_case2`. -/
def case2Loop (got : List (BitVec 8)) (req : ℤ) (tq : TtyQueue) (block : Bool) : Reader :=
  match drain req (tq.tqTail - tq.tqHead) got tq with
  | (true, got', tq') => ⟨.returned req got', tq', block⟩
  | (false, got', tq') => ⟨.case2 got' req block, tq', block⟩

/-- The last character in the queue, which `tty_canon_read` looks at. -/
def lastChar (tq : TtyQueue) : Except Halt (BitVec 8) :=
  if tq.tqTail = 0 then .error .outOfBounds else .ok (tq.tqBuf (tq.tqTail - 1))

/-- One turn of the loop of `tty_canon_read`, after the sleep. -/
def canonTurn (t : Termios) (scratch : List (BitVec 8)) (count : ℤ) (c : BitVec 8) :
    Except Halt Read :=
  let scratch :=
    if t.Is c verase ∧ scratch ≠ [] then scratch.dropLast
    else if t.Is c vkill then []
    else if ¬ t.Is c veof then scratch ++ [c]
    else scratch
  if c ≠ nl ∧ ¬ t.Is c veof ∧ scratch.length < maxCanon then .ok (.canon scratch count)
  else
    let nr := min count scratch.length
    -- a negative count is counted down from there
    if nr < 0 then .error .endless else .ok (.returned nr (scratch.take nr.toNat))

/-- `tty_read` up to its first sleep. -/
def ttyRead (t : Termios) (tq : TtyQueue) (count : ℤ) (block : Bool) : Except Halt Reader :=
  let min' : ℤ := (t.cCc vmin).toNat
  let time : ℤ := (t.cCc vtime).toNat
  let req := min count min'
  if t.lflag icanon then
    if ¬ tq.Empty then do
      let c ← lastChar tq
      .ok ⟨if t.Is c veof then .returned 0 [] else .canon [] count, tq, block⟩
    else .ok ⟨.canon [] count, tq, block⟩
  else if 0 < min' ∧ 0 < time then
    .ok (if tq.Empty then ⟨.case1First req block, tq, block⟩ else case1Loop [] req tq block)
  else if 0 < min' then .ok (case2Loop [] req tq block)
  else if 0 < time then
    .ok (if tq.Empty then ⟨.case3 true, tq, true⟩
      else ⟨.returned 1 [tq.getch.1], tq.getch.2, false⟩)
  else .ok ⟨.returned tq.bytes.length tq.bytes, { tq with tqHead := tq.tqTail }, block⟩

/-- `tty_sleep` returns for a read which is not canonical. -/
def SleepEnds (tq : TtyQueue) (block ttyBlock : Bool) : Prop :=
  (block ∧ ¬ ttyBlock) ∨ ¬ tq.Empty

instance (tq : TtyQueue) (block ttyBlock : Bool) : Decidable (SleepEnds tq block ttyBlock) :=
  inferInstanceAs (Decidable (_ ∨ _))

/-- A sleeping call of `tty_read` goes on, up to the next sleep. -/
def Reader.resume (t : Termios) (r : Reader) (sigpending : Bool) : Except Halt Reader :=
  match r.read with
  | .returned _ _ => .ok r
  | .canon scratch count =>
      if sigpending then .ok { r with read := .returned (-eintr) [] }
      else do
        let c ← lastChar r.tReadq
        let read ← canonTurn t scratch count c
        .ok { r with read := read }
  | .case1First req block =>
      .ok (if SleepEnds r.tReadq block r.ttyBlock then case1Loop [] req r.tReadq r.ttyBlock else r)
  | .case1 got req block =>
      .ok (if ¬ SleepEnds r.tReadq block r.ttyBlock then r
        else if sigpending then { r with read := .returned (-eintr) got }
        else if ¬ r.ttyBlock then { r with read := .returned got.length got }
        else case1Loop got req r.tReadq r.ttyBlock)
  | .case1Spin got req => .ok (case1Loop got req r.tReadq r.ttyBlock)
  | .case2 got req block =>
      .ok (if ¬ SleepEnds r.tReadq block r.ttyBlock then r
        else if sigpending then { r with read := .returned (-eintr) got }
        else case2Loop got req r.tReadq r.ttyBlock)
  | .case3 block =>
      .ok (if ¬ SleepEnds r.tReadq block r.ttyBlock then r
        else { r with read := .returned (if sigpending then -eintr else 0) [] })

end Yak.Terminal
