import Yak.Halt
import Yak.LinkedRing
import Mathlib.Tactic

/-!
# Processes, run queues and signals

A model of `kernel/schedule.c`, `kernel/proc.c`, `kernel/signal.c`, the timer
interrupt of `drivers/timer.c` and the terminal timers of `drivers/tty.c`.
The process table is an array of `NR_PROC` slots, a pointer to a process is a
slot, and the null pointer is `none`.  Files, address spaces and the saved
processor state are outside the model: they never decide which process runs.
-/

namespace Yak.Process

open LinkedRing

/-- Number of slots of the process table. -/
def nrProc : ℕ := 64

/-- Number of run queues. -/
def procQuanta : ℕ := 10

def userPriority : ℕ := 1

def hz : ℕ := 100

def nsig : ℕ := 32

def sigkill : ℕ := 9
def sigchld : ℕ := 10
def sigalrm : ℕ := 14
def sigstop : ℕ := 18

abbrev Slot := Fin nrProc

theorem zero_lt_nrProc : 0 < nrProc := by decide
theorem one_lt_nrProc : 1 < nrProc := by decide
theorem two_lt_nrProc : 2 < nrProc := by decide
theorem three_lt_nrProc : 3 < nrProc := by decide

/-- The values of `state`, in the order of the header. -/
inductive ProcState where
  | exited
  | zombie
  | running
  | runnable
  | sleepInterruptible
  | sleepUninterruptible
  | stopped
  deriving DecidableEq, Repr

/-- A zombie or an exited slot. -/
def ProcState.dead : ProcState → Bool
  | .exited => true
  | .zombie => true
  | _ => false

/-- The states in which `adjust_proc_queues` puts a process on a queue. -/
def ProcState.queued : ProcState → Bool
  | .running => true
  | .runnable => true
  | _ => false

def ProcState.sleeping : ProcState → Bool
  | .sleepInterruptible => true
  | .sleepUninterruptible => true
  | _ => false

inductive SigDefAction where
  | terminate
  | abnormal
  | ignore
  | stop
  | continue
  deriving DecidableEq, Repr

/-- A signal handler: `SIG_DFL`, `SIG_IGN` or a function of the user. -/
inductive SigHandler where
  | dfl
  | ign
  | user (address : ℕ)
  deriving DecidableEq, Repr

/-- The fields of `struct process` which the functions below read. -/
structure Proc where
  pid : ℤ
  ppid : ℤ
  uid : ℤ
  euid : ℤ
  suid : ℤ
  state : ProcState
  ttyBlock : ℕ
  priority : ℕ
  quanta : ℤ
  counter : ℤ
  exitCode : ℕ
  sleepingOn : Option ℕ
  pgid : ℤ
  sighandlers : ℕ → SigHandler
  sigpending : BitVec 32
  alarm : ℕ
  nice : ℤ
  queueNext : Option Slot
  queuePrev : Option Slot

/-- A slot of the zero-filled table. -/
def Proc.zero : Proc where
  pid := 0
  ppid := 0
  uid := 0
  euid := 0
  suid := 0
  state := .exited
  ttyBlock := 0
  priority := 0
  quanta := 0
  counter := 0
  exitCode := 0
  sleepingOn := none
  pgid := 0
  sighandlers := fun _ => .dfl
  sigpending := 0
  alarm := 0
  nice := 0
  queueNext := none
  queuePrev := none

/-- The global variables of the scheduler. -/
structure Kernel where
  processTable : Slot → Proc
  currentProcess : Slot
  processQueues : ℕ → Option Slot
  lastPid : ℕ
  timerTicks : ℕ

namespace Kernel

/-- The process `current_process` points at. -/
def current (k : Kernel) : Proc := k.processTable k.currentProcess

def modify (k : Kernel) (p : Slot) (f : Proc → Proc) : Kernel :=
  { k with processTable := Function.update k.processTable p (f (k.processTable p)) }

def setQueue (k : Kernel) (q : ℕ) (v : Option Slot) : Kernel :=
  { k with processQueues := Function.update k.processQueues q v }

/-- The links of the run queues. -/
def links (k : Kernel) : Links Slot where
  next p := (k.processTable p).queueNext
  prev p := (k.processTable p).queuePrev

/-! ## Run queues -/

def inAQueue (k : Kernel) (p : Slot) : Bool :=
  (k.processTable p).queueNext.isSome && (k.processTable p).queuePrev.isSome

def removeFromQueue (k : Kernel) (p : Slot) : Except Halt Kernel :=
  match (k.processTable p).queuePrev, (k.processTable p).queueNext with
  | none, none => .ok k
  | some prev, some next =>
      let k' :=
        if next = p ∧ prev = p then
          k.setQueue (k.processTable p).priority none
        else
          ((k.modify next fun x => { x with queuePrev := some prev }).modify prev
            fun x => { x with queueNext := some next }).setQueue
              (k.processTable p).priority (some next)
      .ok (k'.modify p fun x => { x with queueNext := none, queuePrev := none })
  | _, _ => .error (.panic "Process queues corrupted")

def addToQueue (k : Kernel) (p : Slot) : Except Halt Kernel :=
  match k.processQueues (k.processTable p).priority with
  | none =>
      .ok ((k.setQueue (k.processTable p).priority (some p)).modify p
        fun x => { x with queuePrev := some p, queueNext := some p })
  | some h =>
      match k.links.walkLast h (nrProc + 1) h with
      | none => .error .badWalk
      | some t =>
          .ok ((((k.modify t fun x => { x with queueNext := some p }).modify p
            fun x => { x with queuePrev := some t }).modify p
              fun x => { x with queueNext := some h }).modify h
                fun x => { x with queuePrev := some p })

def adjustProcQueues (k : Kernel) (p : Slot) : Except Halt Kernel :=
  (if k.inAQueue p then k.removeFromQueue p else .ok k) >>= fun k =>
    if (k.processTable p).state.queued then k.addToQueue p else .ok k

/-! ## The scheduler -/

def setState (k : Kernel) (p : Slot) (s : ProcState) : Kernel :=
  k.modify p fun x => { x with state := s }

/-- `p`'s terminal timer has run out. -/
def ttyExpired (k : Kernel) (p : Slot) : Bool :=
  (k.processTable p).ttyBlock ≠ 0 ∧ (k.processTable p).ttyBlock < k.timerTicks

def alarmExpired (k : Kernel) (p : Slot) : Bool :=
  (k.processTable p).alarm ≠ 0 ∧ (k.processTable p).alarm < k.timerTicks

def raiseAlarm (k : Kernel) (p : Slot) : Kernel :=
  if k.alarmExpired p then
    k.modify p fun x =>
      { x with sigpending := x.sigpending ||| (1#32 <<< (sigalrm - 1)), alarm := 0 }
  else k

def expireTty (k : Kernel) (p : Slot) : Except Halt Kernel :=
  if k.ttyExpired p then do
    let k ← (k.setState p .runnable).adjustProcQueues p
    .ok (k.modify p fun x => { x with ttyBlock := 0 })
  else .ok k

def wakeOnSignal (k : Kernel) (p : Slot) : Except Halt Kernel :=
  if (k.processTable p).state = .sleepInterruptible ∧ (k.processTable p).sigpending ≠ 0 then
    (k.setState p .runnable).adjustProcQueues p
  else .ok k

/-- The body of the first loop of `schedule`. -/
def scheduleSlot (k : Kernel) (p : Slot) : Except Halt Kernel := do
  let k ← (k.raiseAlarm p).expireTty p
  k.wakeOnSignal p

/-- The queues in the order in which `schedule` looks at them. -/
def queueOrder : List ℕ := [9, 8, 7, 6, 5, 4, 3, 2, 1, 0]

/-- The second loop of `schedule`.  With no process on any queue the null
pointer is handed to `arch_switch_to`. -/
def pickNext (k : Kernel) : Except Halt Kernel :=
  match queueOrder.findSome? k.processQueues with
  | some h => .ok { k.setState h .running with currentProcess := h }
  | none => .error .nullDeref

def schedule (k : Kernel) : Except Halt Kernel := do
  let k ← (List.finRange nrProc).foldlM scheduleSlot k
  k.pickNext

def sleep (k : Kernel) (addr : ℕ) (type : ProcState) : Except Halt Kernel :=
  if k.currentProcess.val = 0 then .error (.panic "Trying to sleep on first process")
  else if type.sleeping = false then .error (.panic "sleep: bad type")
  else do
    let k := k.modify k.currentProcess fun x =>
      { x with state := type, sleepingOn := some addr }
    let k ← k.adjustProcQueues k.currentProcess
    k.schedule

/-- The body of the loop of `wakeup`; the flag is the local `sched`. -/
def wakeupSlot (addr : ℕ) (r : Kernel × Bool) (p : Slot) :
    Except Halt (Kernel × Bool) :=
  if (r.1.processTable p).state.sleeping ∧ (r.1.processTable p).sleepingOn = some addr then do
    let k ← (r.1.modify p fun x =>
      { x with state := .runnable, sleepingOn := none }).adjustProcQueues p
    .ok (k, true)
  else .ok r

def wakeup (k : Kernel) (addr : ℕ) (switch : Bool) : Except Halt Kernel := do
  let r ← (List.finRange nrProc).foldlM (wakeupSlot addr) (k, false)
  if r.2 ∧ switch then r.1.schedule else .ok r.1

/-- `nice_to_pri`, with C's division rounding towards zero. -/
def niceToPri (nice : ℤ) : ℕ := (-(nice.tdiv (40 / procQuanta)) + 40 / procQuanta).toNat

/-- The new nice value: a 32-bit addition, then the bounds. -/
def niceSum (nice inc : ℤ) : ℤ :=
  let sum := (nice + inc).bmod (2 ^ 32)
  if 19 < sum then 19 else if sum < -20 then -20 else sum

def kernelNice (k : Kernel) (inc : ℤ) : Except Halt Kernel :=
  let nice := niceSum k.current.nice inc
  let k := k.modify k.currentProcess fun x =>
    { x with
      nice := nice, priority := niceToPri nice,
      counter := niceToPri nice, quanta := niceToPri nice }
  k.adjustProcQueues k.currentProcess

/-! ## Signals -/

def sigPermission (sender target : Proc) : Bool :=
  sender.uid = target.suid || sender.uid = target.uid ||
    sender.euid = target.suid || sender.euid = target.uid

/-- `send_signal`; the result is whether the sender had permission. -/
def sendSignal (k : Kernel) (target : Slot) (sig : ℕ) : Kernel × Bool :=
  if sigPermission k.current (k.processTable target) = false then (k, false)
  else if sig = sigkill ∨ (sig ≠ 0 ∧ (k.processTable target).state ≠ .stopped) then
    (k.modify target fun x =>
      { x with sigpending := x.sigpending ||| (1#32 <<< (sig - 1)) }, true)
  else (k, true)

def einval : ℤ := 27
def eperm : ℤ := 66
def esrch : ℤ := 74

/-- The counters of the loops of `kernel_kill`. -/
structure KillCount where
  kernel : Kernel
  eligible : ℕ
  noperm : ℕ

def killSlot (candidate : Slot → Proc → Bool) (sig : ℕ) (c : KillCount) (p : Slot) :
    KillCount :=
  if candidate p (c.kernel.processTable p) then
    let r := c.kernel.sendSignal p sig
    { kernel := r.1, eligible := c.eligible + 1,
      noperm := if r.2 then c.noperm else c.noperm + 1 }
  else c

def killAll (k : Kernel) (candidate : Slot → Proc → Bool) (sig : ℕ) : Kernel × ℤ :=
  let c := (List.finRange nrProc).foldl (killSlot candidate sig) ⟨k, 0, 0⟩
  (c.kernel,
    if c.eligible = 0 then -esrch else if c.noperm = c.eligible then -eperm else 0)

def kernelKill (k : Kernel) (pid : ℤ) (sig : ℤ) : Except Halt (Kernel × ℤ) :=
  if sig < 0 ∨ (nsig : ℤ) < sig then .ok (k, -einval)
  else if 0 < pid then
    if h : pid.toNat < nrProc then
      let r := k.sendSignal ⟨pid.toNat, h⟩ sig.toNat
      .ok (r.1, if r.2 then 0 else -eperm)
    else .error .outOfBounds
  else if pid = 0 then
    .ok (k.killAll (fun p x =>
      x.state ≠ .exited ∧ x.pgid = k.current.pgid ∧ p ≠ k.currentProcess) sig.toNat)
  else if pid = -1 then
    .ok (k.killAll (fun p x =>
      x.state ≠ .exited ∧ x.pid ≠ 1 ∧ p ≠ k.currentProcess) sig.toNat)
  else
    .ok (k.killAll (fun p x =>
      x.state ≠ .exited ∧ x.pgid = k.current.pgid ∧ p ≠ k.currentProcess ∧
        x.pid = -pid) sig.toNat)

/-- `kernel_signal`: only the two special handlers can be installed, and
neither `SIGKILL` nor `SIGSTOP` can be ignored. -/
def kernelSignal (k : Kernel) (sig : ℤ) (handler : SigHandler) : Kernel :=
  match handler with
  | .user _ => k
  | handler =>
      if sig < 1 ∨ (nsig : ℤ) < sig then k
      else if (sig = sigkill ∨ sig = sigstop) ∧ handler = .ign then k
      else
        k.modify k.currentProcess fun x =>
          { x with sighandlers := Function.update x.sighandlers (sig.toNat - 1) handler }

def kernelPause (k : Kernel) : Except Halt Kernel := do
  let k ← (k.setState k.currentProcess .sleepInterruptible).adjustProcQueues k.currentProcess
  k.schedule

def kernelAlarm (k : Kernel) (seconds : ℕ) : Kernel × ℕ :=
  (k.modify k.currentProcess fun x =>
      { x with alarm := (k.timerTicks + seconds * hz) % 2 ^ 32 },
    ((k.current.alarm + 2 ^ 32 - k.timerTicks) % 2 ^ 32) / hz)

/-! ## Fork, exit and wait -/

/-- `get_free_proc`: the slot is also left in `last_pid`. -/
def getFreeProc (k : Kernel) : Option (Slot × Kernel) :=
  ((List.finRange nrProc).find? fun p => (k.processTable p).state = .exited).map
    fun p => (p, { k with lastPid := p.val })

/-- The `memmove` of the parent over the slot of the child. -/
def forkCopy (k : Kernel) (child : Slot) : Kernel :=
  k.modify child fun _ => k.current

/-- `arch_fork` failed: only the state of the slot is taken back. -/
def forkFail (k : Kernel) (child : Slot) : Kernel :=
  k.setState child .exited

/-- The assignments after a successful `arch_fork`. -/
def forkBuild (k : Kernel) (child : Slot) : Kernel :=
  k.modify child fun x =>
    { x with
      alarm := 0,
      priority := if k.current.priority = 0 then userPriority else k.current.priority,
      quanta := procQuanta, counter := procQuanta,
      pid := k.lastPid, ppid := k.current.pid, state := .runnable,
      queuePrev := none, queueNext := none }

/-- `kernel_fork`; `archOk` is the outcome of `arch_fork`. -/
def kernelFork (k : Kernel) (archOk : Bool) : Except Halt Kernel :=
  match k.getFreeProc with
  | none => .ok k
  | some (child, k) =>
      let k := k.forkCopy child
      if archOk then do
        let k ← (k.forkBuild child).adjustProcQueues child
        k.schedule
      else .ok (k.forkFail child)

/-- The body of the loop of `kernel_exit` which hands the children to process 1. -/
def reparentSlot (k : Kernel) (p : Slot) : Kernel :=
  if (k.processTable p).state ≠ .exited ∧ (k.processTable p).ppid = k.current.pid then
    k.modify p fun x => { x with ppid := 1 }
  else k

def reparent (k : Kernel) : Kernel := (List.finRange nrProc).foldl reparentSlot k

/-- `kernel_exit` up to the point where the process has a dead state. -/
def exitMark (k : Kernel) (status : ℕ) : Except Halt Kernel :=
  let k := k.reparent.modify k.currentProcess fun x => { x with exitCode := status % 256 }
  if k.current.ppid ≠ 0 then do
    let r ← (k.setState k.currentProcess .zombie).kernelKill k.current.ppid sigchld
    .ok r.1
  else .ok (k.setState k.currentProcess .exited)

def kernelExit (k : Kernel) (status : ℕ) : Except Halt Kernel := do
  let k ← k.exitMark status
  let k ← k.adjustProcQueues k.currentProcess
  k.schedule

/-- The locals of the loops of `kernel_waitpid`; `status` is what was stored
through `stat_loc`. -/
structure WaitScan where
  kernel : Kernel
  children : ℕ
  flag : ℕ
  ret : ℤ
  status : Option ℕ

def waitpidSlot (skip : Proc → Bool) (wanted : Proc → Bool) (w : WaitScan) (p : Slot) :
    WaitScan :=
  let x := w.kernel.processTable p
  if x.ppid ≠ w.kernel.current.pid ∨ skip x then w
  else if wanted x ∧ x.state = .zombie then
    { kernel := w.kernel.setState p .exited, children := w.children + 1,
      flag := w.flag + 1, ret := x.pid, status := some x.exitCode }
  else { w with children := w.children + 1 }

/-- The branch of `kernel_waitpid` for positive arguments alone skips exited
slots. -/
def waitpidSkip (pid : ℤ) (x : Proc) : Bool := 0 < pid ∧ x.state = .exited

/-- The children which the four branches of `kernel_waitpid` wait for. -/
def waitpidWanted (k : Kernel) (pid : ℤ) (x : Proc) : Bool :=
  if pid = -1 then true
  else if 0 < pid then x.pid = pid
  else if pid = 0 then x.pgid = k.current.pgid
  else x.pgid = -pid

/-- The scan of the table. -/
def waitpidScan (k : Kernel) (pid : ℤ) : WaitScan :=
  (List.finRange nrProc).foldl (waitpidSlot (waitpidSkip pid) (k.waitpidWanted pid))
    ⟨k, 0, 0, 0, none⟩

/-- The address on which `kernel_waitpid` sleeps, `&process_table`. -/
def waitChannel : ℕ := 0

/-- One pass of `kernel_waitpid` from `repeat` to the return or the sleep. -/
def kernelWaitpid (k : Kernel) (pid : ℤ) (wnohang : Bool) : Except Halt Kernel :=
  let w := k.waitpidScan pid
  if w.children = 0 ∨ w.flag ≠ 0 ∨ wnohang then .ok w.kernel
  else w.kernel.sleep waitChannel .sleepInterruptible

/-- What `kernel_waitpid` does first after its sleep. -/
def waitpidWoken (k : Kernel) : Kernel :=
  k.modify k.currentProcess fun x =>
    { x with sigpending := x.sigpending &&& ~~~(1#32 <<< (sigchld - 1)) }

/-! ## Default actions -/

/-- The table filled by `signals_init`, indexed by signal number minus one.
Numbers which are not initialised keep the zero value, `SIGACTION_T`. -/
def defAction (i : ℕ) : SigDefAction :=
  match i + 1 with
  | 7 => .abnormal
  | 10 => .ignore
  | 12 => .continue
  | 18 => .stop
  | 19 => .abnormal
  | 20 => .stop
  | 21 => .stop
  | 22 => .stop
  | 25 => .ignore
  | 27 => .abnormal
  | 28 => .abnormal
  | 29 => .ignore
  | 3 => .abnormal
  | 4 => .abnormal
  | 5 => .abnormal
  | 6 => .abnormal
  | 8 => .abnormal
  | 11 => .abnormal
  | _ => .terminate

/-- `get_signal_handler` for the current process and the signal of index `i`;
the result is the handler to be entered in user mode, if any. -/
def getSignalHandler (k : Kernel) (i : ℕ) : Except Halt (Kernel × Option ℕ) :=
  match k.current.sighandlers i with
  | .ign => .ok (k, none)
  | .user address => .ok (k, some address)
  | .dfl =>
      match defAction i with
      | .abnormal | .terminate => do
          let k ← k.kernelExit i
          .ok (k, none)
      | .ignore => .ok (k, none)
      | .continue =>
          if k.current.state = .stopped then do
            let k ← (k.setState k.currentProcess .runnable).adjustProcQueues k.currentProcess
            .ok (k, none)
          else .ok (k, none)
      | .stop => do
          let r ← (k.setState k.currentProcess .stopped).kernelKill k.current.ppid sigchld
          let k ← r.1.adjustProcQueues r.1.currentProcess
          let k ← k.schedule
          .ok (k, none)

/-- One round of the loop of `signal_handler`. -/
def deliverSignal (k : Kernel) (i : ℕ) : Except Halt (Kernel × Option ℕ) :=
  if k.current.sigpending.getLsbD i then
    (k.modify k.currentProcess fun x =>
      { x with sigpending := x.sigpending &&& ~~~(1#32 <<< i) }).getSignalHandler i
  else .ok (k, none)

/-! ## Timers -/

def ttySetTimer (k : Kernel) (vtime : ℕ) : Kernel :=
  k.modify k.currentProcess fun x =>
    { x with ttyBlock := (k.timerTicks + vtime * (hz / 10)) % 2 ^ 32 }

def ttyClearTimer (k : Kernel) : Kernel :=
  k.modify k.currentProcess fun x => { x with ttyBlock := 0 }

/-- The quantum of the current process runs down and, at zero, the process is
put behind the others of its queue. -/
def chargeQuantum (k : Kernel) : Except Halt Kernel :=
  if k.current.counter = 0 then
    (k.modify k.currentProcess fun x =>
      { x with counter := 0, state := .runnable }).adjustProcQueues k.currentProcess
  else
    .ok (k.modify k.currentProcess fun x => { x with counter := x.counter - 1 })

/-- `timer_driver_irq_handler`. -/
def timerIrq (k : Kernel) : Except Halt Kernel := do
  let k ← chargeQuantum { k with timerTicks := (k.timerTicks + 1) % 2 ^ 32 }
  k.schedule

/-- `processes_init`: slot 0 is alone on the queue of priority 0. -/
def processesInit : Kernel where
  processTable p :=
    if p.val = 0 then
      { Proc.zero with state := .runnable, queueNext := some p, queuePrev := some p }
    else Proc.zero
  currentProcess := ⟨0, zero_lt_nrProc⟩
  processQueues q := if q = 0 then some ⟨0, zero_lt_nrProc⟩ else none
  lastPid := 0
  timerTicks := 0

end Kernel

end Yak.Process
