import Yak.ProcessEdits
import Mathlib.Tactic

/-!
# System calls with the timer running

System calls run with interrupts enabled, so that the timer interrupt may come
between any two statements of `kernel_fork`, `kernel_exit`, the stop signals and
`kernel_waitpid`, and the next process then runs while this one is half way
through.  A `Machine` is the kernel together with the point which every process
has reached.  `sleep`, `wakeup`, `kernel_pause`, `schedule` and the interrupt
handler itself run with interrupts disabled and are single steps.
-/

namespace Yak.Process

open LinkedRing

/-- One store to the head of a queue or to a link. -/
inductive LinkStore where
  | head (q : ℕ) (v : Option Slot)
  | next (p : Slot) (v : Option Slot)
  | prev (p : Slot) (v : Option Slot)
  deriving DecidableEq, Repr

namespace Kernel

def store (k : Kernel) : LinkStore → Kernel
  | .head q v => k.setQueue q v
  | .next p v => k.modify p fun x => { x with queueNext := v }
  | .prev p v => k.modify p fun x => { x with queuePrev := v }

def storeAll (k : Kernel) (ws : List LinkStore) : Kernel := ws.foldl store k

/-- The stores of `remove_from_queue`, in order. -/
def removeStores (k : Kernel) (p : Slot) : Except Halt (List LinkStore) :=
  match (k.processTable p).queuePrev, (k.processTable p).queueNext with
  | none, none => .ok []
  | some prev, some next =>
      if next = p ∧ prev = p then
        .ok [.head (k.processTable p).priority none, .prev p none, .next p none]
      else
        .ok [.prev next (some prev), .next prev (some next),
          .head (k.processTable p).priority (some next), .prev p none, .next p none]
  | _, _ => .error (.panic "Process queues corrupted")

/-- The stores of `add_to_queue`, in order. -/
def addStores (k : Kernel) (p : Slot) : Except Halt (List LinkStore) :=
  match k.processQueues (k.processTable p).priority with
  | none =>
      .ok [.head (k.processTable p).priority (some p), .next p (some p), .prev p (some p)]
  | some h =>
      match k.links.walkLast h (nrProc + 1) h with
      | none => .error .badWalk
      | some t => .ok [.next t (some p), .prev p (some t), .next p (some h), .prev h (some p)]

/-- The stores of `adjust_proc_queues`, in order. -/
def adjustStores (k : Kernel) (p : Slot) : Except Halt (List LinkStore) :=
  (if k.inAQueue p then k.removeStores p else .ok []) >>= fun ws =>
    if (k.processTable p).state.queued then
      ((k.storeAll ws).addStores p).map fun ws' => ws ++ ws'
    else .ok ws

end Kernel

/-- How far a process has got. -/
inductive Pc where
  /-- In user mode, or in the kernel with nothing half done. -/
  | user
  /-- `kernel_fork` has found the slot; its `memmove` is not finished. -/
  | forkPicked (c : Slot)
  /-- The `memmove` is finished; `arch_fork` and the assignments are not. -/
  | forkCopied (c : Slot)
  /-- The child is complete but not on a queue. -/
  | forkBuilt (c : Slot)
  /-- `kernel_exit` has written the dead state. -/
  | exiting
  /-- A stop signal has written the stopped state. -/
  | stopping
  /-- Inside `adjust_proc_queues`, with these stores to come; the flag tells
  whether `schedule` is called next. -/
  | linking (ws : List LinkStore) (resched : Bool)
  /-- About to call `schedule`. -/
  | leaving
  deriving DecidableEq, Repr

/-- The slot which the process is filling. -/
def Pc.claims : Pc → Option Slot
  | .forkPicked c => some c
  | .forkCopied c => some c
  | .forkBuilt c => some c
  | _ => none

def Pc.isLinking : Pc → Bool
  | .linking _ _ => true
  | _ => false

structure Machine where
  kernel : Kernel
  pc : Slot → Pc

/-- What a process does as a single step while nothing is half done. -/
inductive Call where
  | sleep (addr : ℕ) (type : ProcState)
  | pause
  | schedule
  | alarm (seconds : ℕ)
  | signal (sig : ℤ) (handler : SigHandler)
  | send (target : Slot) (sig : ℕ)
  | clearPending (i : ℕ)
  | reparent (p : Slot)
  | reap (pid : ℤ) (p : Slot)
  | ttySetTimer (vtime : ℕ)
  | ttyClearTimer

/-- `reap` is the body of the loops of `kernel_waitpid`, `reparent` the body of
the loop of `kernel_exit`. -/
def Call.exec (k : Kernel) : Call → Except Halt Kernel
  | .sleep addr type => k.sleep addr type
  | .pause => k.kernelPause
  | .schedule => k.schedule
  | .alarm seconds => .ok (k.kernelAlarm seconds).1
  | .signal sig handler => .ok (k.kernelSignal sig handler)
  | .send target sig => .ok (k.sendSignal target sig).1
  | .clearPending i =>
      .ok (k.modify k.currentProcess fun x =>
        { x with sigpending := x.sigpending &&& ~~~(1#32 <<< i) })
  | .reparent p => .ok (k.reparentSlot p)
  | .reap pid p =>
      .ok (Kernel.waitpidSlot (Kernel.waitpidSkip pid) (k.waitpidWanted pid)
        ⟨k, 0, 0, 0, none⟩ p).kernel
  | .ttySetTimer vtime => .ok (k.ttySetTimer vtime)
  | .ttyClearTimer => .ok k.ttyClearTimer

/-- The steps of the machine.  `copyPart` and `buildPart` are the moments at
which an interrupt finds the `memmove`, or the assignments after `arch_fork`,
partly done: the slot then holds `x`. -/
inductive Step where
  | tick
  | wakeup (addr : ℕ) (switch : Bool)
  | call (c : Call)
  | pick
  | copyPart (x : Proc)
  | copy
  | archFail
  | buildPart (x : Proc)
  | build
  | exit (status : ℕ)
  | stop
  | cont
  | notify
  | relink
  | store
  | leave

namespace Machine

/-- The point which the current process has reached. -/
def here (m : Machine) : Pc := m.pc m.kernel.currentProcess

/-- The current process goes on to another point. -/
def goto (m : Machine) (k : Kernel) (pc : Pc) : Machine :=
  { kernel := k, pc := Function.update m.pc k.currentProcess pc }

/-- The kernel once the current process is through `adjust_proc_queues`. -/
def done (m : Machine) : Kernel :=
  match m.here with
  | .linking ws _ => m.kernel.storeAll ws
  | _ => m.kernel

/-- `get_free_proc`.  The slot gets a new process, which has not run yet. -/
def pick (m : Machine) : Machine :=
  match m.kernel.getFreeProc with
  | none => m
  | some (c, k) => { m with pc := Function.update m.pc c .user }.goto k (.forkPicked c)

/-- The store of the dead state in `kernel_exit`. -/
def exitState (k : Kernel) (status : ℕ) : Kernel :=
  k.modify k.currentProcess fun x =>
    { x with
      exitCode := status % 256, state := if x.ppid ≠ 0 then .zombie else .exited }

/-- One step.  A step which the current process cannot take at the point where
it is leaves the machine alone. -/
def exec (m : Machine) (s : Step) : Except Halt Machine :=
  let k := m.kernel
  match s, m.here with
  | .tick, _ => do
      let k ← k.timerIrq
      .ok { m with kernel := k }
  | .wakeup addr switch, _ => do
      let k ← k.wakeup addr switch
      .ok { m with kernel := k }
  | .call c, .user => do
      let k ← c.exec k
      .ok { m with kernel := k }
  | .pick, .user => .ok m.pick
  | .copyPart x, .forkPicked c =>
      if x.state = (k.processTable c).state ∨ x.state = k.current.state then
        .ok { m with kernel := k.modify c fun _ => x }
      else .ok m
  | .copy, .forkPicked c => .ok (m.goto (k.forkCopy c) (.forkCopied c))
  | .archFail, .forkCopied c => .ok (m.goto (k.forkFail c) .user)
  | .buildPart x, .forkCopied c =>
      if x.state = (k.processTable c).state ∨ x.state = .runnable then
        .ok { m with kernel := k.modify c fun _ => x }
      else .ok m
  | .build, .forkCopied c => .ok (m.goto (k.forkBuild c) (.forkBuilt c))
  | .exit status, .user => .ok (m.goto (exitState k status) .exiting)
  | .stop, .user => .ok (m.goto (k.setState k.currentProcess .stopped) .stopping)
  | .cont, .user =>
      if k.current.state = .stopped then do
        let k := k.setState k.currentProcess .runnable
        let ws ← k.adjustStores k.currentProcess
        .ok (m.goto k (.linking ws false))
      else .ok m
  | .notify, .exiting => do
      let r ← k.kernelKill k.current.ppid sigchld
      .ok { m with kernel := r.1 }
  | .notify, .stopping => do
      let r ← k.kernelKill k.current.ppid sigchld
      .ok { m with kernel := r.1 }
  | .relink, .forkBuilt c => do
      let ws ← k.adjustStores c
      .ok (m.goto k (.linking ws true))
  | .relink, .exiting => do
      let ws ← k.adjustStores k.currentProcess
      .ok (m.goto k (.linking ws true))
  | .relink, .stopping => do
      let ws ← k.adjustStores k.currentProcess
      .ok (m.goto k (.linking ws true))
  | .store, .linking (w :: ws) resched =>
      .ok (m.goto (k.store w) (.linking ws resched))
  | .store, .linking [] resched => .ok (m.goto k (if resched then .leaving else .user))
  | .leave, .leaving => do
      let k' ← k.schedule
      .ok { kernel := k', pc := Function.update m.pc k.currentProcess .user }
  | _, _ => .ok m

def run (m : Machine) (steps : List Step) : Except Halt Machine :=
  steps.foldlM exec m

/-- After `processes_init`, with process 0 in user mode. -/
def init : Machine where
  kernel := Kernel.processesInit
  pc _ := .user

end Machine

end Yak.Process
