import Yak.AtaPio
import Yak.LinkedList
import Yak.Process

/-!
# The queue of disk requests

`ata_pio_start` and `ata_dma_start` with the interrupts of the disk, for several processes.
Calls run with interrupts enabled, so that an interrupt or another process may come between
their statements; the walk over the request slots, the walk to the end of the queue and
the start of a command are single steps.  A process that sleeps may look again at any time.
Steps say what errors the disk reports.
-/

namespace Yak.Disk

open LinkedList
open Process (Slot)

def ataMaxRequests : ℕ := 64

def ataMaxError : ℕ := 3

abbrev ReqSlot := Fin ataMaxRequests

inductive Driver where
  | dma
  | pio
  deriving DecidableEq

/-- What a call asks for. -/
structure Args where
  rw : Rw
  count : BitVec 32
  lba : BitVec 32
  deriving DecidableEq

/-- `struct ata_request`, with its number, the number of sectors which were asked for, and the
sectors of its buffer which have been moved.  `buf` counts the sectors by which the pointer has
gone on. -/
structure Request where
  dev : Bool
  rw : Rw
  count : BitVec 32
  lba : BitVec 32
  buf : ℕ
  error : Bool
  retry : ℕ
  next : Option ReqSlot
  number : ℕ
  asked : BitVec 32
  moved : List ℕ
  deriving DecidableEq

/-- `ata_dma_current_prdt` and the command, as the last start has set them: the byte count of the
descriptor, the sectors of the command, and the handler. -/
structure DmaTransfer where
  rw : Rw
  sectors : ℕ
  bcount : BitVec 16
  deriving DecidableEq

/-- The sectors which come to their places.  A read copies `bcount` bytes out of the buffer; for
the controller a count of zero means 64 KiB. -/
def DmaTransfer.moved (t : DmaTransfer) : ℕ :=
  match t.rw with
  | .read => min t.sectors (t.bcount.toNat / sectorSize)
  | .write => min t.sectors (if t.bcount = 0 then 128 else t.bcount.toNat / sectorSize)

/-- A request when it was taken off the queue, by a handler or as soon as it was started. -/
structure Completion where
  number : ℕ
  asked : BitVec 32
  moved : List ℕ
  byHandler : Bool
  deriving DecidableEq

/-- The point which a process has reached in a call, with the number of the request that it
has built. -/
inductive Stage where
  | idle
  /-- At `retry`. -/
  | called (a : Args)
  /-- `ata_build_request` has found a slot. -/
  | found (r : ReqSlot) (a : Args)
  | built (n : ℕ) (r : ReqSlot) (a : Args)
  /-- `ata_add_request` has come to the end of the queue. -/
  | walked (n : ℕ) (r : ReqSlot) (a : Args) (tail : Option ReqSlot)
  /-- `ata_add_request` has returned 1. -/
  | first (n : ℕ) (r : ReqSlot) (a : Args)
  /-- `ata_pio_start_request` has returned 1. -/
  | started (n : ℕ) (r : ReqSlot) (a : Args)
  /-- In `ata_wait_on_req`, for the request `w`. -/
  | waiting (n : ℕ) (r : ReqSlot) (a : Args) (w : ReqSlot)
  deriving DecidableEq

/-- The requests, the driver, and the processes.  The handler of the DMA driver waits in the
process that it has interrupted, for the requests in `frames`. -/
structure AtaQueue where
  reqs : ReqSlot → Request
  current : Option ReqSlot
  driveIntr : Bool
  dma : DmaTransfer
  /-- The interrupts that the device has not raised yet. -/
  pending : ℕ
  stage : Slot → Stage
  frames : Slot → List ReqSlot
  built : ℕ
  queued : List ℕ
  completed : List Completion
  returned : List ℕ

/-- The request is one for which `ata_pio_start_request` sends the first sector itself. -/
def Request.sendsFirst (x : Request) : Prop := x.rw = .write ∧ x.lba ≤ maxLba28

instance (x : Request) : Decidable x.sendsFirst := inferInstanceAs (Decidable (_ ∧ _))

def Request.sectors (x : Request) : ℕ :=
  if x.lba ≤ maxLba28 then commandSectors 8 x.count else commandSectors 16 x.count

/-- What `ata_dma_start_request` sets for the request. -/
def Request.transfer (x : Request) : DmaTransfer :=
  ⟨x.rw, x.sectors, (x.count * BitVec.ofNat 32 sectorSize).setWidth 16⟩

/-- The sectors are moved in their order, and `count` says how many are left. -/
def Request.Left (x : Request) : Prop :=
  x.moved = List.range x.buf ∧ x.count + BitVec.ofNat 32 x.buf = x.asked

/-- What `ata_build_request` writes into a slot. -/
def Args.request (a : Args) (n : ℕ) : Request where
  dev := true
  rw := a.rw
  count := a.count
  lba := a.lba
  buf := 0
  error := false
  retry := 0
  next := none
  number := n
  asked := a.count
  moved := []

namespace AtaQueue

def modify (s : AtaQueue) (r : ReqSlot) (f : Request → Request) : AtaQueue :=
  { s with reqs := Function.update s.reqs r (f (s.reqs r)) }

def setStage (s : AtaQueue) (p : Slot) (st : Stage) : AtaQueue :=
  { s with stage := Function.update s.stage p st }

/-- The call with this request returns 0. -/
def return0 (s : AtaQueue) (p : Slot) (n : ℕ) : AtaQueue :=
  { s.setStage p .idle with returned := s.returned ++ [n] }

/-- A call looks for an error once it has no reason to wait. -/
def callEnd (d : Driver) (s : AtaQueue) (p : Slot) (n : ℕ) (r : ReqSlot) (a : Args) : AtaQueue :=
  if (s.reqs r).error then
    if d = .pio ∧ (s.reqs r).retry < ataMaxError then
      (s.modify r fun x => { x with error := false }).setStage p (.called a)
    else s.setStage p .idle
  else s.return0 p n

def next (s : AtaQueue) (r : ReqSlot) : Option ReqSlot := (s.reqs r).next

/-- The end of the queue, as the loop of `ata_add_request` finds it. -/
def tail (s : AtaQueue) : Option ReqSlot := s.current.map (walkLast s.next ataMaxRequests)

def freeSlot (s : AtaQueue) : Option ReqSlot :=
  (List.finRange ataMaxRequests).find? fun r => (s.reqs r).dev = false

/-- The move of one sector, or of those of a transfer by DMA, which leaves `count` and `buf` as
they are; nothing reads them before the slot is built again. -/
def transfer (s : AtaQueue) (r : ReqSlot) (n : ℕ) : AtaQueue :=
  s.modify r fun x => { x with
    moved := x.moved ++ List.range' x.buf n
    buf := x.buf + n
    count := x.count - BitVec.ofNat 32 n }

/-- The move of the first sector when a write starts.  The buffer does not go on. -/
def sendFirst (s : AtaQueue) (r : ReqSlot) : AtaQueue :=
  s.modify r fun x => { x with moved := x.moved ++ [x.buf], count := x.count - 1 }

/-- `ata_finish_request`, and the next request becomes the current one. -/
def finish (s : AtaQueue) (r : ReqSlot) (byHandler : Bool) : AtaQueue :=
  { s.modify r fun x => { x with dev := false } with
    current := s.next r
    completed := s.completed ++
      [⟨(s.reqs r).number, (s.reqs r).asked, (s.reqs r).moved, byHandler⟩] }

/-- `ata_pio_start_request`, or `ata_dma_start_request` up to its wait, when the device reports
so many errors in a row.  The result says whether to wait. -/
def startRequest (d : Driver) (s : AtaQueue) (r : ReqSlot) (errors : ℕ) : AtaQueue × Bool :=
  let s := { s with driveIntr := true, pending := 0 }
  match d with
  | .dma =>
      let retries := ataMaxError - (s.reqs r).retry
      let s := { s with dma := (s.reqs r).transfer }
      let s := s.modify r fun x => { x with
        error := x.error || 0 < errors
        retry := x.retry + min errors retries }
      if retries < errors then (s, false) else ({ s with pending := 1 }, true)
  | .pio =>
      if 0 < errors then
        (s.modify r fun x => { x with error := true, retry := x.retry + 1 }, false)
      else
        let s := { s with pending := (s.reqs r).sectors }
        if (s.reqs r).sendsFirst then
          let s := s.sendFirst r
          if (s.reqs r).count = 0 then ({ s.finish r false with driveIntr := false }, false)
          else (s, true)
        else (s, true)

/-- The end of a handler, in the process that is interrupted. -/
def handlerEnd (d : Driver) (s : AtaQueue) (p : Slot) (r : ReqSlot) (errors : ℕ) : AtaQueue :=
  let s := s.finish r true
  match s.current with
  | none => { s with driveIntr := false }
  | some r' =>
      match s.startRequest d r' errors, d with
      | (s, true), .dma => { s with frames := Function.update s.frames p (r' :: s.frames p) }
      | (s, _), _ => s

/-- The handlers, for the current request.  Only those of the DMA driver look for an error,
with which the sectors are not moved. -/
def handler (d : Driver) (s : AtaQueue) (p : Slot) (error : Bool) (errors : ℕ) :
    Option AtaQueue :=
  match s.current with
  | none => none
  | some r =>
      match d with
      | .pio =>
          let s := s.transfer r 1
          some (if (s.reqs r).count = 0 then s.handlerEnd d p r errors else s)
      | .dma =>
          let s :=
            if error then s.modify r fun x => { x with error := true }
            else s.transfer r s.dma.moved
          some (s.handlerEnd d p r errors)

/-- What a process or the disk does next, with the errors that the disk reports. -/
inductive Step where
  | call (p : Slot) (a : Args)
  | find (p : Slot)
  | build (p : Slot)
  | walk (p : Slot)
  | link (p : Slot)
  | start (p : Slot) (errors : ℕ)
  | readCurrent (p : Slot)
  | check (p : Slot)
  | interrupt (p : Slot) (error : Bool) (errors : ℕ)
  /-- An interrupt handler ends its wait. -/
  | unwind (p : Slot)

/-- The steps of a process which is not in a handler. -/
def callStep (d : Driver) (s : AtaQueue) : Step → Option AtaQueue
  | .call p a =>
      match s.stage p with
      | .idle => some (s.setStage p (.called a))
      | _ => none
  | .find p =>
      match s.stage p, s.freeSlot with
      | .called a, some r => some (s.setStage p (.found r a))
      | .called _, none => some (s.setStage p .idle)
      | _, _ => none
  | .build p =>
      match s.stage p with
      | .found r a =>
          some ({ s.modify r fun _ => a.request s.built with
            built := s.built + 1 }.setStage p (.built s.built r a))
      | _ => none
  | .walk p =>
      match s.stage p with
      | .built n r a => some (s.setStage p (.walked n r a s.tail))
      | _ => none
  | .link p =>
      match s.stage p with
      | .walked n r a none =>
          some ({ s with current := some r, queued := s.queued ++ [n] }.setStage p (.first n r a))
      | .walked n r a (some t) =>
          let s := { s.modify t fun x => { x with next := some r } with queued := s.queued ++ [n] }
          some (if d = .dma then s.callEnd d p n r a else s.setStage p (.waiting n r a r))
      | _ => none
  | .start p errors =>
      match s.stage p, d, s.current with
      | .first n r a, .dma, _ =>
          match s.startRequest d r errors with
          | (s, true) => some (s.setStage p (.waiting n r a r))
          | (s, false) => some (s.callEnd d p n r a)
      | .first n r a, .pio, some w =>
          match s.startRequest d w errors with
          | (s, true) => some (s.setStage p (.started n r a))
          | (s, false) => some (s.callEnd d p n r a)
      | _, _, _ => none
  | .readCurrent p =>
      match s.stage p, s.current with
      | .started n r a, some w => some (s.setStage p (.waiting n r a w))
      | _, _ => none
  | .check p =>
      match s.stage p with
      | .waiting n r a w => some (if (s.reqs w).dev then s else s.callEnd d p n r a)
      | _ => none
  | _ => none

def step (d : Driver) (s : AtaQueue) : Step → Option AtaQueue
  | .interrupt p error errors =>
      if s.pending = 0 then none
      else
        let s := { s with pending := s.pending - 1 }
        if s.driveIntr then s.handler d p error errors else some s
  | .unwind p =>
      match s.frames p with
      | r :: rest =>
          if (s.reqs r).dev then none
          else some { s with frames := Function.update s.frames p rest }
      | [] => none
  | st@(.call p ..) | st@(.find p) | st@(.build p) | st@(.walk p) | st@(.link p)
  | st@(.start p ..) | st@(.readCurrent p) | st@(.check p) =>
      if s.frames p = [] then s.callStep d st else none

def run (d : Driver) (s : AtaQueue) : List Step → Option AtaQueue
  | [] => some s
  | st :: sts => (s.step d st).bind fun s => s.run d sts

def init : AtaQueue where
  reqs _ := { Args.request ⟨.read, 0, 0⟩ 0 with dev := false }
  current := none
  driveIntr := false
  dma := ⟨.read, 0, 0⟩
  pending := 0
  stage _ := .idle
  frames _ := []
  built := 0
  queued := []
  completed := []
  returned := []

/-! ## Requests in order -/

/-- The sectors of a buffer in their order, as many as were asked for. -/
def AllMoved (moved : List ℕ) (asked : BitVec 32) : Prop :=
  ∃ n, moved = List.range n ∧ BitVec.ofNat 32 n = asked

/-- A handler has taken the request off the queue, with all sectors moved. -/
def Whole (s : AtaQueue) (n : ℕ) : Prop :=
  ∃ x ∈ s.completed, x.number = n ∧ x.byHandler = true ∧ AllMoved x.moved x.asked

/-- A call has returned 0 only after its request was taken off the queue whole, and requests are
taken off in the order in which they were added, each once.  Those which are not yet taken
off are linked behind the current one. -/
structure Served (s : AtaQueue) : Prop where
  returned : ∀ n ∈ s.returned, s.Whole n
  order : ∃ Q, Follows s.next s.current Q ∧
    s.queued = s.completed.map Completion.number ++ Q.map fun r => (s.reqs r).number
  once : (s.completed.map Completion.number).Nodup

/-- The slot of a request whose call has yet to look for an error. -/
def own : Stage → Option ReqSlot
  | .started _ r _ | .waiting _ r _ _ => some r
  | _ => none

/-- The request is one which the descriptor can say: at most 127 sectors to read, or from 1 to 128
sectors to write. -/
def FitsDma (rw : Rw) (count : BitVec 32) : Prop :=
  count.toNat ≤ 128 ∧ if rw = .read then count.toNat ≠ 128 else count.toNat ≠ 0

instance (rw : Rw) (count : BitVec 32) : Decidable (FitsDma rw count) :=
  inferInstanceAs (Decidable (_ ∧ ite _ _ _))

/-- A slot that is built is still free, and no call has yet to find its error; a request is
added where the queue still ends, and with the DMA driver only to an empty queue; with the PIO
driver no request has its first sector sent at once, and with the DMA driver all fit. -/
def SafeStep (d : Driver) (s : AtaQueue) : Step → Prop
  | .build p =>
      match s.stage p with
      | .found r a =>
          (s.reqs r).dev = false ∧
            (d = .dma → (s.reqs r).error = true → ∀ q, own (s.stage q) ≠ some r) ∧
            ¬ (d = .pio ∧ a.rw = .write ∧ a.lba ≤ maxLba28) ∧
            (d = .dma → FitsDma a.rw a.count)
      | _ => True
  | .link p =>
      match s.stage p with
      | .walked _ _ _ t => s.tail = t ∧ (d = .dma → t = none)
      | _ => True
  | _ => True

def SafeRun (d : Driver) (s : AtaQueue) : List Step → Prop
  | [] => True
  | st :: sts => s.SafeStep d st ∧ ∀ s' ∈ s.step d st, s'.SafeRun d sts

instance (d : Driver) (s : AtaQueue) (st : Step) : Decidable (s.SafeStep d st) := by
  unfold SafeStep
  split <;> try split
  all_goals infer_instance

instance SafeRun.decidable (d : Driver) : (s : AtaQueue) → (sts : List Step) →
    Decidable (s.SafeRun d sts)
  | _, [] => inferInstanceAs (Decidable True)
  | s, st :: sts =>
      have : ∀ s' : AtaQueue, Decidable (s'.SafeRun d sts) := fun s' => decidable d s' sts
      inferInstanceAs (Decidable (s.SafeStep d st ∧ ∀ s' ∈ s.step d st, s'.SafeRun d sts))

/-! ## The invariant -/

variable {s s' : AtaQueue} {d : Driver} {p q : Slot} {r t w : ReqSlot} {o : Option ReqSlot}
  {n : ℕ} {Q : List ReqSlot} {st : Step}

/-- The request that is built and not started. -/
def begun : Stage → Option ℕ
  | .built n .. | .walked n .. | .first n .. => some n
  | _ => none

/-- The request is taken off the queue, and its call finds the error if it is not whole. -/
def Done (s : AtaQueue) (d : Driver) (n : ℕ) (r : ReqSlot) : Prop :=
  s.Whole n ∨ d = .dma ∧ (s.reqs r).error = true

/-- The request is built and not yet added. -/
def Apart (s : AtaQueue) (d : Driver) (Q : List ReqSlot) (n : ℕ) (r : ReqSlot) : Prop :=
  r ∉ Q ∧ (s.reqs r).dev = true ∧ (s.reqs r).number = n ∧ n < s.built ∧ n ∉ s.queued ∧
    (s.reqs r).next = none ∧ (s.reqs r).Left ∧ ¬ (d = .pio ∧ (s.reqs r).sendsFirst)

/-- What a process relies on at its stage, when the requests in `Q` are the queue. -/
def StageInv (s : AtaQueue) (d : Driver) (Q : List ReqSlot) : Stage → Prop
  | .idle | .called _ | .found .. => True
  | .built n r _ | .walked n r _ _ => s.Apart d Q n r
  | .first n r _ => Q.head? = some r ∧ (s.reqs r).number = n ∧ s.driveIntr = false
  | .started n r _ => s.Done d n r ∨ Q.head? = some r ∧ (s.reqs r).number = n
  | .waiting n r _ w => s.Done d n r ∨ w = r ∧ r ∈ Q ∧ (s.reqs r).number = n

structure QueueInv (s : AtaQueue) (d : Driver) (Q : List ReqSlot) : Prop where
  follows : Follows s.next s.current Q
  nodup : Q.Nodup
  live : ∀ r ∈ Q, (s.reqs r).dev = true
  left : ∀ r ∈ Q, (s.reqs r).Left
  plain : ∀ r ∈ Q, ¬ (d = .pio ∧ (s.reqs r).sendsFirst)
  queued : s.queued = s.completed.map Completion.number ++ Q.map fun r => (s.reqs r).number
  queued_nodup : s.queued.Nodup
  queued_lt : ∀ n ∈ s.queued, n < s.built
  returned : ∀ n ∈ s.returned, s.Whole n
  single : d = .dma → Q.length ≤ 1
  quiet : Q = [] → s.driveIntr = false
  stage : ∀ p, s.StageInv d Q (s.stage p)
  alone : ∀ p q n, begun (s.stage p) = some n → begun (s.stage q) = some n → p = q

theorem QueueInv.current (h : s.QueueInv d Q) : s.current = Q.head? := h.follows.head?

theorem QueueInv.served (h : s.QueueInv d Q) : s.Served where
  returned := h.returned
  order := ⟨Q, h.follows, h.queued⟩
  once := (List.nodup_append.mp (h.queued ▸ h.queued_nodup)).1

theorem queueInv_init (d : Driver) : init.QueueInv d [] where
  follows := rfl
  nodup := List.nodup_nil
  live _ hr := absurd hr List.not_mem_nil
  left _ hr := absurd hr List.not_mem_nil
  plain _ hr := absurd hr List.not_mem_nil
  queued := rfl
  queued_nodup := List.nodup_nil
  queued_lt _ hc := absurd hc List.not_mem_nil
  returned _ hc := absurd hc List.not_mem_nil
  single _ := Nat.zero_le 1
  quiet _ := rfl
  stage _ := trivial
  alone _ _ _ h := by cases h

theorem alone_update {stage : Slot → Stage} {st : Stage}
    (halone : ∀ p q n, begun (stage p) = some n → begun (stage q) = some n → p = q)
    (hbegun : ∀ n q, begun st = some n → begun (stage q) = some n → q = p) (q q' : Slot) (n : ℕ)
    (hq : begun (Function.update stage p st q) = some n)
    (hq' : begun (Function.update stage p st q') = some n) : q = q' := by
  by_cases hqp : q = p
  · by_cases hqp' : q' = p
    · exact hqp.trans hqp'.symm
    · rw [hqp, Function.update_self] at hq
      rw [Function.update_of_ne hqp'] at hq'
      exact hqp.trans (hbegun n q' hq hq').symm
  · by_cases hqp' : q' = p
    · rw [Function.update_of_ne hqp] at hq
      rw [hqp', Function.update_self] at hq'
      exact (hbegun n q hq' hq).trans hqp'.symm
    · rw [Function.update_of_ne hqp] at hq
      rw [Function.update_of_ne hqp'] at hq'
      exact halone q q' n hq hq'

theorem QueueInv.setStage (h : s.QueueInv d Q) (st : Stage) (hst : s.StageInv d Q st)
    (hbegun : ∀ n q, begun st = some n → begun (s.stage q) = some n → q = p) :
    (s.setStage p st).QueueInv d Q := by
  refine ⟨h.follows, h.nodup, h.live, h.left, h.plain, h.queued, h.queued_nodup, h.queued_lt,
    h.returned, h.single, h.quiet, ?_, ?_⟩
  · intro q
    change s.StageInv d Q (Function.update s.stage p st q)
    by_cases hqp : q = p
    · subst hqp
      rw [Function.update_self]
      exact hst
    · rw [Function.update_of_ne hqp]
      exact h.stage q
  · exact alone_update h.alone hbegun

theorem QueueInv.return0 (h : s.QueueInv d Q) (hwhole : s.Whole n) :
    (s.return0 p n).QueueInv d Q := by
  have hidle := h.setStage (p := p) .idle trivial (fun _ _ hnone => by cases hnone)
  refine ⟨hidle.follows, hidle.nodup, hidle.live, hidle.left, hidle.plain, hidle.queued,
    hidle.queued_nodup, hidle.queued_lt, ?_, hidle.single, hidle.quiet, hidle.stage,
    hidle.alone⟩
  intro n' hn'
  rcases List.mem_append.mp hn' with hold | hnew
  · exact h.returned n' hold
  · rw [List.mem_singleton.mp hnew]
    exact hwhole

/-- Interrupts to come, the descriptor and waiting handlers do not matter. -/
theorem QueueInv.aside (h : s.QueueInv d Q) (dma : DmaTransfer) (pending : ℕ)
    (frames : Slot → List ReqSlot) :
    { s with dma := dma, pending := pending, frames := frames }.QueueInv d Q :=
  ⟨h.follows, h.nodup, h.live, h.left, h.plain, h.queued, h.queued_nodup, h.queued_lt,
    h.returned, h.single, h.quiet, h.stage, h.alone⟩

/-! ## Calls -/

theorem QueueInv.number_queued (h : s.QueueInv d Q) (hr : r ∈ Q) :
    (s.reqs r).number ∈ s.queued := by
  rw [h.queued]
  exact List.mem_append_right _ (List.mem_map_of_mem hr)

theorem QueueInv.begun_lt (h : s.QueueInv d Q) (hc : begun (s.stage q) = some n) :
    n < s.built := by
  have hq := h.stage q
  cases hstage : s.stage q with
  | built n' r a =>
      rw [hstage] at hc hq
      obtain rfl := Option.some.inj hc
      exact hq.2.2.2.1
  | walked n' r a t =>
      rw [hstage] at hc hq
      obtain rfl := Option.some.inj hc
      exact hq.2.2.2.1
  | first n' r a =>
      rw [hstage] at hc hq
      obtain rfl := Option.some.inj hc
      obtain ⟨hhead, hnumber, -⟩ := hq
      rw [← hnumber]
      exact h.queued_lt _ (h.number_queued (List.mem_of_mem_head? hhead))
  | idle | called _ | found _ _ | started _ | waiting _ _ =>
      rw [hstage] at hc
      cases hc

/-- A process that goes on with its call keeps its number to itself. -/
theorem QueueInv.begun_alone (h : s.QueueInv d Q) (hp : begun (s.stage p) = some n) :
    ∀ n' q, some n = some n' → begun (s.stage q) = some n' → q = p := by
  rintro n' q hc hq
  obtain rfl := Option.some.inj hc
  exact h.alone q p n hq hp

/-- A stage that finds its queue and the requests as they were. -/
theorem StageInv.keep {st : Stage} (h : s.StageInv d Q st)
    (hout : ∀ r ∉ Q, (s.reqs r).dev = true →
      ∃ e k, s'.reqs r = { s.reqs r with error := e, retry := k })
    (hin : ∀ r ∈ Q, (s'.reqs r).number = (s.reqs r).number) (hbuilt : s.built ≤ s'.built)
    (hqueued : s'.queued = s.queued) (hintr : s'.driveIntr = s.driveIntr)
    (hcompleted : s'.completed = s.completed)
    (herror : ∀ r, own st = some r → d = .dma → (s.reqs r).error = true →
      (s'.reqs r).error = true) : s'.StageInv d Q st := by
  have hdone : ∀ n r, own st = some r → s.Done d n r → s'.Done d n r := by
    rintro n r hr (hwhole | ⟨hd, he⟩)
    · left
      unfold Whole
      rw [hcompleted]
      exact hwhole
    · exact Or.inr ⟨hd, herror r hr hd he⟩
  cases st with
  | idle | called _ | found _ _ => trivial
  | built n r a | walked n r a o =>
      obtain ⟨hr, hlive, hnumber, hlt, hnot, hrest⟩ := h
      obtain ⟨e, k, hsame⟩ := hout r hr hlive
      change s'.Apart d Q n r
      unfold Apart
      rw [hsame, hqueued]
      exact ⟨hr, hlive, hnumber, hlt.trans_le hbuilt, hnot, hrest⟩
  | first n r a =>
      obtain ⟨hhead, hnumber, hquiet⟩ := h
      exact ⟨hhead, (hin r (List.mem_of_head? hhead)).trans hnumber, hintr.trans hquiet⟩
  | started n r a =>
      exact h.imp (hdone n r rfl) fun ⟨hhead, hnumber⟩ =>
        ⟨hhead, (hin r (List.mem_of_head? hhead)).trans hnumber⟩
  | waiting n r a w =>
      exact h.imp (hdone n r rfl) fun ⟨hw, hr, hnumber⟩ => ⟨hw, hr, (hin r hr).trans hnumber⟩

theorem QueueInv.build (h : s.QueueInv d Q) {a : Args} (hdev : (s.reqs r).dev = false)
    (hseen : d = .dma → (s.reqs r).error = true → ∀ q, own (s.stage q) ≠ some r)
    (hplain : ¬ (d = .pio ∧ a.rw = .write ∧ a.lba ≤ maxLba28)) :
    ({ s.modify r fun _ => a.request s.built with
      built := s.built + 1 }.setStage p (.built s.built r a)).QueueInv d Q := by
  have hr : r ∉ Q := fun hmem => by
    rw [h.live r hmem] at hdev
    cases hdev
  have hother : ∀ r' ≠ r, Function.update s.reqs r (a.request s.built) r' = s.reqs r' :=
    fun r' hne => Function.update_of_ne hne ..
  have hlive : ∀ r', (s.reqs r').dev = true →
      Function.update s.reqs r (a.request s.built) r' = s.reqs r' := by
    intro r' hr'
    apply hother
    rintro rfl
    rw [hr'] at hdev
    cases hdev
  have hQ : ∀ r' ∈ Q, Function.update s.reqs r (a.request s.built) r' = s.reqs r' :=
    fun r' hr' => hlive r' (h.live r' hr')
  have hfilled : { s.modify r fun _ => a.request s.built with
      built := s.built + 1 }.QueueInv d Q := by
    refine ⟨?_, h.nodup, ?_, ?_, ?_, ?_, h.queued_nodup, ?_, h.returned, h.single, h.quiet, ?_,
      h.alone⟩
    · exact h.follows.congr fun r' hr' => congrArg Request.next (hQ r' hr')
    · intro r' hr'
      exact (congrArg Request.dev (hQ r' hr')).trans (h.live r' hr')
    · intro r' hr'
      have hleft := h.left r' hr'
      rw [← hQ r' hr'] at hleft
      exact hleft
    · intro r' hr'
      have hsame := h.plain r' hr'
      rw [← hQ r' hr'] at hsame
      exact hsame
    · refine h.queued.trans (congrArg _ (List.map_congr_left fun r' hr' => ?_))
      exact (congrArg Request.number (hQ r' hr')).symm
    · intro n hn
      exact Nat.lt_succ_of_lt (h.queued_lt n hn)
    · intro q
      refine (h.stage q).keep ?_ ?_ (Nat.le_succ _) rfl rfl rfl ?_
      · exact fun r' _ hr' => ⟨_, _, hlive r' hr'⟩
      · exact fun r' hr' => congrArg Request.number (hQ r' hr')
      · intro r' hown hd herror
        have hne : r' ≠ r := by
          rintro rfl
          exact hseen hd herror q hown
        exact (congrArg Request.error (hother r' hne)).trans herror
  have hleft : (a.request s.built).Left := ⟨rfl, BitVec.add_zero a.count⟩
  refine hfilled.setStage _ ?_ ?_
  · have hnew : Function.update s.reqs r (a.request s.built) r = a.request s.built :=
      Function.update_self ..
    unfold StageInv Apart modify
    dsimp only
    rw [hnew]
    exact ⟨hr, rfl, rfl, Nat.lt_succ_self _, fun hn => absurd (h.queued_lt _ hn) (lt_irrefl _),
      rfl, hleft, hplain⟩
  · intro n q hn hq
    obtain rfl := Option.some.inj hn
    exact absurd (h.begun_lt hq) (lt_irrefl _)

theorem QueueInv.walk (h : s.QueueInv d Q) {a : Args} (hp : s.stage p = .built n r a)
    (o : Option ReqSlot) : (s.setStage p (.walked n r a o)).QueueInv d Q := by
  have hbuilt := h.stage p
  have hpbegun : begun (s.stage p) = some n := by
    rw [hp]
    rfl
  rw [hp] at hbuilt
  exact h.setStage _ hbuilt (h.begun_alone hpbegun)

/-- The queue with a request that is linked behind it, whichever link that takes. -/
theorem QueueInv.linked (h : s.QueueInv d Q) {a : Args} (hp : s.stage p = .walked n r a o)
    (reqs : ReqSlot → Request) (current : Option ReqSlot)
    (hfollows : Follows (fun r => (reqs r).next) current (Q ++ [r]))
    (hsame : ∀ r', reqs r' = { s.reqs r' with next := (reqs r').next })
    (hnext : ∀ r' ∉ Q, (reqs r').next = (s.reqs r').next) (hsingle : d = .dma → Q = [])
    {st : Stage}
    (hst : StageInv { s with reqs := reqs, current := current, queued := s.queued ++ [n] } d
      (Q ++ [r]) st)
    (hbegun : ∀ n q, begun st = some n → begun (s.stage q) = some n → q = p) :
    ({ s with reqs := reqs, current := current, queued := s.queued ++ [n] }.setStage p
      st).QueueInv d (Q ++ [r]) := by
  have hbuilt := h.stage p
  rw [hp] at hbuilt
  obtain ⟨hr, hlive, hmine, hlt, hnot, -, hleft, hplain⟩ := hbuilt
  have hdev : ∀ r', (reqs r').dev = (s.reqs r').dev := fun r' => by rw [hsame r']
  have hnumber : ∀ r', (reqs r').number = (s.reqs r').number := fun r' => by rw [hsame r']
  have herror : ∀ r', (reqs r').error = (s.reqs r').error := fun r' => by rw [hsame r']
  have hmem : ∀ r' ∈ Q ++ [r], r' ∈ Q ∨ r' = r := by
    intro r' hr'
    rw [List.mem_append, List.mem_singleton] at hr'
    exact hr'
  have hpbegun : begun (s.stage p) = some n := by
    rw [hp]
    rfl
  refine ⟨hfollows, ?_, ?_, ?_, ?_, ?_, ?_, ?_, h.returned, ?_, ?_, ?_, ?_⟩
  · rw [List.nodup_append]
    refine ⟨h.nodup, List.nodup_singleton r, fun a ha b hb => ?_⟩
    rw [List.mem_singleton.mp hb]
    rintro rfl
    exact hr ha
  · intro r' hr'
    refine (hdev r').trans ?_
    rcases hmem r' hr' with hold | rfl
    · exact h.live r' hold
    · exact hlive
  · intro r' hr'
    change (reqs r').Left
    rw [hsame r']
    rcases hmem r' hr' with hold | rfl
    · exact h.left r' hold
    · exact hleft
  · intro r' hr'
    change ¬ (d = .pio ∧ (reqs r').sendsFirst)
    rw [hsame r']
    rcases hmem r' hr' with hold | rfl
    · exact h.plain r' hold
    · exact hplain
  · change s.queued ++ [n] =
      s.completed.map Completion.number ++ (Q ++ [r]).map fun r => (reqs r).number
    simp only [hnumber]
    rw [List.map_append, List.map_singleton, hmine, ← List.append_assoc, ← h.queued]
  · change (s.queued ++ [n]).Nodup
    rw [List.nodup_append]
    refine ⟨h.queued_nodup, List.nodup_singleton n, fun a ha b hb => ?_⟩
    rw [List.mem_singleton.mp hb]
    rintro rfl
    exact hnot ha
  · intro n' hn'
    rcases List.mem_append.mp hn' with hold | hnew
    · exact h.queued_lt n' hold
    · rw [List.mem_singleton.mp hnew]
      exact hlt
  · intro hd
    rw [hsingle hd]
    rfl
  · intro hnil
    exact absurd hnil (List.append_ne_nil_of_right_ne_nil Q (List.cons_ne_nil r []))
  · intro q
    change StageInv _ d (Q ++ [r]) (Function.update s.stage p st q)
    by_cases hqp : q = p
    · rw [hqp, Function.update_self]
      exact hst
    · rw [Function.update_of_ne hqp]
      have hq := h.stage q
      have hhead : ∀ r', Q.head? = some r' → (Q ++ [r]).head? = some r' := by
        intro r' hr'
        rw [List.head?_append, hr']
        rfl
      have hdone : ∀ n' r', s.Done d n' r' →
          Done { s with reqs := reqs, current := current, queued := s.queued ++ [n] } d n' r' :=
        fun n' r' => Or.imp id fun ⟨hd, he⟩ => ⟨hd, (herror r').trans he⟩
      cases hstage : s.stage q with
      | idle | called _ | found _ _ => trivial
      | built n' r' a' | walked n' r' a' o' =>
          rw [hstage] at hq
          obtain ⟨hr', hlive', hmine', hlt', hnot', hnone', hrest'⟩ := hq
          have hnumbers : n' ≠ n := by
            rintro rfl
            exact hqp (h.alone q p n' (by rw [hstage]; rfl) hpbegun)
          have hslots : r' ≠ r := by
            rintro rfl
            exact hnumbers (hmine'.symm.trans hmine)
          change r' ∉ Q ++ [r] ∧ (reqs r').dev = true ∧ (reqs r').number = n' ∧ n' < s.built ∧
            n' ∉ s.queued ++ [n] ∧ (reqs r').next = none ∧ (reqs r').Left ∧
            ¬ (d = .pio ∧ (reqs r').sendsFirst)
          rw [hsame r', hnext r' hr']
          refine ⟨fun hmem' => ?_, hlive', hmine', hlt', fun hmem' => ?_, hnone', hrest'⟩
          · exact (hmem r' hmem').elim hr' hslots
          · rcases List.mem_append.mp hmem' with hold | hnew
            · exact hnot' hold
            · exact hnumbers (List.mem_singleton.mp hnew)
      | first n' r' a' =>
          rw [hstage] at hq
          exact ⟨hhead r' hq.1, (hnumber r').trans hq.2.1, hq.2.2⟩
      | started n' r' a' =>
          rw [hstage] at hq
          exact hq.imp (hdone n' r') fun ⟨hfirst, hmine'⟩ =>
            ⟨hhead r' hfirst, (hnumber r').trans hmine'⟩
      | waiting n' r' a' w =>
          rw [hstage] at hq
          exact hq.imp (hdone n' r') fun ⟨hw, hr', hmine'⟩ =>
            ⟨hw, List.mem_append_left _ hr', (hnumber r').trans hmine'⟩
  · exact alone_update h.alone hbegun

theorem QueueInv.tail_eq (h : s.QueueInv d Q) : s.tail = Q.getLast? := by
  unfold tail
  rw [h.current]
  have hfollows := h.follows
  rw [h.current] at hfollows
  cases Q with
  | nil => rfl
  | cons a l =>
      have hlength : (a :: l).length ≤ ataMaxRequests + 1 := by
        have hcard := h.nodup.length_le_card
        rw [Fintype.card_fin] at hcard
        omega
      exact (hfollows.walkLast hlength).symm

theorem QueueInv.link (h : s.QueueInv d Q) (hsafe : s.SafeStep d (.link p))
    (hstep : s.callStep d (.link p) = some s') : ∃ Q, s'.QueueInv d Q := by
  cases hp : s.stage p with
  | walked n r a o =>
      simp only [SafeStep, hp] at hsafe
      simp only [AtaQueue.callStep, hp] at hstep
      obtain ⟨htail, hdma⟩ := hsafe
      rw [h.tail_eq] at htail
      have hbuilt := h.stage p
      rw [hp] at hbuilt
      obtain ⟨hr, hlive, hnumber, -, -, hnone, -⟩ := hbuilt
      have hpbegun : begun (s.stage p) = some n := by
        rw [hp]
        rfl
      cases o with
      | none =>
          obtain rfl := Option.some.inj hstep
          have hnil : Q = [] := List.getLast?_eq_none_iff.mp htail
          subst hnil
          refine ⟨[] ++ [r], h.linked hp s.reqs (some r) ⟨rfl, hnone⟩
            (fun _ => rfl) (fun _ _ => rfl) (fun _ => rfl) ?_ (h.begun_alone hpbegun)⟩
          exact ⟨rfl, hnumber, h.quiet rfl⟩
      | some t =>
          have hpio : d ≠ .dma := fun hd => by cases hdma hd
          simp only [if_neg hpio] at hstep
          obtain rfl := Option.some.inj hstep
          have htQ : t ∈ Q := List.mem_of_getLast? htail
          have hrt : ∀ r' ∉ Q, r' ≠ t := fun r' hr' heq => hr' (heq ▸ htQ)
          have hnexts : (fun r' => (Function.update s.reqs t
              { s.reqs t with next := some r } r').next) = Function.update s.next t (some r) := by
            funext r'
            by_cases hr' : r' = t
            · rw [hr', Function.update_self, Function.update_self]
            · rw [Function.update_of_ne hr', Function.update_of_ne hr']
              rfl
          refine ⟨Q ++ [r], h.linked hp
            (Function.update s.reqs t { s.reqs t with next := some r }) s.current ?_ ?_ ?_
            (fun hd => absurd hd hpio) ?_ ?_⟩
          · rw [hnexts]
            exact h.follows.concat h.nodup htail hr hnone
          · intro r'
            by_cases hr' : r' = t
            · rw [hr', Function.update_self]
            · rw [Function.update_of_ne hr']
          · intro r' hr'
            rw [Function.update_of_ne (hrt r' hr')]
          · refine Or.inr ⟨rfl, List.mem_append_right _ (List.mem_singleton_self r), ?_⟩
            change (Function.update s.reqs t { s.reqs t with next := some r } r).number = n
            rw [Function.update_of_ne (hrt r hr)]
            exact hnumber
          · intro n' q hnothing
            cases hnothing
  | idle | called _ | found _ _ | built _ _ _ | first _ _ _ | started _ _ _ | waiting _ _ _ _ =>
      simp only [AtaQueue.callStep, hp] at hstep
      cases hstep


/-- A step that changes of a request only what its transfer is about. -/
theorem QueueInv.touch (h : s.QueueInv d Q) {x : Request}
    (hsame : x = { s.reqs r with
      count := x.count, buf := x.buf, error := x.error, retry := x.retry, moved := x.moved })
    (hleft : r ∈ Q → x.Left)
    (hout : r ∉ Q → x = { s.reqs r with error := x.error, retry := x.retry })
    (herror : d = .dma → (s.reqs r).error = true → x.error = true) :
    { s with reqs := Function.update s.reqs r x }.QueueInv d Q := by
  have hother : ∀ r' ≠ r, Function.update s.reqs r x r' = s.reqs r' :=
    fun r' hne => Function.update_of_ne hne ..
  have hself : Function.update s.reqs r x r = x := Function.update_self ..
  have hkept : ∀ r', Function.update s.reqs r x r' = { s.reqs r' with
      count := (Function.update s.reqs r x r').count
      buf := (Function.update s.reqs r x r').buf
      error := (Function.update s.reqs r x r').error
      retry := (Function.update s.reqs r x r').retry
      moved := (Function.update s.reqs r x r').moved } := by
    intro r'
    by_cases hne : r' = r
    · rw [hne, hself]
      exact hsame
    · rw [hother r' hne]
  have hnumber : ∀ r', (Function.update s.reqs r x r').number = (s.reqs r').number := fun r' => by
    rw [hkept r']
  refine ⟨?_, h.nodup, ?_, ?_, ?_, ?_, h.queued_nodup, h.queued_lt, h.returned, h.single, h.quiet,
    ?_, h.alone⟩
  · refine h.follows.congr fun r' _ => ?_
    change (Function.update s.reqs r x r').next = (s.reqs r').next
    rw [hkept r']
  · intro r' hr'
    change (Function.update s.reqs r x r').dev = true
    rw [hkept r']
    exact h.live r' hr'
  · intro r' hr'
    change (Function.update s.reqs r x r').Left
    by_cases hne : r' = r
    · subst hne
      rw [hself]
      exact hleft hr'
    · rw [hother r' hne]
      exact h.left r' hr'
  · intro r' hr'
    change ¬ (d = .pio ∧ (Function.update s.reqs r x r').sendsFirst)
    rw [hkept r']
    exact h.plain r' hr'
  · refine h.queued.trans (congrArg _ (List.map_congr_left fun r' _ => ?_))
    exact (hnumber r').symm
  · intro q
    refine (h.stage q).keep ?_ (fun r' _ => hnumber r') le_rfl rfl rfl rfl ?_
    · intro r' hr' _
      change ∃ e k, Function.update s.reqs r x r' = _
      by_cases hne : r' = r
      · subst hne
        rw [hself]
        exact ⟨_, _, hout hr'⟩
      · rw [hother r' hne]
        exact ⟨_, _, rfl⟩
    · intro r' _ hd he
      change (Function.update s.reqs r x r').error = true
      by_cases hne : r' = r
      · subst hne
        rw [hself]
        exact herror hd he
      · rw [hother r' hne]
        exact he

theorem QueueInv.transfer (h : s.QueueInv d Q) (hr : r ∈ Q) (k : ℕ) :
    (s.transfer r k).QueueInv d Q := by
  refine h.touch rfl (fun _ => ?_) (fun hout => absurd hr hout) fun _ => id
  obtain ⟨hmoved, hrest⟩ := h.left r hr
  have happend := List.range'_append_1 (s := 0) (m := (s.reqs r).buf) (n := k)
  rw [Nat.zero_add] at happend
  constructor
  · change _ ++ _ = List.range (_ + k)
    rw [hmoved, List.range_eq_range', List.range_eq_range', happend]
  · rw [← hrest]
    change _ - _ + BitVec.ofNat 32 (_ + k) = _
    rw [BitVec.ofNat_add, BitVec.add_comm (BitVec.ofNat 32 _), ← BitVec.add_assoc,
      BitVec.sub_add_cancel]

/-- An error of a request that is noted, or with the PIO driver forgotten. -/
theorem QueueInv.note (h : s.QueueInv d Q) (r : ReqSlot) (e : Bool) (k : ℕ)
    (he : d = .dma → (s.reqs r).error = true → e = true) :
    (s.modify r fun x => { x with error := e, retry := k }).QueueInv d Q :=
  h.touch rfl (fun hr => h.left r hr) (fun _ => rfl) he

/-! ## The end of a call -/

theorem QueueInv.callEnd (h : s.QueueInv d Q) {a : Args}
    (hdone : s.Whole n ∨ (s.reqs r).error = true) : (s.callEnd d p n r a).QueueInv d Q := by
  unfold AtaQueue.callEnd
  split
  next =>
    split
    next hretry =>
      have hpio : d ≠ .dma := by
        rw [hretry.1]
        exact Driver.noConfusion
      have hforgot := h.note r false (s.reqs r).retry fun hd => absurd hd hpio
      exact hforgot.setStage _ trivial fun _ _ hnone => by cases hnone
    next => exact h.setStage _ trivial fun _ _ hnone => by cases hnone
  next hnoError => exact h.return0 (hdone.resolve_right hnoError)

/-! ## Commands -/

theorem QueueInv.startRequest (h : s.QueueInv d Q) (hr : r ∈ Q) (hintr : s.driveIntr = true)
    (errors : ℕ) : (s.startRequest d r errors).1.QueueInv d Q := by
  have hstarted : { s with driveIntr := true, pending := 0 }.QueueInv d Q := by
    rw [← hintr]
    exact h.aside s.dma 0 s.frames
  have hplain := h.plain r hr
  cases d with
  | dma =>
      have hset := hstarted.aside (s.reqs r).transfer 0 s.frames
      have hnoted := hset.note r ((s.reqs r).error || 0 < errors)
        ((s.reqs r).retry + min errors (ataMaxError - (s.reqs r).retry)) fun _ he => by
          change (s.reqs r).error = true at he
          rw [he]
          rfl
      unfold AtaQueue.startRequest
      dsimp only
      split
      next => exact hnoted
      next => exact hnoted.aside (s.reqs r).transfer 1 s.frames
  | pio =>
      unfold AtaQueue.startRequest
      dsimp only
      split
      next => exact hstarted.note r true _ fun hd => by cases hd
      next =>
        rw [if_neg fun hfirst => hplain ⟨rfl, hfirst⟩]
        exact hstarted.aside s.dma _ s.frames

/-- When there is nothing to wait for, the request has an error. -/
theorem startRequest_error (hplain : ¬ (d = .pio ∧ (s.reqs r).sendsFirst)) (errors : ℕ)
    (hresult : (s.startRequest d r errors).2 = false) :
    ((s.startRequest d r errors).1.reqs r).error = true := by
  cases d with
  | dma =>
      unfold AtaQueue.startRequest at hresult ⊢
      dsimp only at hresult ⊢
      split at hresult
      next hmany =>
        rw [if_pos hmany]
        change (Function.update s.reqs r _ r).error = true
        rw [Function.update_self]
        have hsome : 0 < errors := by omega
        simp [hsome]
      next => cases hresult
  | pio =>
      unfold AtaQueue.startRequest at hresult ⊢
      dsimp only at hresult ⊢
      split at hresult
      next hsome =>
        rw [if_pos hsome]
        change (Function.update s.reqs r _ r).error = true
        rw [Function.update_self]
      next =>
        rw [if_neg fun hfirst => hplain ⟨rfl, hfirst⟩] at hresult
        cases hresult

@[simp] theorem setStage_setStage (s : AtaQueue) (p : Slot) (st st' : Stage) :
    (s.setStage p st).setStage p st' = s.setStage p st' := by
  unfold setStage
  dsimp only
  rw [Function.update_idem]

@[simp] theorem callEnd_setStage (s : AtaQueue) (d : Driver) (p : Slot) (st : Stage) (n : ℕ)
    (r : ReqSlot) (a : Args) : (s.setStage p st).callEnd d p n r a = s.callEnd d p n r a := by
  unfold AtaQueue.callEnd
  change (if (s.reqs r).error = true then _ else _) = _
  refine if_congr Iff.rfl (if_congr Iff.rfl ?_ ?_) ?_
  · exact setStage_setStage (s.modify r fun x => { x with error := false }) p st _
  · exact setStage_setStage s p st _
  · unfold AtaQueue.return0
    rw [setStage_setStage]
    rfl

theorem startRequest_setStage (hplain : ¬ (d = .pio ∧ (s.reqs r).sendsFirst)) (p : Slot)
    (st : Stage) (errors : ℕ) :
    ({ s with driveIntr := true }.setStage p st).startRequest d r errors =
      ((s.startRequest d r errors).1.setStage p st, (s.startRequest d r errors).2) := by
  cases d with
  | dma =>
      unfold AtaQueue.startRequest
      dsimp only
      by_cases hmany : ataMaxError - (s.reqs r).retry < errors
      · rw [if_pos hmany]
        exact if_pos hmany
      · rw [if_neg hmany]
        exact if_neg hmany
  | pio =>
      unfold AtaQueue.startRequest
      dsimp only
      by_cases hsome : 0 < errors
      · rw [if_pos hsome, if_pos hsome]
        rfl
      · rw [if_neg hsome, if_neg hsome]
        have hrest : ¬ (s.reqs r).sendsFirst := fun hfirst => hplain ⟨rfl, hfirst⟩
        rw [if_neg hrest]
        exact if_neg hrest

theorem QueueInv.leaveFirst (h : s.QueueInv d Q) {a : Args} (hp : s.stage p = .first n r a) :
    ({ s with driveIntr := true }.setStage p (.started n r a)).QueueInv d Q := by
  have hpbegun : begun (s.stage p) = some n := by
    rw [hp]
    rfl
  have hfirst := h.stage p
  rw [hp] at hfirst
  obtain ⟨hhead, hnumber, -⟩ := hfirst
  refine ⟨h.follows, h.nodup, h.live, h.left, h.plain, h.queued, h.queued_nodup, h.queued_lt,
    h.returned, h.single, ?_, ?_, alone_update h.alone fun _ _ hnone => by cases hnone⟩
  · rintro rfl
    cases hhead
  · intro q
    change StageInv _ d Q (Function.update s.stage p (.started n r a) q)
    by_cases hqp : q = p
    · rw [hqp, Function.update_self]
      exact Or.inr ⟨hhead, hnumber⟩
    · rw [Function.update_of_ne hqp]
      have hq := h.stage q
      cases hstage : s.stage q with
      | first n' r' a' =>
          -- the calls of both have the request at the head
          rw [hstage] at hq
          obtain ⟨hhead', hnumber', -⟩ := hq
          obtain rfl : r = r' := Option.some.inj (hhead.symm.trans hhead')
          have hqbegun : begun (s.stage q) = some n := by
            rw [hstage, ← hnumber, ← hnumber']
            rfl
          exact absurd (h.alone q p n hqbegun hpbegun) hqp
      | idle | called _ | found _ _ | built _ _ _ | walked _ _ _ _ | started _ _ _
      | waiting _ _ _ _ =>
          rw [hstage] at hq
          exact hq

theorem QueueInv.start (h : s.QueueInv d Q) {a : Args} (hp : s.stage p = .first n r a)
    (errors : ℕ) : ((s.startRequest d r errors).1.setStage p (.started n r a)).QueueInv d Q := by
  have hfirst := h.stage p
  rw [hp] at hfirst
  have hmem := List.mem_of_head? hfirst.1
  have hstart := (h.leaveFirst hp).startRequest hmem rfl errors
  rw [startRequest_setStage (h.plain r hmem)] at hstart
  exact hstart

/-- After its start a request is waited for, by the one who sees it at the head. -/
theorem QueueInv.awaits (h : s.QueueInv d Q) {a : Args} (hp : s.stage p = .started n r a)
    (hw : Q.head? = some w) : (s.setStage p (.waiting n r a w)).QueueInv d Q := by
  have hstarted := h.stage p
  rw [hp] at hstarted
  refine h.setStage _ ?_ fun _ _ hnone => by cases hnone
  refine hstarted.imp id fun ⟨hhead, hnumber⟩ => ?_
  obtain rfl : r = w := Option.some.inj (hhead.symm.trans hw)
  exact ⟨rfl, List.mem_of_head? hhead, hnumber⟩

/-! ## Transfers by DMA -/

/-- The requests fit, and while a handler is set the descriptor is that of the current one. -/
structure DmaReady (s : AtaQueue) : Prop where
  fits : ∀ r, (s.reqs r).dev = true → FitsDma (s.reqs r).rw (s.reqs r).count
  set : s.driveIntr = true → ∀ r ∈ s.current, s.dma = (s.reqs r).transfer

theorem transfer_moved {x : Request} (h : FitsDma x.rw x.count) :
    x.transfer.moved = x.count.toNat := by
  obtain ⟨hmost, hends⟩ := h
  have hbytes : (x.count * BitVec.ofNat 32 sectorSize).toNat = x.count.toNat * 512 := by
    rw [BitVec.toNat_mul, BitVec.toNat_ofNat]
    unfold sectorSize
    omega
  have hbcount : x.transfer.bcount.toNat = x.count.toNat * 512 % 2 ^ 16 := by
    unfold Request.transfer
    rw [BitVec.toNat_setWidth, hbytes]
  have hsectors : x.count.toNat ≤ x.transfer.sectors := by
    change _ ≤ x.sectors
    unfold Request.sectors commandSectors
    split <;> split <;> omega
  unfold DmaTransfer.moved
  cases hrw : x.rw with
  | read =>
      rw [hrw, if_pos rfl] at hends
      have hread : x.transfer.rw = .read := hrw
      rw [hread, hbcount]
      dsimp only
      unfold sectorSize
      omega
  | write =>
      rw [hrw, if_neg Rw.noConfusion] at hends
      have hwrite : x.transfer.rw = .write := hrw
      have hzero : x.transfer.bcount = 0 ↔ x.count.toNat = 128 := by
        rw [← BitVec.toNat_inj, hbcount]
        change _ = 0 ↔ _
        omega
      rw [hwrite, hbcount]
      dsimp only
      unfold sectorSize
      by_cases hfull : x.count.toNat = 128
      · rw [if_pos (hzero.mpr hfull)]
        omega
      · rw [if_neg fun hz => hfull (hzero.mp hz)]
        omega

theorem DmaReady.moved (h : s.DmaReady) (hcurrent : s.current = some r)
    (hintr : s.driveIntr = true) (hlive : (s.reqs r).dev = true) :
    s.dma.moved = (s.reqs r).count.toNat := by
  rw [h.set hintr r hcurrent]
  exact transfer_moved (h.fits r hlive)

/-! ## Handlers -/

/-- The request at the head is taken off, with all its sectors moved or with an error. -/
theorem QueueInv.finish (h : s.QueueInv d (r :: Q)) (hintr : s.driveIntr = true)
    (hdone : AllMoved (s.reqs r).moved (s.reqs r).asked ∨ d = .dma ∧ (s.reqs r).error = true)
    {b : Bool} (hb : Q = [] → b = false) :
    { s.finish r true with driveIntr := b }.QueueInv d Q := by
  obtain ⟨hrQ, hnodup⟩ := List.nodup_cons.mp h.nodup
  have hother : ∀ r' ≠ r, (s.finish r true).reqs r' = s.reqs r' :=
    fun r' hne => Function.update_of_ne hne ..
  have hself : (s.finish r true).reqs r = { s.reqs r with dev := false } := Function.update_self ..
  have hQ : ∀ r' ∈ Q, (s.finish r true).reqs r' = s.reqs r' :=
    fun r' hr' => hother r' fun heq => hrQ (heq ▸ hr')
  have hcompleted : (s.finish r true).completed.map Completion.number =
      s.completed.map Completion.number ++ [(s.reqs r).number] := List.map_append ..
  have hwhole : ∀ n, s.Whole n → (s.finish r true).Whole n := fun n ⟨x, hx, hrest⟩ =>
    ⟨x, List.mem_append_left _ hx, hrest⟩
  have hkept : ∀ n r', s.Done d n r' → (s.finish r true).Done d n r' := by
    rintro n r' (hn | ⟨hd, he⟩)
    · exact Or.inl (hwhole n hn)
    · right
      refine ⟨hd, ?_⟩
      by_cases hne : r' = r
      · rw [hne] at he
        rw [hne, hself]
        exact he
      · rw [hother r' hne]
        exact he
  have hhead : (s.finish r true).Done d (s.reqs r).number r := by
    refine hdone.imp (fun hmoved => ?_) fun ⟨hd, he⟩ => ⟨hd, ?_⟩
    · exact ⟨_, List.mem_append_right _ (List.mem_singleton_self _), rfl, rfl, hmoved⟩
    · rw [hself]
      exact he
  refine ⟨?_, hnodup, ?_, ?_, ?_, ?_, h.queued_nodup, h.queued_lt, ?_, ?_, hb, ?_, h.alone⟩
  · exact h.follows.2.congr fun r' hr' => congrArg Request.next (hQ r' hr')
  · intro r' hr'
    exact (congrArg Request.dev (hQ r' hr')).trans (h.live r' (List.mem_cons_of_mem r hr'))
  · intro r' hr'
    have hleft := h.left r' (List.mem_cons_of_mem r hr')
    rw [← hQ r' hr'] at hleft
    exact hleft
  · intro r' hr'
    have hplain := h.plain r' (List.mem_cons_of_mem r hr')
    rw [← hQ r' hr'] at hplain
    exact hplain
  · change s.queued = (s.finish r true).completed.map Completion.number ++
      Q.map fun r' => ((s.finish r true).reqs r').number
    rw [hcompleted, List.append_assoc, h.queued]
    refine congrArg (_ ++ (s.reqs r).number :: ·) (List.map_congr_left fun r' hr' => ?_)
    rw [hQ r' hr']
  · exact fun n hn => hwhole n (h.returned n hn)
  · intro hd
    exact (Nat.le_succ _).trans (h.single hd)
  · intro q
    have hq := h.stage q
    change StageInv _ d Q (s.stage q)
    cases hstage : s.stage q with
    | idle | called _ | found _ _ => trivial
    | built n r' a | walked n r' a o =>
        rw [hstage] at hq
        obtain ⟨hmem, hrest⟩ := hq
        rw [List.mem_cons, not_or] at hmem
        rw [← hother r' hmem.1] at hrest
        exact ⟨hmem.2, hrest⟩
    | first n r' a =>
        rw [hstage] at hq
        rw [hq.2.2] at hintr
        cases hintr
    | started n r' a =>
        rw [hstage] at hq
        left
        rcases hq with hold | ⟨hfirst, rfl⟩
        · exact hkept n r' hold
        · obtain rfl := Option.some.inj hfirst
          exact hhead
    | waiting n r' a w =>
        rw [hstage] at hq
        rcases hq with hold | ⟨hw, hmem, rfl⟩
        · exact Or.inl (hkept n r' hold)
        · rcases List.mem_cons.mp hmem with rfl | hmem
          · exact Or.inl hhead
          · exact Or.inr ⟨hw, hmem, congrArg Request.number (hQ r' hmem)⟩

theorem QueueInv.handlerEnd (h : s.QueueInv d (r :: Q)) (hintr : s.driveIntr = true)
    (hdone : AllMoved (s.reqs r).moved (s.reqs r).asked ∨ d = .dma ∧ (s.reqs r).error = true)
    (errors : ℕ) : (s.handlerEnd d p r errors).QueueInv d Q := by
  have hnext : (s.finish r true).current = Q.head? := h.follows.2.head?
  unfold AtaQueue.handlerEnd
  dsimp only
  split
  next hend =>
    have hnil : Q = [] := List.head?_eq_none_iff.mp (hnext.symm.trans hend)
    subst hnil
    exact h.finish hintr hdone fun _ => rfl
  next r' hr' =>
    have hmem : r' ∈ Q := List.mem_of_head? (hnext.symm.trans hr')
    have hfinish := h.finish hintr hdone (b := true) fun hnil => by
      rw [hnil] at hmem
      cases hmem
    have hstart : ((s.finish r true).startRequest d r' errors).1.QueueInv d Q :=
      hfinish.startRequest hmem rfl errors
    split
    next s' hresult =>
      rw [hresult] at hstart
      exact hstart.aside s'.dma s'.pending _
    next s' result _ hresult =>
      rw [hresult] at hstart
      exact hstart

theorem QueueInv.handler (h : s.QueueInv d Q) (hdma : d = .dma → s.DmaReady)
    (hintr : s.driveIntr = true) {error : Bool} {errors : ℕ} (hstep : s.handler d p error errors = some s') : ∃ Q, s'.QueueInv d Q := by
  unfold AtaQueue.handler at hstep
  rw [h.current] at hstep
  cases Q with
  | nil => cases hstep
  | cons r Q' =>
      cases d with
      | pio =>
          obtain rfl := Option.some.inj hstep
          have hmoved := h.transfer List.mem_cons_self 1
          by_cases hcount : ((s.transfer r 1).reqs r).count = 0
          · rw [if_pos hcount]
            obtain ⟨hall, hrest⟩ := hmoved.left r List.mem_cons_self
            rw [hcount] at hrest
            have hdone := hrest.symm.trans (BitVec.zero_add _)
            exact ⟨Q', hmoved.handlerEnd hintr (Or.inl ⟨_, hall, hdone.symm⟩) errors⟩
          · rw [if_neg hcount]
            exact ⟨r :: Q', hmoved⟩
      | dma =>
          obtain rfl := Option.some.inj hstep
          cases error with
          | true =>
              have hnoted := h.note r true (s.reqs r).retry fun _ _ => rfl
              refine ⟨Q', hnoted.handlerEnd hintr (Or.inr ⟨rfl, ?_⟩) errors⟩
              change (Function.update s.reqs r _ r).error = true
              rw [Function.update_self]
          | false =>
              have hmoved := h.transfer List.mem_cons_self s.dma.moved
              obtain ⟨hall, hrest⟩ := hmoved.left r List.mem_cons_self
              have hcount : ((s.transfer r s.dma.moved).reqs r).count = 0 := by
                rw [(hdma rfl).moved h.current hintr (h.live r List.mem_cons_self)]
                unfold AtaQueue.transfer modify
                dsimp only
                rw [Function.update_self, BitVec.ofNat_toNat, BitVec.setWidth_eq]
                exact BitVec.sub_self _
              rw [hcount] at hrest
              have hdone := hrest.symm.trans (BitVec.zero_add _)
              exact ⟨Q', hmoved.handlerEnd hintr (Or.inl ⟨_, hall, hdone.symm⟩) errors⟩

/-! ## Runs -/

theorem QueueInv.callStep_start (h : s.QueueInv d Q) {errors : ℕ}
    (hstep : s.callStep d (.start p errors) = some s') : ∃ Q, s'.QueueInv d Q := by
  cases hp : s.stage p with
  | first n r a =>
      have hfirst := h.stage p
      rw [hp] at hfirst
      have hcurrent : s.current = some r := h.current.trans hfirst.1
      have hmem := List.mem_of_head? hfirst.1
      have hstart := h.start hp errors
      have hstage : ((s.startRequest d r errors).1.setStage p (.started n r a)).stage p =
          .started n r a := Function.update_self ..
      have hfails := startRequest_error (h.plain r hmem) errors
      simp only [AtaQueue.callStep, hp, hcurrent] at hstep
      cases hresult : s.startRequest d r errors with
      | mk s₁ waits =>
          rw [hresult] at hstart hstage hfails
          cases waits with
          | false =>
              have hend : (s₁.callEnd d p n r a).QueueInv d Q := by
                rw [← callEnd_setStage s₁ d p (.started n r a)]
                exact hstart.callEnd (Or.inr (hfails rfl))
              cases d with
              | dma | pio =>
                  simp only [hresult] at hstep
                  obtain rfl := Option.some.inj hstep
                  exact ⟨Q, hend⟩
          | true =>
              cases d with
              | dma =>
                  simp only [hresult] at hstep
                  obtain rfl := Option.some.inj hstep
                  have hawaits := hstart.awaits hstage hfirst.1
                  rw [setStage_setStage] at hawaits
                  exact ⟨Q, hawaits⟩
              | pio =>
                  simp only [hresult] at hstep
                  obtain rfl := Option.some.inj hstep
                  exact ⟨Q, hstart⟩
  | idle | called _ | found _ _ | built _ _ _ | walked _ _ _ _ | started _ _ _
  | waiting _ _ _ _ =>
      simp only [AtaQueue.callStep, hp] at hstep
      cases hstep

theorem QueueInv.callStep (h : s.QueueInv d Q) (hsafe : s.SafeStep d st)
    (hstep : s.callStep d st = some s') : ∃ Q, s'.QueueInv d Q := by
  cases st with
  | call p a =>
      simp only [AtaQueue.callStep] at hstep
      split at hstep
      next =>
        obtain rfl := Option.some.inj hstep
        exact ⟨Q, h.setStage _ trivial fun _ _ hnone => by cases hnone⟩
      next => cases hstep
  | find p =>
      simp only [AtaQueue.callStep] at hstep
      split at hstep
      next =>
        obtain rfl := Option.some.inj hstep
        exact ⟨Q, h.setStage _ trivial fun _ _ hnone => by cases hnone⟩
      next =>
        obtain rfl := Option.some.inj hstep
        exact ⟨Q, h.setStage _ trivial fun _ _ hnone => by cases hnone⟩
      next => cases hstep
  | build p =>
      simp only [AtaQueue.callStep] at hstep
      split at hstep
      next r a hp =>
        simp only [SafeStep, hp] at hsafe
        obtain ⟨hdev, hseen, hplain, -⟩ := hsafe
        obtain rfl := Option.some.inj hstep
        exact ⟨Q, h.build hdev hseen hplain⟩
      next => cases hstep
  | walk p =>
      simp only [AtaQueue.callStep] at hstep
      split at hstep
      next n r a hp =>
        obtain rfl := Option.some.inj hstep
        exact ⟨Q, h.walk hp _⟩
      next => cases hstep
  | link p => exact h.link hsafe hstep
  | start p errors => exact h.callStep_start hstep
  | readCurrent p =>
      simp only [AtaQueue.callStep] at hstep
      split at hstep
      next n r a w hp hw =>
        obtain rfl := Option.some.inj hstep
        exact ⟨Q, h.awaits hp (h.current.symm.trans hw)⟩
      next => cases hstep
  | check p =>
      simp only [AtaQueue.callStep] at hstep
      split at hstep
      next n r a w hp =>
        obtain rfl := Option.some.inj hstep
        have hwaiting := h.stage p
        rw [hp] at hwaiting
        split
        next => exact ⟨Q, h⟩
        next hfree =>
          have hdone : s.Done d n r := hwaiting.resolve_right fun ⟨hw, hr, _⟩ => by
            rw [hw] at hfree
            exact hfree (h.live r hr)
          exact ⟨Q, h.callEnd (hdone.imp id And.right)⟩
      next => cases hstep
  | interrupt p error errors | unwind p => cases hstep

theorem QueueInv.step (h : s.QueueInv d Q) (hdma : d = .dma → s.DmaReady)
    (hsafe : s.SafeStep d st) (hstep : s.step d st = some s') : ∃ Q, s'.QueueInv d Q := by
  cases st with
  | interrupt p error errors =>
      simp only [AtaQueue.step] at hstep
      split at hstep
      next => cases hstep
      next =>
        have haside := h.aside s.dma (s.pending - 1) s.frames
        split at hstep
        next hintr => exact haside.handler (fun hd => ⟨(hdma hd).fits, (hdma hd).set⟩) hintr hstep
        next =>
          obtain rfl := Option.some.inj hstep
          exact ⟨Q, haside⟩
  | unwind p =>
      simp only [AtaQueue.step] at hstep
      split at hstep
      next r rest hframes =>
        split at hstep
        next => cases hstep
        next =>
          obtain rfl := Option.some.inj hstep
          exact ⟨Q, h.aside s.dma s.pending _⟩
      next => cases hstep
  | call p a | find p | build p | walk p | link p | start p errors | readCurrent p | check p =>
      simp only [AtaQueue.step] at hstep
      split at hstep
      next => exact h.callStep hsafe hstep
      next => cases hstep

/-! ## The descriptor over a run -/

theorem DmaReady.same (h : s.DmaReady) (hreqs : s'.reqs = s.reqs) (hcurrent : s'.current = s.current)
    (hintr : s'.driveIntr = s.driveIntr) (hset : s'.dma = s.dma) : s'.DmaReady where
  fits := by
    rw [hreqs]
    exact h.fits
  set := by
    rw [hreqs, hcurrent, hintr, hset]
    exact h.set

theorem DmaReady.callEnd (h : s.DmaReady) {a : Args} : (s.callEnd .dma p n r a).DmaReady := by
  unfold AtaQueue.callEnd
  split
  next => exact h.same rfl rfl rfl rfl
  next => exact h.same rfl rfl rfl rfl

theorem DmaReady.startRequest (h : s.DmaReady) (hcurrent : s.current = some r) (errors : ℕ) :
    (s.startRequest .dma r errors).1.DmaReady := by
  obtain ⟨x, hx⟩ : ∃ x, x = { s.reqs r with
      error := (s.reqs r).error || 0 < errors
      retry := (s.reqs r).retry + min errors (ataMaxError - (s.reqs r).retry) } := ⟨_, rfl⟩
  have hstarted : { s with
      reqs := Function.update s.reqs r x
      driveIntr := true
      dma := (s.reqs r).transfer }.DmaReady := by
    constructor
    · intro r' hlive
      dsimp only at hlive ⊢
      by_cases hr : r' = r
      · rw [hr, Function.update_self, hx] at hlive ⊢
        exact h.fits r hlive
      · rw [Function.update_of_ne hr] at hlive ⊢
        exact h.fits r' hlive
    · intro _ r' hr'
      obtain rfl : r = r' := Option.some.inj (hcurrent.symm.trans hr')
      dsimp only
      rw [Function.update_self, hx]
      rfl
  unfold AtaQueue.startRequest
  dsimp only
  split
  next => exact hstarted.same (hx ▸ rfl) rfl rfl rfl
  next => exact hstarted.same (hx ▸ rfl) rfl rfl rfl

/-- Behind the only request of the queue there is nothing to start. -/
theorem QueueInv.handler_ready (h : s.QueueInv .dma Q) (hready : s.DmaReady) {error : Bool}
    {errors : ℕ} (hstep : s.handler .dma p error errors = some s') : s'.DmaReady := by
  unfold AtaQueue.handler at hstep
  rw [h.current] at hstep
  cases Q with
  | nil => cases hstep
  | cons r Q' =>
      obtain rfl : Q' = [] := List.length_eq_zero_iff.mp (Nat.le_zero.mp
        (Nat.le_of_succ_le_succ (h.single rfl)))
      have hlast : s.next r = none := h.follows.2
      have hends : ∀ x : Request, x.next = (s.reqs r).next →
          ({ s with reqs := Function.update s.reqs r x }.handlerEnd .dma p r errors).DmaReady := by
        intro x hx
        have hnext : AtaQueue.next { s with reqs := Function.update s.reqs r x } r = none := by
          change (Function.update s.reqs r x r).next = none
          rw [Function.update_self, hx]
          exact hlast
        have hend : { s with reqs := Function.update s.reqs r x }.handlerEnd .dma p r errors =
            { AtaQueue.finish { s with reqs := Function.update s.reqs r x } r true with
              driveIntr := false } := by
          unfold AtaQueue.handlerEnd
          dsimp only
          split
          next => rfl
          next r' hr' => cases hnext.symm.trans hr'
        rw [hend]
        constructor
        · intro r' hlive
          change (Function.update (Function.update s.reqs r x) r _ r').dev = true at hlive
          change FitsDma (Function.update (Function.update s.reqs r x) r _ r').rw
            (Function.update (Function.update s.reqs r x) r _ r').count
          by_cases hr : r' = r
          · rw [hr, Function.update_self] at hlive
            cases hlive
          · rw [Function.update_of_ne hr, Function.update_of_ne hr] at hlive ⊢
            exact hready.fits r' hlive
        · intro hintr
          cases hintr
      dsimp only [List.head?_cons] at hstep
      obtain rfl := Option.some.inj hstep
      cases error with
      | true => exact hends _ rfl
      | false => exact hends _ rfl

theorem QueueInv.callStep_ready (h : s.QueueInv .dma Q) (hready : s.DmaReady)
    (hsafe : s.SafeStep .dma st) (hstep : s.callStep .dma st = some s') : s'.DmaReady := by
  cases st with
  | build p =>
      simp only [AtaQueue.callStep] at hstep
      split at hstep
      next r a hp =>
        simp only [SafeStep, hp] at hsafe
        obtain ⟨hfree, -, -, hfits⟩ := hsafe
        obtain rfl := Option.some.inj hstep
        constructor
        · intro r' hlive
          change (Function.update s.reqs r (a.request s.built) r').dev = true at hlive
          change FitsDma (Function.update s.reqs r (a.request s.built) r').rw
            (Function.update s.reqs r (a.request s.built) r').count
          by_cases hr : r' = r
          · rw [hr, Function.update_self]
            exact hfits trivial
          · rw [Function.update_of_ne hr] at hlive ⊢
            exact hready.fits r' hlive
        · intro hintr r' hr'
          have hne : r' ≠ r := by
            rintro rfl
            rw [h.live r' (List.mem_of_head? (h.current.symm.trans hr'))] at hfree
            cases hfree
          change s.dma = (Function.update s.reqs r (a.request s.built) r').transfer
          rw [Function.update_of_ne hne]
          exact hready.set hintr r' hr'
      next => cases hstep
  | link p =>
      simp only [AtaQueue.callStep] at hstep
      split at hstep
      next n r a hp =>
        simp only [SafeStep, hp] at hsafe
        obtain rfl := Option.some.inj hstep
        refine ⟨hready.fits, fun hintr => ?_⟩
        -- the queue is empty, and no handler is set
        rw [h.tail_eq] at hsafe
        have hquiet : s.driveIntr = false := h.quiet (List.getLast?_eq_none_iff.mp hsafe.1)
        exact absurd (hquiet.symm.trans hintr) Bool.noConfusion
      next n r a t hp =>
        simp only [SafeStep, hp] at hsafe
        cases hsafe.2 trivial
      next => cases hstep
  | start p errors =>
      simp only [AtaQueue.callStep] at hstep
      split at hstep
      next n r a current hp hd =>
        have hfirst := h.stage p
        rw [hp] at hfirst
        have hstart := hready.startRequest (h.current.trans hfirst.1) errors
        split at hstep
        next s₁ hresult =>
          obtain rfl := Option.some.inj hstep
          rw [hresult] at hstart
          exact hstart.same rfl rfl rfl rfl
        next s₁ hresult =>
          obtain rfl := Option.some.inj hstep
          rw [hresult] at hstart
          exact hstart.callEnd
      next hpio _ => cases hpio
      next => cases hstep
  | call p a | find p | walk p | readCurrent p =>
      simp only [AtaQueue.callStep] at hstep
      split at hstep
      all_goals first
        | obtain rfl := Option.some.inj hstep
          exact hready.same rfl rfl rfl rfl
        | cases hstep
  | check p =>
      simp only [AtaQueue.callStep] at hstep
      split at hstep
      next =>
        obtain rfl := Option.some.inj hstep
        split
        next => exact hready
        next => exact hready.callEnd
      next => cases hstep
  | interrupt p error errors | unwind p => cases hstep

theorem QueueInv.step_ready (h : s.QueueInv d Q) (hdma : d = .dma → s.DmaReady)
    (hsafe : s.SafeStep d st) (hstep : s.step d st = some s') : d = .dma → s'.DmaReady := by
  rintro rfl
  have hready := hdma rfl
  cases st with
  | interrupt p error errors =>
      simp only [AtaQueue.step] at hstep
      split at hstep
      next => cases hstep
      next =>
        have haside := h.aside s.dma (s.pending - 1) s.frames
        split at hstep
        next => exact haside.handler_ready (hready.same rfl rfl rfl rfl) hstep
        next =>
          obtain rfl := Option.some.inj hstep
          exact hready.same rfl rfl rfl rfl
  | unwind p =>
      simp only [AtaQueue.step] at hstep
      split at hstep
      next =>
        split at hstep
        next => cases hstep
        next =>
          obtain rfl := Option.some.inj hstep
          exact hready.same rfl rfl rfl rfl
      next => cases hstep
  | call p a | find p | build p | walk p | link p | start p errors | readCurrent p | check p =>
      simp only [AtaQueue.step] at hstep
      split at hstep
      next => exact h.callStep_ready hready hsafe hstep
      next => cases hstep

theorem dmaReady_init : init.DmaReady where
  fits _ hlive := by cases hlive
  set hintr := by cases hintr

theorem QueueInv.run (h : s.QueueInv d Q) (hdma : d = .dma → s.DmaReady) {sts : List Step}
    (hsafe : s.SafeRun d sts) (hrun : s.run d sts = some s') : ∃ Q, s'.QueueInv d Q := by
  induction sts generalizing s Q with
  | nil =>
      obtain rfl := Option.some.inj hrun
      exact ⟨Q, h⟩
  | cons st sts ih =>
      obtain ⟨s₁, hstep, hrest⟩ := Option.bind_eq_some_iff.mp hrun
      obtain ⟨Q₁, h₁⟩ := h.step hdma hsafe.1 hstep
      exact ih h₁ (h.step_ready hdma hsafe.1 hstep) (hsafe.2 s₁ hstep) hrest

def one : Slot := ⟨1, Process.one_lt_nrProc⟩

def two : Slot := ⟨2, Process.two_lt_nrProc⟩

/-- A read of one sector, from the call to the return. -/
def oneRead : List Step :=
  [.call one ⟨.read, 1, 63⟩, .find one, .build one, .walk one, .link one, .start one 0,
    .readCurrent one, .interrupt two false 0, .check one]

/-- The same by DMA, with as many sectors as a read may have. -/
def oneDmaRead : List Step :=
  [.call one ⟨.read, 127, 63⟩, .find one, .build one, .walk one, .link one, .start one 0,
    .interrupt two false 0, .check one]

/-- Two reads of one sector, the second of which is linked behind the first. -/
def twoReads : List Step :=
  [.call one ⟨.read, 1, 63⟩, .find one, .build one, .walk one, .link one, .start one 0,
    .call two ⟨.read, 1, 64⟩, .find two, .build two, .walk two, .link two]

end AtaQueue

end Yak.Disk
