import Yak.AtaQueue

/-!
# Errors of the disk

One call of `ata_pio_start` on a device that may report an error at each command and at each
sector.  The interrupts of a command come while the process waits.  A request with an error is
built again, but with interrupts it stays in the queue, and when polling nobody looks at what
the loops return.
-/

namespace Yak.Disk

/-- What the device does with a command: whether it reports ERR at once, and the sectors which it
announces after that, each with ERR or without.  It announces a sector by DRQ to a process that
polls and by an interrupt to one that does not, but for the first one of a write with 28 bits of
address. -/
structure Attempt where
  commandErr : Bool
  announced : List Bool
  deriving DecidableEq

/-- `struct ata_request`.  `buf` counts the sectors by which the pointer has gone on. -/
structure PioRequest where
  dev : Bool
  rw : Rw
  lba : BitVec 32
  count : BitVec 32
  buf : ℕ
  error : Bool
  retry : ℕ
  deriving DecidableEq

/-- The requests and the device.  `queue` has the slots from `ata_current_req` on, and `moved` the
sectors that were moved for each of the commands. -/
structure PioDriver where
  reqs : ReqSlot → PioRequest
  queue : List ReqSlot
  driveIntr : Bool
  err : Bool
  announced : List Bool
  commands : ℕ
  moved : ℕ → List ℕ

/-- What `ata_build_request` writes into a slot. -/
def Args.pioRequest (a : Args) : PioRequest where
  dev := true
  rw := a.rw
  lba := a.lba
  count := a.count
  buf := 0
  error := false
  retry := 0

def PioRequest.decrementCount (x : PioRequest) : PioRequest := { x with count := x.count - 1 }

def PioRequest.advanceBuf (x : PioRequest) : PioRequest := { x with buf := x.buf + 1 }

/-- A write which sends its first sector without an interrupt. -/
def SendsFirst (rw : Rw) (lba : BitVec 32) : Prop := rw = .write ∧ lba ≤ maxLba28

instance (rw : Rw) (lba : BitVec 32) : Decidable (SendsFirst rw lba) :=
  inferInstanceAs (Decidable (_ ∧ _))

namespace PioDriver

def modify (s : PioDriver) (r : ReqSlot) (f : PioRequest → PioRequest) : PioDriver :=
  { s with reqs := Function.update s.reqs r (f (s.reqs r)) }

def freeSlot (s : PioDriver) : Option ReqSlot :=
  (List.finRange ataMaxRequests).find? fun r => (s.reqs r).dev = false

def ataFinishRequest (s : PioDriver) (r : ReqSlot) : PioDriver :=
  s.modify r fun x => { x with dev := false }

/-- The next command for the device. -/
def ataStartRequest (dev : ℕ → Attempt) (s : PioDriver) : PioDriver :=
  { s with
    err := (dev s.commands).commandErr
    announced := (dev s.commands).announced
    commands := s.commands + 1
    moved := Function.update s.moved s.commands [] }

def ataPollDrq (s : PioDriver) : Except Halt PioDriver :=
  if s.err then .ok s
  else
    match s.announced with
    | [] => .error .endless
    | e :: rest => .ok { s with err := e, announced := rest }

def ataResetBus (s : PioDriver) : PioDriver := { s with err := false, announced := [] }

/-- `ata_pio_transfer` for the last command. -/
def ataPioTransfer (s : PioDriver) (r : ReqSlot) : PioDriver :=
  { s with
    moved := Function.update s.moved (s.commands - 1)
      (s.moved (s.commands - 1) ++ [(s.reqs r).buf]) }

/-- The loop of `ata_pio_poll_read` and of `ata_pio_poll_write`, with the number of times that
`count` can be lowered. -/
def ataPioPoll (r : ReqSlot) : ℕ → PioDriver → Except Halt (PioDriver × ℤ)
  | 0, s => .ok (s.modify r .decrementCount, 0)
  | n + 1, s => do
      let s ← (s.modify r .decrementCount).ataPollDrq
      if s.err then .ok (s.ataResetBus, -1)
      else ataPioPoll r n ((s.ataPioTransfer r).modify r .advanceBuf)

/-- The request with interrupts off. -/
def polled (dev : ℕ → Attempt) (s : PioDriver) (r : ReqSlot) : Except Halt PioDriver := do
  let s := s.ataStartRequest dev
  let (s, _) ← ataPioPoll r (s.reqs r).count.toNat s
  .ok (s.ataFinishRequest r)

def ataPioStartRequest (dev : ℕ → Attempt) (s : PioDriver) (r : ReqSlot) :
    Except Halt (PioDriver × Bool) :=
  let s := { s with driveIntr := true }.ataStartRequest dev
  if s.err then
    .ok (s.ataResetBus.modify r fun x => { x with retry := x.retry + 1, error := true }, false)
  else if SendsFirst (s.reqs r).rw (s.reqs r).lba then do
    let s ← s.ataPollDrq
    let s := (s.ataPioTransfer r).modify r .decrementCount
    if (s.reqs r).count = 0 then
      .ok ({ s.ataFinishRequest r with queue := s.queue.tail, driveIntr := false }, false)
    else .ok (s, (s.reqs r).dev)
  else .ok (s, (s.reqs r).dev)

/-- What the two handlers do. -/
def ataPioIntr (dev : ℕ → Attempt) (s : PioDriver) : Except Halt PioDriver :=
  match s.queue with
  | [] => .error .nullDeref
  | r :: rest =>
      let s := (s.ataPioTransfer r).modify r fun x => x.advanceBuf.decrementCount
      if (s.reqs r).count = 0 then
        let s := { s.ataFinishRequest r with queue := rest }
        match rest with
        | [] => .ok { s with driveIntr := false }
        | r' :: _ => (s.ataPioStartRequest dev r').map Prod.fst
      else .ok s

/-- `ata_wait_on_req`, with the interrupts that come. -/
def ataWaitOnReq (dev : ℕ → Attempt) (r : ReqSlot) : ℕ → PioDriver → Except Halt PioDriver
  | 0, _ => .error .endless
  | fuel + 1, s =>
      if (s.reqs r).dev = false then .ok s
      else
        match s.announced with
        | [] => .error .asleep
        | e :: rest => do
            let s := { s with err := e, announced := rest }
            let s ← if s.driveIntr then s.ataPioIntr dev else .ok s
            ataWaitOnReq dev r fuel s

/-- The request in multitasking mode. -/
def queued (dev : ℕ → Attempt) (fuel : ℕ) (s : PioDriver) (r : ReqSlot) :
    Except Halt PioDriver :=
  match s.queue with
  | [] => do
      let (s, waits) ← { s with queue := [r] }.ataPioStartRequest dev r
      if waits then
        match s.queue with
        | [] => .error .nullDeref
        | current :: _ => ataWaitOnReq dev current fuel s
      else .ok s
  | q => ataWaitOnReq dev r fuel { s with queue := q ++ [r] }

/-- The request that has been built. -/
def request (dev : ℕ → Attempt) (multitasking : Bool) (fuel : ℕ) (s : PioDriver) (r : ReqSlot) :
    Except Halt PioDriver :=
  if multitasking then s.queued dev fuel r else s.polled dev r

def ataPioStart (dev : ℕ → Attempt) (multitasking : Bool) (a : Args) :
    ℕ → PioDriver → Except Halt (PioDriver × ℤ)
  | 0, _ => .error .endless
  | fuel + 1, s =>
      match s.freeSlot with
      | none => .ok (s, -1)
      | some r => do
          let s ← (s.modify r fun _ => a.pioRequest).request dev multitasking fuel r
          if (s.reqs r).error ∧ (s.reqs r).retry < ataMaxError then
            ataPioStart dev multitasking a fuel (s.modify r fun x => { x with error := false })
          else .ok (s, if (s.reqs r).error then -1 else 0)

end PioDriver

/-! ## Errors that are retried and reported -/

/-- A command for `n` sectors meets an error. -/
def Attempt.Meets (d : Attempt) (n : ℕ) : Prop :=
  d.commandErr = true ∨ true ∈ d.announced.take n

namespace PioDriver

/-- The call returns after at most as many commands as it may give, with an error if all of them
have met one, and without only if one of them has moved all sectors.  The slots and the queue are
as before. -/
def Retries (dev : ℕ → Attempt) (multitasking : Bool) (a : Args) (s : PioDriver) : Prop :=
  ∃ fuel s' result, s.ataPioStart dev multitasking a fuel = .ok (s', result) ∧
    s'.commands ≤ s.commands + (ataMaxError + 1) ∧
    ((∀ i, s.commands ≤ i → i < s'.commands → (dev i).Meets a.count.toNat) → result = -1) ∧
    (result = 0 → ∃ i, s.commands ≤ i ∧ i < s'.commands ∧ ¬ (dev i).Meets a.count.toNat ∧
      s'.moved i = List.range a.count.toNat) ∧
    (∀ r, (s'.reqs r).dev = (s.reqs r).dev) ∧ s'.queue = s.queue

/-- The first command announces all sectors and meets no error.  With interrupts the queue is
empty, and a write with 28 bits of address has one sector. -/
structure FirstSucceeds (dev : ℕ → Attempt) (multitasking : Bool) (a : Args) (s : PioDriver) :
    Prop where
  clean : ¬ (dev s.commands).Meets a.count.toNat
  announced : a.count.toNat ≤ (dev s.commands).announced.length
  alone : multitasking = true → s.queue = []
  some : multitasking = true → 0 < a.count.toNat
  first : multitasking = true → SendsFirst a.rw a.lba → a.count.toNat = 1

/-- The requests in the queue are in use. -/
def QueueUsed (s : PioDriver) : Prop := ∀ r ∈ s.queue, (s.reqs r).dev = true

variable {dev : ℕ → Attempt} {multitasking : Bool} {a : Args} {s s' : PioDriver} {r q : ReqSlot}
  {n fuel : ℕ} {result : ℤ}

/-! ## Slots -/

@[simp] theorem modify_reqs_self (f : PioRequest → PioRequest) :
    (s.modify r f).reqs r = f (s.reqs r) := Function.update_self ..

theorem modify_reqs_of_ne (f : PioRequest → PioRequest) (h : q ≠ r) :
    (s.modify r f).reqs q = s.reqs q := Function.update_of_ne h ..

theorem reqs_ataFinishRequest (s : PioDriver) (r : ReqSlot) :
    (s.ataFinishRequest r).reqs r = { s.reqs r with dev := false } := modify_reqs_self _

theorem reqs_ataFinishRequest_of_ne (h : q ≠ r) : (s.ataFinishRequest r).reqs q = s.reqs q :=
  modify_reqs_of_ne _ h

theorem dev_freeSlot (h : s.freeSlot = some r) : (s.reqs r).dev = false :=
  by simpa using List.find?_some (show List.find? _ (List.finRange ataMaxRequests) = some r from h)

/-- Only the request in slot `r` has changed, and whether it has an error has not. -/
structure Keeps (r : ReqSlot) (s s' : PioDriver) : Prop where
  queue : s'.queue = s.queue
  commands : s'.commands = s.commands
  others : ∀ q ≠ r, s'.reqs q = s.reqs q
  error : (s'.reqs r).error = (s.reqs r).error

theorem Keeps.trans {s'' : PioDriver} (h : Keeps r s s') (h' : Keeps r s' s'') :
    Keeps r s s'' where
  queue := h'.queue.trans h.queue
  commands := h'.commands.trans h.commands
  others q hq := (h'.others q hq).trans (h.others q hq)
  error := h'.error.trans h.error

theorem Keeps.modify (s : PioDriver) {f : PioRequest → PioRequest}
    (herror : (f (s.reqs r)).error = (s.reqs r).error) : Keeps r s (s.modify r f) where
  queue := rfl
  commands := rfl
  others _ hq := modify_reqs_of_ne f hq
  error := by rw [modify_reqs_self, herror]

/-! ## Polling -/

theorem ataPollDrq_keeps (h : s.ataPollDrq = .ok s') : s'.reqs = s.reqs ∧ s'.queue = s.queue ∧
    s'.commands = s.commands ∧ s'.moved = s.moved ∧ s'.driveIntr = s.driveIntr := by
  unfold ataPollDrq at h
  split at h
  · cases h
    exact ⟨rfl, rfl, rfl, rfl, rfl⟩
  · split at h
    · cases h
    · cases h
      exact ⟨rfl, rfl, rfl, rfl, rfl⟩

theorem ataPioPoll_keeps (h : ataPioPoll r n s = .ok (s', result)) : Keeps r s s' := by
  induction n generalizing s with
  | zero =>
      cases h
      exact .modify s rfl
  | succ n ih =>
      obtain ⟨s₁, hpoll, h⟩ := bind_eq_ok.mp h
      obtain ⟨hreqs, hqueue, hcommands, -, -⟩ := ataPollDrq_keeps hpoll
      have hkeeps : Keeps r s s₁ := (Keeps.modify s (f := .decrementCount) rfl).trans
        ⟨hqueue, hcommands, fun q _ => congrFun hreqs q, congrArg (fun f => (f r).error) hreqs⟩
      by_cases herr : s₁.err = true
      · rw [if_pos herr] at h
        cases h
        exact hkeeps.trans ⟨rfl, rfl, fun _ _ => rfl, rfl⟩
      · rw [if_neg herr] at h
        have htransfer : Keeps r s₁ (s₁.ataPioTransfer r) := ⟨rfl, rfl, fun _ _ => rfl, rfl⟩
        exact (hkeeps.trans (htransfer.trans (.modify _ rfl))).trans (ih h)

theorem ataPioPoll_succ {e : Bool} {rest : List Bool} (herr : s.err = false)
    (hnext : s.announced = e :: rest) :
    ataPioPoll r (n + 1) s =
      if e then
        .ok ({ s.modify r .decrementCount with err := e, announced := rest }.ataResetBus, -1)
      else ataPioPoll r n
        (({ s.modify r .decrementCount with err := e, announced := rest }.ataPioTransfer r).modify r
          .advanceBuf) := by
  have hpoll : (s.modify r .decrementCount).ataPollDrq =
      .ok { s.modify r .decrementCount with err := e, announced := rest } := by
    unfold ataPollDrq modify
    dsimp only
    rw [herr, hnext]
    rfl
  rw [ataPioPoll, hpoll, ok_bind]

/-- The loops move all sectors which are announced without an error. -/
theorem ataPioPoll_eq (herr : s.err = false) (hclean : true ∉ s.announced.take n)
    (hlength : n ≤ s.announced.length) :
    ∃ s', ataPioPoll r n s = .ok (s', 0) ∧
      s'.moved (s.commands - 1) =
        s.moved (s.commands - 1) ++ List.range' (s.reqs r).buf n := by
  induction n generalizing s with
  | zero => exact ⟨_, rfl, (List.append_nil _).symm⟩
  | succ n ih =>
      cases hnext : s.announced with
      | nil =>
          rw [hnext] at hlength
          cases hlength
      | cons e rest =>
          rw [hnext, List.take_succ_cons, List.mem_cons, not_or] at hclean
          rw [hnext] at hlength
          obtain rfl : e = false := Bool.eq_false_iff.mpr fun he => hclean.1 he.symm
          rw [ataPioPoll_succ herr hnext, if_neg Bool.false_ne_true]
          obtain ⟨s', hrun, hmoved⟩ := ih (s := ({ s.modify r .decrementCount with
            err := false, announced := rest }.ataPioTransfer r).modify r .advanceBuf) rfl
            hclean.2 (Nat.le_of_succ_le_succ hlength)
          refine ⟨s', hrun, hmoved.trans ?_⟩
          simp [ataPioTransfer, modify, PioRequest.advanceBuf, PioRequest.decrementCount,
            List.range'_succ]

/-- Without an error the loops do not end before all sectors are announced. -/
theorem le_length_of_ataPioPoll (herr : s.err = false) (hclean : true ∉ s.announced.take n)
    (h : ataPioPoll r n s = .ok (s', result)) : n ≤ s.announced.length := by
  induction n generalizing s with
  | zero => exact Nat.zero_le _
  | succ n ih =>
      cases hnext : s.announced with
      | nil =>
          obtain ⟨s₁, hpoll, -⟩ := bind_eq_ok.mp h
          unfold ataPollDrq modify at hpoll
          dsimp only at hpoll
          rw [herr, hnext] at hpoll
          cases hpoll
      | cons e rest =>
          rw [hnext, List.take_succ_cons, List.mem_cons, not_or] at hclean
          obtain rfl : e = false := Bool.eq_false_iff.mpr fun he => hclean.1 he.symm
          rw [ataPioPoll_succ herr hnext, if_neg Bool.false_ne_true] at h
          exact Nat.succ_le_succ (ih rfl hclean.2 h)

/-! ## The request that polls -/

/-- The call with a request in slot `r`. -/
theorem ataPioStart_succ (hfree : s.freeSlot = some r) :
    s.ataPioStart dev multitasking a (fuel + 1) =
      (s.modify r fun _ => a.pioRequest).request dev multitasking fuel r >>= fun s =>
        if (s.reqs r).error ∧ (s.reqs r).retry < ataMaxError then
          ataPioStart dev multitasking a fuel (s.modify r fun x => { x with error := false })
        else .ok (s, if (s.reqs r).error then -1 else 0) := by
  rw [ataPioStart, hfree]

/-- A request whose record has no error ends the call. -/
theorem ataPioStart_of_request (hfree : s.freeSlot = some r)
    (hrun : (s.modify r fun _ => a.pioRequest).request dev multitasking fuel r = .ok s')
    (herror : (s'.reqs r).error = false) :
    s.ataPioStart dev multitasking a (fuel + 1) = .ok (s', 0) := by
  rw [ataPioStart_succ hfree, hrun, ok_bind, herror,
    if_neg (fun h => absurd h.1 Bool.false_ne_true), if_neg Bool.false_ne_true]

theorem request_of_ataPioStart (hfree : s.freeSlot = some r)
    (h : s.ataPioStart dev multitasking a fuel = .ok (s', result)) :
    ∃ fuel s₁, (s.modify r fun _ => a.pioRequest).request dev multitasking fuel r = .ok s₁ ∧
      ((s₁.reqs r).error = false → s₁ = s' ∧ result = 0) := by
  cases fuel with
  | zero => cases h
  | succ fuel =>
      rw [ataPioStart_succ hfree] at h
      obtain ⟨s₁, hrun, h⟩ := bind_eq_ok.mp h
      refine ⟨fuel, s₁, hrun, fun herror => ?_⟩
      rw [herror, if_neg (fun h => absurd h.1 Bool.false_ne_true)] at h
      cases h
      exact ⟨rfl, rfl⟩

theorem polled_keeps (h : s.polled dev r = .ok s') :
    s'.queue = s.queue ∧ s'.commands = s.commands + 1 ∧ (∀ q ≠ r, s'.reqs q = s.reqs q) ∧
      (s'.reqs r).error = (s.reqs r).error ∧ (s'.reqs r).dev = false := by
  obtain ⟨⟨s₁, res⟩, hpoll, h⟩ := bind_eq_ok.mp h
  cases h
  have hkeeps := ataPioPoll_keeps hpoll
  refine ⟨hkeeps.queue, hkeeps.commands, fun q hq => ?_, ?_, ?_⟩
  · exact (modify_reqs_of_ne _ hq).trans (hkeeps.others q hq)
  · exact (congrArg PioRequest.error (modify_reqs_self _)).trans hkeeps.error
  · exact congrArg PioRequest.dev (modify_reqs_self _)

/-- The slots are as before once the request has given its slot back. -/
theorem devs_eq (hfree : s.freeSlot = some r)
    (hothers : ∀ q ≠ r, s'.reqs q = (s.modify r fun _ => a.pioRequest).reqs q)
    (hdev : (s'.reqs r).dev = false) (q : ReqSlot) : (s'.reqs q).dev = (s.reqs q).dev := by
  by_cases hq : q = r
  · rw [hq, hdev, dev_freeSlot hfree]
  · rw [hothers q hq, modify_reqs_of_ne _ hq]

/-- A call whose request comes to an end after one command, which has no error in its record. -/
theorem retries_iff_of_request (hfree : s.freeSlot = some r)
    (hrun : (s.modify r fun _ => a.pioRequest).request dev multitasking fuel r = .ok s')
    (hqueue : s'.queue = s.queue) (hcommands : s'.commands = s.commands + 1)
    (hothers : ∀ q ≠ r, s'.reqs q = (s.modify r fun _ => a.pioRequest).reqs q)
    (hdev : (s'.reqs r).dev = false) (herror : (s'.reqs r).error = false)
    (hclean : ¬ (dev s.commands).Meets a.count.toNat)
    (hmoved : s'.moved s.commands = List.range a.count.toNat) :
    Retries dev multitasking a s := by
  refine ⟨fuel + 1, s', 0, ataPioStart_of_request hfree hrun herror, ?_, ?_, ?_,
    devs_eq hfree hothers hdev, hqueue⟩
  · rw [hcommands]
    exact Nat.add_le_add_left (by decide) _
  · intro hall
    exact absurd (hall s.commands le_rfl (by omega)) hclean
  · exact fun _ => ⟨s.commands, le_rfl, by omega, hclean, hmoved⟩

theorem not_meets_iff {d : Attempt} :
    ¬ d.Meets n ↔ d.commandErr = false ∧ true ∉ d.announced.take n := by
  unfold Attempt.Meets
  rw [not_or, Bool.not_eq_true]

theorem retries_polled_iff (hfree : s.freeSlot = some r) :
    Retries dev false a s ↔ FirstSucceeds dev false a s := by
  have hrequest : (s.modify r fun _ => a.pioRequest).reqs r = a.pioRequest := modify_reqs_self _
  constructor
  · rintro ⟨fuel, s', result, hcall, -, -, hsuccess, -, -⟩
    obtain ⟨fuel, s₁, hrun, hend⟩ := request_of_ataPioStart hfree hcall
    obtain ⟨-, hcommands, -, herror, -⟩ := polled_keeps hrun
    rw [hrequest] at herror
    obtain ⟨rfl, hzero⟩ := hend herror
    obtain ⟨i, hle, hlt, hclean, -⟩ := hsuccess hzero
    obtain rfl : i = s.commands := by
      rw [hcommands] at hlt
      exact le_antisymm (Nat.le_of_lt_succ hlt) hle
    obtain ⟨hcommand, hsectors⟩ := not_meets_iff.mp hclean
    obtain ⟨⟨s₂, res⟩, hpoll, -⟩ := bind_eq_ok.mp hrun
    have hcount : (((s.modify r fun _ => a.pioRequest).ataStartRequest dev).reqs r).count =
      a.count := congrArg PioRequest.count hrequest
    rw [hcount] at hpoll
    exact ⟨hclean, le_length_of_ataPioPoll hcommand hsectors hpoll, nofun, nofun, nofun⟩
  · intro h
    obtain ⟨hcommand, hsectors⟩ := not_meets_iff.mp h.clean
    obtain ⟨s₁, hpoll, hmoved⟩ := ataPioPoll_eq (r := r)
      (s := (s.modify r fun _ => a.pioRequest).ataStartRequest dev) hcommand hsectors h.announced
    have hrun : (s.modify r fun _ => a.pioRequest).polled dev r = .ok (s₁.ataFinishRequest r) := by
      unfold polled
      dsimp only
      rw [show ((ataStartRequest dev (s.modify r fun _ => a.pioRequest)).reqs r).count = a.count
        from congrArg PioRequest.count hrequest, hpoll]
      rfl
    obtain ⟨hqueue, hcommands, hothers, herror, hdev⟩ := polled_keeps hrun
    have hrequested : (s.modify r fun _ => a.pioRequest).request dev false 0 r =
        .ok (s₁.ataFinishRequest r) := hrun
    refine retries_iff_of_request hfree hrequested hqueue hcommands hothers hdev
      (herror.trans (congrArg PioRequest.error hrequest)) h.clean ?_
    have hbuf : (((s.modify r fun _ => a.pioRequest).ataStartRequest dev).reqs r).buf = 0 :=
      congrArg PioRequest.buf hrequest
    have hfirst : ((s.modify r fun _ => a.pioRequest).ataStartRequest dev).moved s.commands = [] :=
      Function.update_self ..
    rw [hbuf, show ((s.modify r fun _ => a.pioRequest).ataStartRequest dev).commands - 1 =
      s.commands from rfl, hfirst, List.nil_append, ← List.range_eq_range'] at hmoved
    exact hmoved

/-! ## Waiting -/

/-- One sector for an interrupt. -/
def interrupted (s : PioDriver) (r : ReqSlot) : PioDriver :=
  (s.ataPioTransfer r).modify r fun x => x.advanceBuf.decrementCount

/-- The request is the only one, and the device has a handler. -/
structure Waits (r : ReqSlot) (s : PioDriver) : Prop where
  queue : s.queue = [r]
  driveIntr : s.driveIntr = true
  dev : (s.reqs r).dev = true

/-- The request is finished after `n` more sectors. -/
structure Ends (r : ReqSlot) (n : ℕ) (s s' : PioDriver) : Prop where
  queue : s'.queue = []
  commands : s'.commands = s.commands
  others : ∀ q ≠ r, s'.reqs q = s.reqs q
  error : (s'.reqs r).error = (s.reqs r).error
  dev : (s'.reqs r).dev = false
  moved : s'.moved (s.commands - 1) =
    s.moved (s.commands - 1) ++ List.range' (s.reqs r).buf n

theorem reqs_interrupted (r : ReqSlot) (s : PioDriver) :
    (s.interrupted r).reqs r = (s.reqs r).advanceBuf.decrementCount := modify_reqs_self _

theorem reqs_interrupted_of_ne (h : q ≠ r) : (s.interrupted r).reqs q = s.reqs q :=
  modify_reqs_of_ne _ h

theorem Waits.interrupted (h : Waits r s) (e : Bool) (rest : List Bool) :
    Waits r ({ s with err := e, announced := rest }.interrupted r) where
  queue := h.queue
  driveIntr := h.driveIntr
  dev := (congrArg PioRequest.dev (reqs_interrupted r _)).trans h.dev

theorem moved_interrupted (r : ReqSlot) (s : PioDriver) :
    (s.interrupted r).moved (s.commands - 1) = s.moved (s.commands - 1) ++ [(s.reqs r).buf] :=
  Function.update_self ..

theorem ataPioIntr_eq (h : Waits r s) : s.ataPioIntr dev =
    if (s.reqs r).count - 1 = 0 then
      .ok { (s.interrupted r).ataFinishRequest r with queue := [], driveIntr := false }
    else .ok (s.interrupted r) := by
  have hcount : ((s.interrupted r).reqs r).count = (s.reqs r).count - 1 :=
    congrArg PioRequest.count (reqs_interrupted r s)
  unfold ataPioIntr
  rw [h.queue]
  change (if ((s.interrupted r).reqs r).count = 0 then _ else _) = _
  rw [hcount]
  rfl

theorem ataWaitOnReq_succ (h : Waits r s) {e : Bool} {rest : List Bool}
    (hnext : s.announced = e :: rest) : ataWaitOnReq dev r (fuel + 1) s =
      { s with err := e, announced := rest }.ataPioIntr dev >>= ataWaitOnReq dev r fuel := by
  rw [ataWaitOnReq, h.dev, if_neg (by decide), hnext]
  dsimp only
  rw [h.driveIntr]
  rfl

theorem ataWaitOnReq_nil (h : Waits r s) (hnone : s.announced = []) :
    ataWaitOnReq dev r (fuel + 1) s = .error .asleep := by
  rw [ataWaitOnReq, h.dev, if_neg (by decide), hnone]

/-- The request with its last sector. -/
def lastInterrupted (s : PioDriver) (r : ReqSlot) : PioDriver :=
  { (s.interrupted r).ataFinishRequest r with queue := [], driveIntr := false }

theorem count_interrupted {k : ℕ} (hcount : (s.reqs r).count = BitVec.ofNat 32 (k + 1)) :
    ((s.interrupted r).reqs r).count = BitVec.ofNat 32 k := by
  have hone : ((s.interrupted r).reqs r).count = (s.reqs r).count - 1 :=
    congrArg PioRequest.count (reqs_interrupted r s)
  rw [hone, hcount, BitVec.ofNat_add]
  exact BitVec.add_sub_cancel ..

/-- One interrupt of those that the process waits for. -/
theorem ataWaitOnReq_interrupt {k : ℕ} (h : Waits r s) (hk : k < 2 ^ 32)
    (hcount : (s.reqs r).count = BitVec.ofNat 32 (k + 1)) {e : Bool} {rest : List Bool}
    (hnext : s.announced = e :: rest) : ataWaitOnReq dev r (fuel + 1) s =
      if k = 0 then
        ataWaitOnReq dev r fuel ({ s with err := e, announced := rest }.lastInterrupted r)
      else ataWaitOnReq dev r fuel ({ s with err := e, announced := rest }.interrupted r) := by
  have hnow : Waits r { s with err := e, announced := rest } := ⟨h.queue, h.driveIntr, h.dev⟩
  have hzero : (s.reqs r).count - 1 = 0 ↔ k = 0 := by
    rw [hcount, BitVec.ofNat_add, show BitVec.ofNat 32 1 = 1 from rfl, BitVec.add_sub_cancel]
    constructor
    · intro h
      have hnat := congrArg BitVec.toNat h
      rwa [BitVec.toNat_ofNat, Nat.mod_eq_of_lt hk] at hnat
    · rintro rfl
      rfl
  rw [ataWaitOnReq_succ h hnext, ataPioIntr_eq hnow]
  by_cases hlast : k = 0
  · rw [if_pos (hzero.mpr hlast), if_pos hlast]
    rfl
  · rw [if_neg (fun h => hlast (hzero.mp h)), if_neg hlast]
    rfl

theorem reqs_lastInterrupted (r : ReqSlot) (s : PioDriver) :
    (s.lastInterrupted r).reqs r =
      { (s.reqs r).advanceBuf.decrementCount with dev := false } := by
  have hself := reqs_ataFinishRequest (s.interrupted r) r
  rwa [reqs_interrupted] at hself

theorem ends_lastInterrupted (r : ReqSlot) (s : PioDriver) : Ends r 1 s (s.lastInterrupted r) where
  queue := rfl
  commands := rfl
  others q hq := by
    exact (reqs_ataFinishRequest_of_ne hq).trans (reqs_interrupted_of_ne hq)
  error := by
    rw [reqs_lastInterrupted]
    rfl
  dev := congrArg PioRequest.dev (reqs_lastInterrupted r s)
  moved := moved_interrupted r s

theorem Ends.of_interrupted (h : Ends r n (s.interrupted r) s') : Ends r (n + 1) s s' where
  queue := h.queue
  commands := h.commands
  others q hq := (h.others q hq).trans (reqs_interrupted_of_ne hq)
  error := by
    rw [h.error, reqs_interrupted]
    rfl
  dev := h.dev
  moved := by
    have hbuf : ((s.interrupted r).reqs r).buf = (s.reqs r).buf + 1 :=
      congrArg PioRequest.buf (reqs_interrupted r s)
    refine h.moved.trans ?_
    rw [hbuf, show (s.interrupted r).commands = s.commands from rfl, moved_interrupted,
      List.append_assoc, List.range'_succ]
    rfl

/-- The process goes on when as many interrupts have come as `count` says. -/
theorem ends_of_ataWaitOnReq {k : ℕ} (h : Waits r s) (hk : k < 2 ^ 32)
    (hcount : (s.reqs r).count = BitVec.ofNat 32 (k + 1))
    (hrun : ataWaitOnReq dev r fuel s = .ok s') :
    k + 1 ≤ s.announced.length ∧ Ends r (k + 1) s s' := by
  induction k generalizing s fuel with
  | zero =>
      cases fuel with
      | zero => cases hrun
      | succ fuel =>
          cases hnext : s.announced with
          | nil =>
              rw [ataWaitOnReq_nil h hnext] at hrun
              cases hrun
          | cons e rest =>
              rw [ataWaitOnReq_interrupt h hk hcount hnext, if_pos rfl] at hrun
              have hend := ends_lastInterrupted r { s with err := e, announced := rest }
              cases fuel with
              | zero => cases hrun
              | succ fuel =>
                  rw [ataWaitOnReq, if_pos hend.dev] at hrun
                  cases hrun
                  exact ⟨Nat.le_add_left 1 _, hend.1, hend.2, hend.3, hend.4, hend.5, hend.6⟩
  | succ k ih =>
      cases fuel with
      | zero => cases hrun
      | succ fuel =>
          cases hnext : s.announced with
          | nil =>
              rw [ataWaitOnReq_nil h hnext] at hrun
              cases hrun
          | cons e rest =>
              rw [ataWaitOnReq_interrupt h hk hcount hnext, if_neg (Nat.succ_ne_zero k)] at hrun
              obtain ⟨hlength, hend⟩ := ih (h.interrupted e rest) (by omega)
                (count_interrupted hcount) hrun
              have hend' := hend.of_interrupted
              exact ⟨Nat.succ_le_succ hlength, hend'.1, hend'.2, hend'.3, hend'.4, hend'.5, hend'.6⟩

theorem exists_ataWaitOnReq {k : ℕ} (h : Waits r s) (hk : k < 2 ^ 32)
    (hcount : (s.reqs r).count = BitVec.ofNat 32 (k + 1)) (hlength : k + 1 ≤ s.announced.length) :
    ∃ fuel s', ataWaitOnReq dev r fuel s = .ok s' := by
  induction k generalizing s with
  | zero =>
      cases hnext : s.announced with
      | nil =>
          rw [hnext] at hlength
          cases hlength
      | cons e rest =>
          refine ⟨2, { s with err := e, announced := rest }.lastInterrupted r, ?_⟩
          rw [ataWaitOnReq_interrupt h hk hcount hnext, if_pos rfl, ataWaitOnReq,
            if_pos (ends_lastInterrupted r _).dev]
  | succ k ih =>
      cases hnext : s.announced with
      | nil =>
          rw [hnext] at hlength
          cases hlength
      | cons e rest =>
          rw [hnext] at hlength
          obtain ⟨fuel, s', hrun⟩ := ih (h.interrupted e rest) (by omega)
            (count_interrupted hcount) (Nat.le_of_succ_le_succ hlength)
          refine ⟨fuel + 1, s', ?_⟩
          rw [ataWaitOnReq_interrupt h hk hcount hnext, if_neg (Nat.succ_ne_zero k)]
          exact hrun

/-! ## The request with interrupts -/

/-- The first command for a new request. -/
def commanded (dev : ℕ → Attempt) (a : Args) (s : PioDriver) (r : ReqSlot) : PioDriver :=
  ataStartRequest dev { s.modify r (fun _ => a.pioRequest) with queue := [r], driveIntr := true }

theorem reqs_commanded (dev : ℕ → Attempt) (a : Args) (s : PioDriver) (r : ReqSlot) :
    (s.commanded dev a r).reqs r = a.pioRequest := modify_reqs_self (s := s) fun _ => a.pioRequest

theorem moved_commanded (dev : ℕ → Attempt) (a : Args) (s : PioDriver) (r : ReqSlot) :
    (s.commanded dev a r).moved s.commands = [] := Function.update_self ..

/-- The start of the first request of an empty queue. -/
theorem ataPioStartRequest_eq (dev : ℕ → Attempt) (a : Args) (s : PioDriver) (r : ReqSlot) :
    ({ s.modify r (fun _ => a.pioRequest) with queue := [r] }.ataPioStartRequest dev r) =
      if (dev s.commands).commandErr then
        .ok ((s.commanded dev a r).ataResetBus.modify r fun x =>
          { x with retry := x.retry + 1, error := true }, false)
      else if SendsFirst a.rw a.lba then
        (s.commanded dev a r).ataPollDrq >>= fun s =>
          let s := (s.ataPioTransfer r).modify r .decrementCount
          if (s.reqs r).count = 0 then
            .ok ({ s.ataFinishRequest r with queue := s.queue.tail, driveIntr := false }, false)
          else .ok (s, (s.reqs r).dev)
      else .ok (s.commanded dev a r, true) := by
  unfold ataPioStartRequest
  change (if (dev s.commands).commandErr then _
    else if SendsFirst ((s.commanded dev a r).reqs r).rw ((s.commanded dev a r).reqs r).lba then _
      else Except.ok (s.commanded dev a r, ((s.commanded dev a r).reqs r).dev)) = _
  rw [reqs_commanded]
  rfl

/-- The first sector of a write that sends it at once. -/
def firstSent (dev : ℕ → Attempt) (a : Args) (s : PioDriver) (r : ReqSlot) (e : Bool)
    (rest : List Bool) : PioDriver :=
  ({ s.commanded dev a r with err := e, announced := rest }.ataPioTransfer r).modify r
    .decrementCount

theorem reqs_firstSent (dev : ℕ → Attempt) (a : Args) (s : PioDriver) (r : ReqSlot) (e : Bool)
    (rest : List Bool) : (s.firstSent dev a r e rest).reqs r = a.pioRequest.decrementCount := by
  have hself : (s.firstSent dev a r e rest).reqs r =
      ((s.commanded dev a r).reqs r).decrementCount := modify_reqs_self _
  rwa [reqs_commanded] at hself

theorem ataPollDrq_commanded (herr : (dev s.commands).commandErr = false) :
    (s.commanded dev a r).ataPollDrq =
      match (dev s.commands).announced with
      | [] => .error .endless
      | e :: rest => .ok { s.commanded dev a r with err := e, announced := rest } := by
  unfold ataPollDrq
  exact if_neg (by rw [show (s.commanded dev a r).err = false from herr]; decide)

theorem queued_nil (hqueue : s.queue = []) :
    (s.modify r fun _ => a.pioRequest).queued dev fuel r =
      ({ s.modify r (fun _ => a.pioRequest) with queue := [r] }.ataPioStartRequest dev r) >>=
        fun p =>
          if p.2 then
            match p.1.queue with
            | [] => .error .nullDeref
            | current :: _ => ataWaitOnReq dev current fuel p.1
          else .ok p.1 := by
  unfold queued
  rw [show (s.modify r fun _ => a.pioRequest).queue = [] from hqueue]

/-- The request after a command with an error. -/
def failed (dev : ℕ → Attempt) (a : Args) (s : PioDriver) (r : ReqSlot) : PioDriver :=
  (s.commanded dev a r).ataResetBus.modify r fun x =>
    { x with retry := x.retry + 1, error := true }

theorem reqs_failed (dev : ℕ → Attempt) (a : Args) (s : PioDriver) (r : ReqSlot) :
    (s.failed dev a r).reqs r = { a.pioRequest with retry := 1, error := true } := by
  have hself : (s.failed dev a r).reqs r =
      { (s.commanded dev a r).reqs r with
        retry := ((s.commanded dev a r).reqs r).retry + 1
        error := true } := modify_reqs_self _
  rwa [reqs_commanded] at hself

theorem queued_err (hqueue : s.queue = []) (herr : (dev s.commands).commandErr = true) :
    (s.modify r fun _ => a.pioRequest).queued dev fuel r = .ok (s.failed dev a r) := by
  rw [queued_nil hqueue, ataPioStartRequest_eq, if_pos herr]
  rfl

theorem queued_waits (hqueue : s.queue = []) (herr : (dev s.commands).commandErr = false)
    (hfirst : ¬ SendsFirst a.rw a.lba) :
    (s.modify r fun _ => a.pioRequest).queued dev fuel r =
      ataWaitOnReq dev r fuel (s.commanded dev a r) := by
  rw [queued_nil hqueue, ataPioStartRequest_eq, if_neg (by rw [herr]; decide), if_neg hfirst]
  rfl

theorem queued_first (hqueue : s.queue = []) (herr : (dev s.commands).commandErr = false)
    (hfirst : SendsFirst a.rw a.lba) :
    (s.modify r fun _ => a.pioRequest).queued dev fuel r =
      match (dev s.commands).announced with
      | [] => .error .endless
      | e :: rest =>
          if a.count - 1 = 0 then
            .ok { (s.firstSent dev a r e rest).ataFinishRequest r with
              queue := [], driveIntr := false }
          else ataWaitOnReq dev r fuel (s.firstSent dev a r e rest) := by
  rw [queued_nil hqueue, ataPioStartRequest_eq, if_neg (by rw [herr]; decide), if_pos hfirst,
    ataPollDrq_commanded herr]
  cases (dev s.commands).announced with
  | nil => rfl
  | cons e rest =>
      have hcount : ((s.firstSent dev a r e rest).reqs r).count = a.count - 1 := by
        rw [reqs_firstSent]
        rfl
      have hdev : ((s.firstSent dev a r e rest).reqs r).dev = true := by
        rw [reqs_firstSent]
        rfl
      rw [ok_bind]
      change (if ((s.firstSent dev a r e rest).reqs r).count = 0 then
          Except.ok ({ (s.firstSent dev a r e rest).ataFinishRequest r with
            queue := [], driveIntr := false }, false)
        else Except.ok (s.firstSent dev a r e rest,
          ((s.firstSent dev a r e rest).reqs r).dev)) >>= _ = _
      rw [hcount, hdev]
      by_cases hone : a.count - 1 = 0
      · rw [if_pos hone]
        exact (if_pos hone).symm
      · rw [if_neg hone]
        exact (if_neg hone).symm

/-- What a request leaves behind that was started at once and is finished. -/
structure Finishes (a : Args) (r : ReqSlot) (s s' : PioDriver) : Prop where
  queue : s'.queue = []
  commands : s'.commands = s.commands + 1
  others : ∀ q ≠ r, s'.reqs q = (s.modify r fun _ => a.pioRequest).reqs q
  error : (s'.reqs r).error = false
  dev : (s'.reqs r).dev = false

/-- The number of interrupts after which `count` is zero. -/
theorem exists_turns (count : BitVec 32) :
    ∃ k < 2 ^ 32, count = BitVec.ofNat 32 (k + 1) ∧ (0 < count.toNat → k + 1 = count.toNat) := by
  have hlt := count.isLt
  by_cases hzero : count.toNat = 0
  · refine ⟨2 ^ 32 - 1, by decide, ?_, fun h => absurd hzero h.ne'⟩
    exact BitVec.eq_of_toNat_eq hzero
  · refine ⟨count.toNat - 1, by omega, ?_, fun _ => by omega⟩
    rw [Nat.sub_add_cancel (by omega)]
    exact (BitVec.ofNat_toNat 32 count).symm

theorem waits_commanded : Waits r (s.commanded dev a r) where
  queue := rfl
  driveIntr := rfl
  dev := by
    rw [reqs_commanded]
    rfl

theorem waits_firstSent {e : Bool} {rest : List Bool} : Waits r (s.firstSent dev a r e rest) where
  queue := rfl
  driveIntr := rfl
  dev := by
    rw [reqs_firstSent]
    rfl

theorem reqs_firstSent_of_ne {e : Bool} {rest : List Bool} (h : q ≠ r) :
    (s.firstSent dev a r e rest).reqs q = (s.modify r fun _ => a.pioRequest).reqs q :=
  modify_reqs_of_ne _ h

theorem moved_firstSent (dev : ℕ → Attempt) (a : Args) (s : PioDriver) (r : ReqSlot) (e : Bool)
    (rest : List Bool) : (s.firstSent dev a r e rest).moved s.commands = [0] := by
  have hself : (s.firstSent dev a r e rest).moved s.commands =
      (s.commanded dev a r).moved s.commands ++ [((s.commanded dev a r).reqs r).buf] :=
    Function.update_self ..
  rw [moved_commanded, reqs_commanded] at hself
  exact hself

theorem ends_of_queued_waits (hqueue : s.queue = []) (herr : (dev s.commands).commandErr = false)
    (hfirst : ¬ SendsFirst a.rw a.lba)
    (hrun : (s.modify r fun _ => a.pioRequest).queued dev fuel r = .ok s') :
    Finishes a r s s' ∧ ∃ k, (0 < a.count.toNat → k + 1 = a.count.toNat) ∧
      k + 1 ≤ (dev s.commands).announced.length ∧ s'.moved s.commands = List.range (k + 1) := by
  obtain ⟨k, hk, hcount, hturns⟩ := exists_turns a.count
  rw [queued_waits hqueue herr hfirst] at hrun
  have hcommanded : ((s.commanded dev a r).reqs r).count = BitVec.ofNat 32 (k + 1) := by
    rw [reqs_commanded, ← hcount]
    rfl
  obtain ⟨hlength, hend⟩ := ends_of_ataWaitOnReq waits_commanded hk hcommanded hrun
  refine ⟨⟨hend.queue, hend.commands, hend.others, ?_, hend.dev⟩, k, hturns, hlength, ?_⟩
  · rw [hend.error, reqs_commanded]
    rfl
  · have hall := hend.moved
    rw [show (s.commanded dev a r).commands - 1 = s.commands from rfl, moved_commanded,
      reqs_commanded, List.nil_append] at hall
    rw [hall, List.range_eq_range']
    rfl

theorem zero_cons_range'_ne (k n : ℕ) : [0] ++ List.range' 0 (k + 1) ≠ List.range n := by
  intro h
  have hlengths := congrArg List.length h
  have hsecond := congrArg (·[1]?) h
  rw [List.length_append, List.length_singleton, List.length_range', List.length_range] at hlengths
  simp [List.range'_succ, show 1 < n by omega] at hsecond

theorem finishes_onlySent (e : Bool) (rest : List Bool) :
    Finishes a r s { (s.firstSent dev a r e rest).ataFinishRequest r with
      queue := [], driveIntr := false } where
  queue := rfl
  commands := rfl
  others q hq := by
    exact (reqs_ataFinishRequest_of_ne hq).trans (reqs_firstSent_of_ne hq)
  error := by
    have hself := reqs_ataFinishRequest (s.firstSent dev a r e rest) r
    rw [reqs_firstSent] at hself
    exact congrArg PioRequest.error hself
  dev := congrArg PioRequest.dev (reqs_ataFinishRequest (s.firstSent dev a r e rest) r)

theorem ends_of_queued_first (hqueue : s.queue = []) (herr : (dev s.commands).commandErr = false)
    (hfirst : SendsFirst a.rw a.lba)
    (hrun : (s.modify r fun _ => a.pioRequest).queued dev fuel r = .ok s') :
    Finishes a r s s' ∧ (s'.moved s.commands = List.range a.count.toNat →
      a.count.toNat = 1 ∧ 1 ≤ (dev s.commands).announced.length) := by
  rw [queued_first hqueue herr hfirst] at hrun
  cases hannounced : (dev s.commands).announced with
  | nil =>
      rw [hannounced] at hrun
      cases hrun
  | cons e rest =>
      rw [hannounced] at hrun
      dsimp only at hrun
      by_cases hone : a.count - 1 = 0
      · rw [if_pos hone] at hrun
        cases hrun
        have hsame : a.count = 1 := by bv_omega
        exact ⟨finishes_onlySent e rest, fun _ => ⟨by rw [hsame]; rfl, Nat.le_add_left 1 _⟩⟩
      · rw [if_neg hone] at hrun
        obtain ⟨k, hk, hcount, -⟩ := exists_turns (a.count - 1)
        have hsent : ((s.firstSent dev a r e rest).reqs r).count = BitVec.ofNat 32 (k + 1) := by
          rw [reqs_firstSent, ← hcount]
          rfl
        obtain ⟨-, hend⟩ := ends_of_ataWaitOnReq waits_firstSent hk hsent hrun
        refine ⟨⟨hend.queue, hend.commands, ?_, ?_, hend.dev⟩, fun hmoved => ?_⟩
        · exact fun q hq => (hend.others q hq).trans (reqs_firstSent_of_ne hq)
        · rw [hend.error, reqs_firstSent]
          rfl
        · have hall := hend.moved
          rw [show (s.firstSent dev a r e rest).commands - 1 = s.commands from rfl,
            moved_firstSent, hmoved, reqs_firstSent] at hall
          exact absurd hall.symm (zero_cons_range'_ne k _)

theorem Finishes.retries (h : Finishes a r s s') (hfree : s.freeSlot = some r)
    (hqueue : s.queue = [])
    (hrun : (s.modify r fun _ => a.pioRequest).queued dev fuel r = .ok s')
    (hclean : ¬ (dev s.commands).Meets a.count.toNat)
    (hmoved : s'.moved s.commands = List.range a.count.toNat) : Retries dev true a s := by
  have hrequested : (s.modify r fun _ => a.pioRequest).request dev true fuel r = .ok s' := hrun
  exact retries_iff_of_request hfree hrequested (h.queue.trans hqueue.symm) h.commands h.others
    h.dev h.error hclean hmoved

/-- A request that finishes has moved all sectors of its first command, if the call is right. -/
theorem Finishes.moved (h : Finishes a r s s') {result : ℤ} {s'' : PioDriver}
    (hend : (s'.reqs r).error = false → s' = s'' ∧ result = 0)
    (hsuccess : result = 0 → ∃ i, s.commands ≤ i ∧ i < s''.commands ∧
      ¬ (dev i).Meets a.count.toNat ∧ s''.moved i = List.range a.count.toNat) :
    ¬ (dev s.commands).Meets a.count.toNat ∧
      s'.moved s.commands = List.range a.count.toNat := by
  obtain ⟨rfl, hzero⟩ := hend h.error
  obtain ⟨i, hle, hlt, hclean, hmoved⟩ := hsuccess hzero
  obtain rfl : i = s.commands := by
    rw [h.commands] at hlt
    exact le_antisymm (Nat.le_of_lt_succ hlt) hle
  exact ⟨hclean, hmoved⟩

/-- A process waits for ever behind a request for which there are no more interrupts. -/
theorem queued_ne_ok (hqueue : s.queue ≠ []) (hnone : s.announced = []) :
    (s.modify r fun _ => a.pioRequest).queued dev fuel r ≠ .ok s' := by
  cases hfirst : s.queue with
  | nil => exact absurd hfirst hqueue
  | cons q rest =>
      unfold queued
      rw [show (s.modify r fun _ => a.pioRequest).queue = q :: rest from hfirst]
      cases fuel with
      | zero => exact nofun
      | succ fuel =>
          have hdev : (({ s.modify r (fun _ => a.pioRequest) with
              queue := (q :: rest) ++ [r] } : PioDriver).reqs r).dev = true :=
            congrArg PioRequest.dev (modify_reqs_self (s := s) fun _ => a.pioRequest)
          dsimp only
          rw [ataWaitOnReq, hdev, if_neg (by decide)]
          change (match s.announced with
            | [] => Except.error Halt.asleep
            | _ :: _ => _) ≠ _
          rw [hnone]
          exact nofun

/-- After a command with an error the request stays where it is, and the next one waits behind
it. -/
theorem not_retries_of_err (hfree : s.freeSlot = some r) (hqueue : s.queue = [])
    (herr : (dev s.commands).commandErr = true) : ¬ Retries dev true a s := by
  rintro ⟨fuel, s', result, hcall, -, -, -, hdevs, -⟩
  cases fuel with
  | zero => cases hcall
  | succ fuel =>
      rw [ataPioStart_succ hfree] at hcall
      change (s.modify r fun _ => a.pioRequest).queued dev fuel r >>= _ = _ at hcall
      rw [queued_err hqueue herr, ok_bind, reqs_failed] at hcall
      rw [if_pos ⟨rfl, (by decide : 1 < ataMaxError)⟩] at hcall
      generalize hnext : ((s.failed dev a r).modify r fun x => { x with error := false }) = s₁
        at hcall
      have hdev : (s₁.reqs r).dev = true := by
        rw [← hnext, modify_reqs_self, reqs_failed]
        rfl
      cases hfree₁ : s₁.freeSlot with
      | none =>
          cases fuel with
          | zero => cases hcall
          | succ fuel =>
              rw [ataPioStart, hfree₁] at hcall
              cases hcall
              have hsame := hdevs r
              rw [hdev, dev_freeSlot hfree] at hsame
              cases hsame
      | some r₁ =>
          obtain ⟨fuel, s₂, hrun, -⟩ := request_of_ataPioStart hfree₁ hcall
          refine queued_ne_ok (s := s₁) ?_ ?_ hrun
          · rw [← hnext]
            exact List.cons_ne_nil r []
          · rw [← hnext]
            rfl

theorem retries_queued_iff (hfree : s.freeSlot = some r) (hqueue : s.queue = []) :
    Retries dev true a s ↔ FirstSucceeds dev true a s := by
  constructor
  · intro h
    have herr : (dev s.commands).commandErr = false := by
      by_contra hmet
      exact not_retries_of_err hfree hqueue (Bool.not_eq_false _ ▸ hmet) h
    obtain ⟨fuel, s', result, hcall, -, -, hsuccess, -, -⟩ := h
    obtain ⟨fuel, s₁, hrun, hend⟩ := request_of_ataPioStart hfree hcall
    change (s.modify r fun _ => a.pioRequest).queued dev fuel r = .ok s₁ at hrun
    by_cases hfirst : SendsFirst a.rw a.lba
    · obtain ⟨hfinishes, hall⟩ := ends_of_queued_first hqueue herr hfirst hrun
      obtain ⟨hclean, hmoved⟩ := hfinishes.moved hend hsuccess
      obtain ⟨hone, hlength⟩ := hall hmoved
      exact ⟨hclean, hone.trans_le hlength, fun _ => hqueue, fun _ => hone ▸ Nat.one_pos,
        fun _ _ => hone⟩
    · obtain ⟨hfinishes, k, -, hlength, hrange⟩ := ends_of_queued_waits hqueue herr hfirst hrun
      obtain ⟨hclean, hmoved⟩ := hfinishes.moved hend hsuccess
      have hcount : a.count.toNat = k + 1 := by
        have hlengths := congrArg List.length (hmoved.symm.trans hrange)
        rwa [List.length_range, List.length_range] at hlengths
      exact ⟨hclean, hcount.trans_le hlength, fun _ => hqueue, fun _ => hcount ▸ Nat.succ_pos k,
        fun _ h => absurd h hfirst⟩
  · intro h
    obtain ⟨herr, -⟩ := not_meets_iff.mp h.clean
    have hpos := h.some rfl
    by_cases hfirst : SendsFirst a.rw a.lba
    · have hone := h.first rfl hfirst
      have hcount : a.count = 1 := BitVec.eq_of_toNat_eq hone
      cases hannounced : (dev s.commands).announced with
      | nil =>
          have hlength := h.announced
          rw [hone, hannounced] at hlength
          cases hlength
      | cons e rest =>
          have hrun : (s.modify r fun _ => a.pioRequest).queued dev 0 r = _ :=
            queued_first hqueue herr hfirst
          rw [hannounced] at hrun
          dsimp only at hrun
          rw [if_pos (by rw [hcount]; rfl)] at hrun
          refine (finishes_onlySent e rest).retries hfree hqueue hrun h.clean ?_
          rw [hone]
          exact moved_firstSent dev a s r e rest
    · obtain ⟨k, hk, hcount, hturns⟩ := exists_turns a.count
      have hcommanded : ((s.commanded dev a r).reqs r).count = BitVec.ofNat 32 (k + 1) := by
        rw [reqs_commanded, ← hcount]
        rfl
      obtain ⟨fuel, s', hrun⟩ : ∃ fuel s', ataWaitOnReq dev r fuel (s.commanded dev a r) = .ok s' :=
        exists_ataWaitOnReq waits_commanded hk hcommanded ((hturns hpos).trans_le h.announced)
      rw [← queued_waits hqueue herr hfirst] at hrun
      obtain ⟨hfinishes, k', hturns', -, hrange⟩ := ends_of_queued_waits hqueue herr hfirst hrun
      exact hfinishes.retries hfree hqueue hrun h.clean (hturns' hpos ▸ hrange)

/-! ## A request behind others -/

/-- What the start of a request can do: it may fail, be finished at once, or go on. -/
theorem ataPioStartRequest_cases {x : ReqSlot} {waits : Bool}
    (h : s.ataPioStartRequest dev x = .ok (s', waits)) :
    (∀ q ≠ x, s'.reqs q = s.reqs q) ∧
      ((s'.queue = s.queue ∧ (s'.reqs x).dev = (s.reqs x).dev ∧
          ((s'.reqs x).error = (s.reqs x).error ∨ s'.announced = [])) ∨
        (s'.queue = s.queue.tail ∧ (s'.reqs x).dev = false ∧
          (s'.reqs x).error = (s.reqs x).error)) := by
  unfold ataPioStartRequest at h
  dsimp only at h
  generalize hstart : ataStartRequest dev { s with driveIntr := true } = s₁ at h
  have hreqs : s₁.reqs = s.reqs := by rw [← hstart]; rfl
  have hqueue : s₁.queue = s.queue := by rw [← hstart]; rfl
  rw [← hreqs, ← hqueue]
  split at h
  · cases h
    refine ⟨fun q hq => modify_reqs_of_ne _ hq, Or.inl ⟨rfl, ?_, Or.inr rfl⟩⟩
    rw [modify_reqs_self]
    rfl
  · split at h
    · obtain ⟨s₂, hpoll, h⟩ := bind_eq_ok.mp h
      obtain ⟨hreqs₂, hqueue₂, -⟩ := ataPollDrq_keeps hpoll
      rw [← hreqs₂, ← hqueue₂]
      have htransfer : (s₂.ataPioTransfer x).reqs = s₂.reqs := rfl
      generalize hsent : (s₂.ataPioTransfer x).modify x .decrementCount = s₃ at h
      have hself : s₃.reqs x = (s₂.reqs x).decrementCount := by
        rw [← hsent, modify_reqs_self]
        rfl
      have hothers : ∀ q ≠ x, s₃.reqs q = s₂.reqs q := by
        intro q hq
        rw [← hsent, modify_reqs_of_ne _ hq]
        rfl
      have hkept : s₃.queue = s₂.queue := by rw [← hsent]; rfl
      split at h
      · cases h
        refine ⟨fun q hq => (reqs_ataFinishRequest_of_ne hq).trans (hothers q hq),
          Or.inr ⟨congrArg List.tail hkept, ?_, ?_⟩⟩
        · exact congrArg PioRequest.dev (reqs_ataFinishRequest s₃ x)
        · change ((s₃.ataFinishRequest x).reqs x).error = _
          rw [reqs_ataFinishRequest, hself]
          rfl
      · cases h
        refine ⟨hothers, Or.inl ⟨hkept, ?_, Or.inl ?_⟩⟩
        · rw [hself]
          rfl
        · rw [hself]
          rfl
    · cases h
      exact ⟨fun _ _ => rfl, Or.inl ⟨rfl, rfl, Or.inl rfl⟩⟩

/-- The request is the last in the queue.  If its command had an error there are no more
interrupts. -/
structure Behind (r : ReqSlot) (s : PioDriver) : Prop where
  queue : ∃ before, s.queue = before ++ [r] ∧ r ∉ before
  dev : (s.reqs r).dev = true
  error : (s.reqs r).error = true → s.announced = []

/-- The request and all before it are finished. -/
structure Over (r : ReqSlot) (s : PioDriver) : Prop where
  queue : s.queue = []
  dev : (s.reqs r).dev = false
  error : (s.reqs r).error = false

theorem last_cases {x : ReqSlot} {rest before : List ReqSlot} (h : x :: rest = before ++ [r])
    (hr : r ∉ before) : (x = r ∧ rest = []) ∨ (r ≠ x ∧ ∃ before', rest = before' ++ [r] ∧
      r ∉ before') := by
  cases before with
  | nil =>
      obtain ⟨rfl, rfl⟩ := List.cons.inj h
      exact Or.inl ⟨rfl, rfl⟩
  | cons y before =>
      obtain ⟨rfl, hrest⟩ := List.cons.inj h
      rw [List.mem_cons, not_or] at hr
      exact Or.inr ⟨hr.1, before, hrest, hr.2⟩

theorem Behind.startRequest {x : ReqSlot} {rest : List ReqSlot} {waits : Bool} (h : Behind r s)
    (hqueue : s.queue = x :: rest) (herror : (s.reqs r).error = false)
    (hrun : s.ataPioStartRequest dev x = .ok (s', waits)) : Behind r s' ∨ Over r s' := by
  obtain ⟨hothers, hcases⟩ := ataPioStartRequest_cases hrun
  obtain ⟨before, hbefore, hr⟩ := h.queue
  rcases last_cases (hqueue.symm.trans hbefore) hr with ⟨rfl, rfl⟩ | ⟨hne, before', hrest, hr'⟩
  · rcases hcases with ⟨hsame, hdev, herror' | hnone⟩ | ⟨htail, hdev, herror'⟩
    · left
      refine ⟨⟨before, hsame.trans hbefore, hr⟩, hdev.trans h.dev, fun he => ?_⟩
      rw [herror', herror] at he
      cases he
    · exact Or.inl ⟨⟨before, hsame.trans hbefore, hr⟩, hdev.trans h.dev, fun _ => hnone⟩
    · right
      rw [hqueue] at htail
      exact ⟨htail, hdev, herror'.trans herror⟩
  · left
    have hmine := hothers r hne
    have herror' : (s'.reqs r).error = true → s'.announced = [] := by
      rw [hmine, herror]
      exact nofun
    rcases hcases with ⟨hsame, -⟩ | ⟨htail, -⟩
    · exact ⟨⟨before, hsame.trans hbefore, hr⟩, hmine ▸ h.dev, herror'⟩
    · rw [hqueue] at htail
      exact ⟨⟨before', htail.trans hrest, hr'⟩, hmine ▸ h.dev, herror'⟩

theorem Behind.interrupt (h : Behind r s) (herror : (s.reqs r).error = false)
    (hrun : s.ataPioIntr dev = .ok s') : Behind r s' ∨ Over r s' := by
  obtain ⟨before, hbefore, hr⟩ := h.queue
  unfold ataPioIntr at hrun
  cases hqueue : s.queue with
  | nil =>
      rw [hqueue] at hrun
      cases hrun
  | cons x rest =>
      rw [hqueue] at hrun
      change (if ((s.interrupted x).reqs x).count = 0 then _ else _) = _ at hrun
      rcases last_cases (hqueue.symm.trans hbefore) hr with ⟨rfl, rfl⟩ | ⟨hne, before', hrest, hr'⟩
      · have herror' : ((s.interrupted x).reqs x).error = false := by
          rw [reqs_interrupted]
          exact herror
        have hdev : ((s.interrupted x).reqs x).dev = true := by
          rw [reqs_interrupted]
          exact h.dev
        split at hrun
        · cases hrun
          refine Or.inr ⟨rfl, ?_, ?_⟩
          · exact congrArg PioRequest.dev (reqs_ataFinishRequest (s.interrupted x) x)
          · change (((s.interrupted x).ataFinishRequest x).reqs x).error = false
            rw [reqs_ataFinishRequest]
            exact herror'
        · cases hrun
          exact Or.inl ⟨⟨before, hbefore, hr⟩, hdev,
            fun he => absurd (herror'.symm.trans he) Bool.false_ne_true⟩
      · have hmine : (s.interrupted x).reqs r = s.reqs r := reqs_interrupted_of_ne hne
        split at hrun
        · have hkept : ((s.interrupted x).ataFinishRequest x).reqs r = s.reqs r :=
            (reqs_ataFinishRequest_of_ne hne).trans hmine
          cases rest with
          | nil =>
              cases before' with
              | nil => cases hrest
              | cons y before' => cases hrest
          | cons y rest =>
              cases hstart : ataPioStartRequest dev { (s.interrupted x).ataFinishRequest x with
                  queue := y :: rest } y with
              | error e =>
                  change ((ataPioStartRequest dev { (s.interrupted x).ataFinishRequest x with
                    queue := y :: rest } y).map Prod.fst) = _ at hrun
                  rw [hstart] at hrun
                  cases hrun
              | ok p =>
                  change ((ataPioStartRequest dev { (s.interrupted x).ataFinishRequest x with
                    queue := y :: rest } y).map Prod.fst) = _ at hrun
                  rw [hstart] at hrun
                  cases hrun
                  have hbehind : Behind r { (s.interrupted x).ataFinishRequest x with
                      queue := y :: rest } := by
                    refine ⟨⟨before', hrest, hr'⟩, ?_, fun he => ?_⟩
                    · exact (congrArg PioRequest.dev hkept).trans h.dev
                    · have hfalse := (congrArg PioRequest.error hkept).trans herror
                      exact absurd (hfalse.symm.trans he) Bool.false_ne_true
                  exact hbehind.startRequest rfl ((congrArg PioRequest.error hkept).trans herror)
                    hstart
        · cases hrun
          refine Or.inl ⟨⟨before, hbefore, hr⟩, ?_, fun he => ?_⟩
          · exact (congrArg PioRequest.dev hmine).trans h.dev
          · have hfalse := (congrArg PioRequest.error hmine).trans herror
            exact absurd (hfalse.symm.trans he) Bool.false_ne_true

/-- The process goes on only when the queue is empty. -/
theorem Behind.over (h : Behind r s) (hrun : ataWaitOnReq dev r fuel s = .ok s') : Over r s' := by
  induction fuel generalizing s with
  | zero => cases hrun
  | succ fuel ih =>
      rw [ataWaitOnReq, h.dev, if_neg (by decide)] at hrun
      cases hnext : s.announced with
      | nil =>
          rw [hnext] at hrun
          cases hrun
      | cons e rest =>
          rw [hnext] at hrun
          have herror : (s.reqs r).error = false := by
            rw [Bool.eq_false_iff]
            intro he
            have hnone := h.error he
            rw [hnext] at hnone
            cases hnone
          have hnow : Behind r { s with err := e, announced := rest } :=
            ⟨h.queue, h.dev, fun he => absurd (herror.symm.trans he) Bool.false_ne_true⟩
          dsimp only at hrun
          split at hrun
          · obtain ⟨s₁, hintr, hrun⟩ := bind_eq_ok.mp hrun
            rcases hnow.interrupt herror hintr with hbehind | hover
            · exact ih hbehind hrun
            · cases fuel with
              | zero => cases hrun
              | succ fuel =>
                  rw [ataWaitOnReq, if_pos hover.dev] at hrun
                  cases hrun
                  exact hover
          · exact ih hnow hrun

/-- With other requests in the queue the call comes back only when they are finished too. -/
theorem not_retries_of_queue (hused : s.QueueUsed) (hfree : s.freeSlot = some r)
    (hqueue : s.queue ≠ []) : ¬ Retries dev true a s := by
  rintro ⟨fuel, s', result, hcall, -, -, -, -, hkept⟩
  obtain ⟨fuel, s₁, hrun, hend⟩ := request_of_ataPioStart hfree hcall
  have hr : r ∉ s.queue := fun hmem => by
    have hdev := hused r hmem
    rw [dev_freeSlot hfree] at hdev
    cases hdev
  have hbehind : Behind r { s.modify r (fun _ => a.pioRequest) with queue := s.queue ++ [r] } := by
    have hself : (s.modify r fun _ => a.pioRequest).reqs r = a.pioRequest := modify_reqs_self _
    refine ⟨⟨s.queue, rfl, hr⟩, congrArg PioRequest.dev hself, fun he => ?_⟩
    have hfalse := congrArg PioRequest.error hself
    exact absurd (hfalse.symm.trans he) Bool.false_ne_true
  have hwait : (s.modify r fun _ => a.pioRequest).queued dev fuel r =
      ataWaitOnReq dev r fuel
        { s.modify r (fun _ => a.pioRequest) with queue := s.queue ++ [r] } := by
    cases hfirst : s.queue with
    | nil => exact absurd hfirst hqueue
    | cons q rest =>
        unfold queued
        rw [show (s.modify r fun _ => a.pioRequest).queue = q :: rest from hfirst]
  change (s.modify r fun _ => a.pioRequest).queued dev fuel r = .ok s₁ at hrun
  rw [hwait] at hrun
  have hover := hbehind.over hrun
  obtain ⟨rfl, -⟩ := hend hover.error
  exact hqueue (hkept.symm.trans hover.queue)

/-- Without a free slot the call returns -1 at once; else it does what it should if and only if
its first command succeeds. -/
theorem retries_iff (dev : ℕ → Attempt) (multitasking : Bool) (a : Args) (s : PioDriver)
    (hused : s.QueueUsed) : Retries dev multitasking a s ↔
      s.freeSlot = none ∨ FirstSucceeds dev multitasking a s := by
  cases hfree : s.freeSlot with
  | none =>
      refine ⟨fun _ => Or.inl rfl, fun _ => ?_⟩
      refine ⟨1, s, -1, by rw [ataPioStart, hfree], Nat.le_add_right _ _, fun _ => rfl, nofun,
        fun _ => rfl, rfl⟩
  | some r =>
      rw [or_iff_right (by simp)]
      cases multitasking with
      | false => exact retries_polled_iff hfree
      | true =>
          by_cases hqueue : s.queue = []
          · exact retries_queued_iff hfree hqueue
          · exact ⟨fun h => absurd h (not_retries_of_queue hused hfree hqueue),
              fun h => absurd (h.alone rfl) hqueue⟩

/-- The driver before its first request. -/
def idle : PioDriver where
  reqs _ := { Args.pioRequest ⟨.read, 0, 0⟩ with dev := false }
  queue := []
  driveIntr := false
  err := false
  announced := []
  commands := 0
  moved _ := []

/-- Two sectors from a device that has them. -/
theorem retries_idle :
    Retries (fun _ => ⟨false, [false, false]⟩) true ⟨.read, 2, 63⟩ idle :=
  (retries_iff _ true _ idle (fun _ h => absurd h List.not_mem_nil)).mpr
    (.inr ⟨by unfold Attempt.Meets; decide, by decide, fun _ => rfl, fun _ => by decide,
      fun _ h => absurd h (by decide)⟩)

/-- A sector that can never be read is taken for read. -/
theorem not_retries_broken : ¬ Retries (fun _ => ⟨true, []⟩) false ⟨.read, 1, 63⟩ idle := by
  rintro ⟨fuel, s', result, hcall, -, hall, -, -, -⟩
  have hfree : idle.freeSlot = some ⟨0, by decide⟩ := by decide
  obtain ⟨fuel, s₁, hrun, hend⟩ := request_of_ataPioStart hfree hcall
  obtain ⟨-, -, -, herror, -⟩ := polled_keeps hrun
  rw [modify_reqs_self] at herror
  obtain ⟨rfl, hzero⟩ := hend herror
  have hone := hall fun _ _ _ => Or.inl rfl
  rw [hzero] at hone
  cases hone

end PioDriver

end Yak.Disk
