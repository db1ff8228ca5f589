import Yak.Tty

/-!
# Room for terminal input

The tail of the read queue only ever goes up: neither kind of read gives space back.  After
`TTY_BUF_SIZE` characters in all, every further one is dropped, and that is right only as
long as nobody has read any of them.
-/

namespace Yak.Terminal

/-! ## Runs -/

/-- A terminal, the call of `tty_read` on it, and the places of the read queue whose characters
reads have taken. -/
structure Session (δ : Type) where
  tty : Tty δ
  read : Read
  ttyBlock : Bool
  taken : Finset ℕ

inductive Event where
  /-- `do_update_tty` echoes a string. -/
  | echo (buf : List (BitVec 8))
  /-- `do_update_tty` passes a character to `tty_process_input`. -/
  | type (c : BitVec 8)
  /-- A process whose `tty_block` is as given calls `tty_read`. -/
  | read (count : ℤ) (ttyBlock : Bool)
  /-- The reading process runs again after a sleep. -/
  | resume (sigpending : Bool)
  /-- `schedule` finds the time of the reading process expired. -/
  | timer

namespace Session

variable {δ : Type} (driverOut : TtyQueue → δ → Except Halt δ)

/-- After `tty_init` and `tty_open`, with settings of any kind. -/
def start (t : Termios) (driver : δ) : Session δ where
  tty := ⟨t, .reset, .reset, false, true, driver, []⟩
  read := .returned 0 []
  ttyBlock := false
  taken := ∅

def reader (s : Session δ) : Reader := ⟨s.read, s.tty.tReadq, s.ttyBlock⟩

def setReader (s : Session δ) (r : Reader) : Session δ :=
  { s with tty := { s.tty with tReadq := r.tReadq }, read := r.read, ttyBlock := r.ttyBlock }

/-- What happens at an event.  Only one call of `tty_read` has the mutex of the terminal. -/
def next (s : Session δ) : Event → Except Halt (Session δ)
  | .echo buf => do
      let tty ← s.tty.echoInput driverOut buf
      .ok { s with tty := tty }
  | .type c => .ok { s with tty := s.tty.processInput c }
  | .read count ttyBlock =>
      match s.read with
      | .returned _ _ => do
          let r ← ttyRead s.tty.tTermios s.tty.tReadq count ttyBlock
          .ok (s.setReader r)
      | _ => .error .asleep
  | .resume sigpending => do
      let r ← s.reader.resume s.tty.tTermios sigpending
      .ok (s.setReader r)
  | .timer => .ok { s with ttyBlock := false }

/-- A canonical read acts on the last character of the queue. -/
def looksAtLast (s : Session δ) : Event → Bool
  | .read _ _ => s.tty.tTermios.lflag icanon ∧ ¬ s.tty.tReadq.Empty ∧
      s.tty.tTermios.Is (s.tty.tReadq.tqBuf (s.tty.tReadq.tqTail - 1)) veof
  | .resume sigpending => match s.read with
      | .canon _ _ => !sigpending
      | _ => false
  | _ => false

/-- The places whose characters are taken at an event: those which the head leaves behind,
and the last one if a canonical read acts on it. -/
def takenBy (s : Session δ) (e : Event) (s' : Session δ) : Finset ℕ :=
  Finset.Ico s.tty.tReadq.tqHead s'.tty.tReadq.tqHead ∪
    if s.looksAtLast e then {s.tty.tReadq.tqTail - 1} else ∅

def step (s : Session δ) (e : Event) : Except Halt (Session δ) := do
  let s' ← s.next driverOut e
  .ok { s' with taken := s.taken ∪ s.takenBy e s' }

def run (s : Session δ) : List Event → Except Halt (Session δ)
  | [] => .ok s
  | e :: es => do
      let s' ← s.step driverOut e
      run s' es

/-- How many characters are queued which no read has taken. -/
def unconsumed (s : Session δ) : ℕ := (Finset.range s.tty.tReadq.tqTail \ s.taken).card

/-- A character is dropped only if the queue is full of characters which nobody has taken. -/
def AcceptsWhileRoom (s : Session δ) : List Event → Prop
  | [] => True
  | e :: es =>
      (∀ c, e = .type c → s.tty.tReadq.Full → ttyBufSize ≤ s.unconsumed) ∧
        match s.step driverOut e with
        | .ok s' => AcceptsWhileRoom s' es
        | .error _ => True

/-- The number of characters which an event brings. -/
def keeps (t : Termios) : Event → ℕ
  | .type c => if Tty.Ignored t c then 0 else 1
  | _ => 0

/-- At every character, fewer than `TTY_BUF_SIZE` have come before or none has been taken. -/
def FewTyped (s : Session δ) (count : ℕ) : List Event → Prop
  | [] => True
  | e :: es =>
      (∀ c, e = .type c → count < ttyBufSize ∨ s.taken = ∅) ∧
        match s.step driverOut e with
        | .ok s' => FewTyped s' (count + keeps s.tty.tTermios e) es
        | .error _ => True

end Session

/-! ## Reads leave the tail -/

/-- The head has gone up, and not beyond the tail. -/
def HeadMoves (tq tq' : TtyQueue) : Prop :=
  ∃ head, tq.tqHead ≤ head ∧ head ≤ tq.tqTail ∧ tq' = { tq with tqHead := head }

theorem HeadMoves.refl {tq : TtyQueue} (h : tq.tqHead ≤ tq.tqTail) : HeadMoves tq tq :=
  ⟨tq.tqHead, le_rfl, h, rfl⟩

theorem drain_headMoves {req : ℤ} {count : ℕ} {got : List (BitVec 8)} {tq : TtyQueue}
    (h : tq.tqHead + count ≤ tq.tqTail) : HeadMoves tq (drain req count got tq).2.2 := by
  induction count generalizing got tq with
  | zero => exact .refl h
  | succ count ih =>
      have hget : tq.getch = (tq.tqBuf tq.tqHead, { tq with tqHead := tq.tqHead + 1 }) := by
        refine if_neg ?_
        unfold TtyQueue.Empty
        omega
      rw [drain, hget]
      dsimp only
      split
      next => exact ⟨tq.tqHead + 1, by omega, by omega, rfl⟩
      next =>
        obtain ⟨head, hle, htail, hdrain⟩ :=
          @ih (got ++ [tq.tqBuf tq.tqHead]) { tq with tqHead := tq.tqHead + 1 } (by dsimp only; omega)
        exact ⟨head, le_trans (Nat.le_succ _) hle, htail, hdrain⟩

theorem case1Loop_headMoves {got : List (BitVec 8)} {req : ℤ} {tq : TtyQueue} {block : Bool}
    (h : tq.tqHead ≤ tq.tqTail) : HeadMoves tq (case1Loop got req tq block).tReadq := by
  have hdrain : HeadMoves tq (drain req (tq.tqTail - tq.tqHead) got tq).2.2 :=
    drain_headMoves (by omega)
  unfold case1Loop
  split
  next heq => rwa [heq] at hdrain
  next heq => rwa [heq] at hdrain

theorem case2Loop_headMoves {got : List (BitVec 8)} {req : ℤ} {tq : TtyQueue} {block : Bool}
    (h : tq.tqHead ≤ tq.tqTail) : HeadMoves tq (case2Loop got req tq block).tReadq := by
  have hdrain : HeadMoves tq (drain req (tq.tqTail - tq.tqHead) got tq).2.2 :=
    drain_headMoves (by omega)
  unfold case2Loop
  split
  next heq => rwa [heq] at hdrain
  next heq => rwa [heq] at hdrain

theorem ttyRead_headMoves {t : Termios} {tq : TtyQueue} {count : ℤ} {block : Bool}
    (h : tq.tqHead ≤ tq.tqTail) :
    Yields (fun r => HeadMoves tq r.tReadq) (ttyRead t tq count block) := by
  unfold ttyRead
  dsimp only
  split
  next =>
    split
    next => exact Yields.of_forall fun c => Yields.ok (.refl h)
    next => exact Yields.ok (.refl h)
  next =>
    split
    next =>
      refine Yields.ok ?_
      split
      next => exact .refl h
      next => exact case1Loop_headMoves h
    next =>
      split
      next => exact Yields.ok (case2Loop_headMoves h)
      next =>
        split
        next =>
          refine Yields.ok ?_
          split
          next => exact .refl h
          next hne =>
            have hlt : tq.tqHead < tq.tqTail := lt_of_le_of_ne h hne
            rw [TtyQueue.getch, if_neg hne]
            exact ⟨tq.tqHead + 1, Nat.le_succ _, hlt, rfl⟩
        next => exact Yields.ok ⟨tq.tqTail, h, le_rfl, rfl⟩

theorem Reader.resume_headMoves {t : Termios} {r : Reader} {sigpending : Bool}
    (h : r.tReadq.tqHead ≤ r.tReadq.tqTail) :
    Yields (fun r' => HeadMoves r.tReadq r'.tReadq) (r.resume t sigpending) := by
  unfold Reader.resume
  split
  next => exact Yields.ok (.refl h)
  next =>
    split
    next => exact Yields.ok (.refl h)
    next => exact Yields.of_forall fun c => Yields.of_forall fun read => Yields.ok (.refl h)
  next =>
    refine Yields.ok ?_
    split
    next => exact case1Loop_headMoves h
    next => exact .refl h
  next =>
    refine Yields.ok ?_
    split
    next => exact .refl h
    next =>
      split
      next => exact .refl h
      next =>
        split
        next => exact .refl h
        next => exact case1Loop_headMoves h
  next => exact Yields.ok (case1Loop_headMoves h)
  next =>
    refine Yields.ok ?_
    split
    next => exact .refl h
    next =>
      split
      next => exact .refl h
      next => exact case2Loop_headMoves h
  next =>
    refine Yields.ok ?_
    split
    next => exact .refl h
    next => exact .refl h

/-! ## Output leaves the read queue -/

namespace Tty

variable {δ : Type} {driverOut : TtyQueue → δ → Except Halt δ}

/-- The settings and the read queue are the same. -/
def SameInput (tp tp' : Tty δ) : Prop :=
  tp'.tTermios = tp.tTermios ∧ tp'.tReadq = tp.tReadq

theorem SameInput.trans {tp tp' tp'' : Tty δ} (h : tp.SameInput tp') (h' : tp'.SameInput tp'') :
    tp.SameInput tp'' := ⟨h'.1.trans h.1, h'.2.trans h.2⟩

theorem flushReset_sameInput (tp : Tty δ) : Yields tp.SameInput (tp.flushReset driverOut) := by
  refine Yields.bind (P := tp.SameInput) ?_ fun tp' h => Yields.ok h
  unfold flush
  split
  next => exact Yields.ok ⟨rfl, rfl⟩
  next => exact Yields.of_forall fun driver => Yields.ok ⟨rfl, rfl⟩

theorem echoChar_sameInput (tp : Tty δ) (printable : Bool) (c : BitVec 8) :
    Yields tp.SameInput (tp.echoChar driverOut printable c) := by
  unfold echoChar
  dsimp only
  split
  next => exact (flushReset_sameInput tp).bind fun tp' h => Yields.ok h
  next =>
    split
    next =>
      refine (flushReset_sameInput tp).bind fun tp' h => Yields.ok ?_
      split
      next => exact h
      next => exact h
    next =>
      refine Yields.ok ?_
      split
      next => exact ⟨rfl, rfl⟩
      next => exact ⟨rfl, rfl⟩

theorem processOutput_sameInput (tp : Tty δ) (c : BitVec 8) :
    Yields tp.SameInput (tp.processOutput driverOut c) := by
  refine Yields.bind (P := tp.SameInput) ?_ fun tp' h => ?_
  · unfold makeRoom
    split
    next => exact flushReset_sameInput tp
    next => exact Yields.ok ⟨rfl, rfl⟩
  · have hechoed {tp₁ : Tty δ} (h₁ : tp.SameInput tp₁) (printable : Bool) (c : BitVec 8) :
        Yields tp.SameInput (tp₁.echoChar driverOut printable c) :=
      (echoChar_sameInput tp₁ printable c).imp fun _ => h₁.trans
    have houtch : tp.SameInput (tp'.outch cr) := h
    split
    next => exact hechoed houtch _ _
    next =>
      split
      next => exact Yields.ok h
      next =>
        split
        next => exact hechoed h _ _
        next => exact hechoed h _ _

theorem echoInput_sameInput (tp : Tty δ) (buf : List (BitVec 8)) :
    Yields tp.SameInput (tp.echoInput driverOut buf) := by
  refine Yields.bind (P := tp.SameInput) ?_ fun tp' h =>
    (flushReset_sameInput tp').imp fun _ => h.trans
  intro tp' hloop
  refine foldlM_invariant tp.SameInput ?_ ⟨rfl, rfl⟩ hloop
  intro tp₁ c tp₂ _ h₁ hturn
  unfold echoTurn at hturn
  split at hturn
  next => exact h₁.trans (processOutput_sameInput tp₁ c tp₂ hturn)
  next => exact Except.ok.inj hturn ▸ h₁

end Tty

/-! ## What a run preserves -/

namespace Session

variable {δ : Type} {driverOut : TtyQueue → δ → Except Halt δ} {s s' : Session δ} {count : ℕ}

/-- After `count` characters which are not ignored, the tail has gone up by as many, up to the
end of the buffer. -/
structure Inv (s : Session δ) (count : ℕ) : Prop where
  tail : s.tty.tReadq.tqTail = min ttyBufSize count
  head : s.tty.tReadq.tqHead ≤ s.tty.tReadq.tqTail
  taken : s.taken ⊆ Finset.range s.tty.tReadq.tqTail

theorem inv_start (t : Termios) (driver : δ) : (start t driver).Inv 0 where
  tail := rfl
  head := le_rfl
  taken := Finset.empty_subset _

theorem Inv.full_iff (h : s.Inv count) : s.tty.tReadq.Full ↔ ttyBufSize ≤ count := by
  unfold TtyQueue.Full
  rw [h.tail]
  exact min_eq_left_iff

/-- A full queue is full of characters which nobody has taken if nobody has taken any. -/
theorem Inv.full_of_untaken (h : s.Inv count) (hfull : s.tty.tReadq.Full) :
    ttyBufSize ≤ s.unconsumed ↔ s.taken = ∅ := by
  have hcard : s.unconsumed + s.taken.card = ttyBufSize := by
    unfold unconsumed
    rw [Finset.card_sdiff_add_card_eq_card h.taken, Finset.card_range]
    exact hfull
  rw [← Finset.card_eq_zero]
  omega

/-- Besides `taken`, an event changes the tail for a character only. -/
structure Advances (s : Session δ) (e : Event) (s' : Session δ) : Prop where
  termios : s'.tty.tTermios = s.tty.tTermios
  tail : s'.tty.tReadq.tqTail = if s.tty.tReadq.Full then s.tty.tReadq.tqTail
    else s.tty.tReadq.tqTail + keeps s.tty.tTermios e
  headLe : s'.tty.tReadq.tqHead ≤ s'.tty.tReadq.tqTail
  headGe : s.tty.tReadq.tqHead ≤ s'.tty.tReadq.tqHead
  last : s.looksAtLast e → 0 < s.tty.tReadq.tqTail
  taken : s'.taken = s.taken

theorem setReader_advances {e : Event} {r : Reader} (hmoves : HeadMoves s.tty.tReadq r.tReadq)
    (hkeeps : keeps s.tty.tTermios e = 0) (hlast : s.looksAtLast e → 0 < s.tty.tReadq.tqTail) :
    s.Advances e (s.setReader r) := by
  obtain ⟨head, hge, hle, hmoved⟩ := hmoves
  have hreadq : (s.setReader r).tty.tReadq = { s.tty.tReadq with tqHead := head } := hmoved
  refine ⟨rfl, ?_, ?_, ?_, hlast, rfl⟩
  · rw [hreadq, hkeeps, Nat.add_zero, ite_self]
  · rw [hreadq]
    exact hle
  · rw [hreadq]
    exact hge

/-- A canonical read which goes on has looked at a character. -/
theorem last_of_resume {sigpending : Bool} {r : Reader}
    (h : s.reader.resume s.tty.tTermios sigpending = .ok r)
    (hlooks : s.looksAtLast (.resume sigpending)) : 0 < s.tty.tReadq.tqTail := by
  unfold looksAtLast at hlooks
  dsimp only at hlooks
  split at hlooks
  next scratch count hread =>
    obtain rfl : sigpending = false := by simpa using hlooks
    apply Nat.pos_of_ne_zero
    intro hzero
    simp [Reader.resume, reader, hread, lastChar, hzero] at h
  next => cases hlooks

theorem next_advances {e : Event} (h : s.tty.tReadq.tqHead ≤ s.tty.tReadq.tqTail) :
    Yields (s.Advances e) (s.next driverOut e) := by
  have hkept : s.tty.tReadq.tqTail =
      if s.tty.tReadq.Full then s.tty.tReadq.tqTail else s.tty.tReadq.tqTail + 0 :=
    (ite_self _).symm
  cases e with
  | echo buf =>
      refine (Tty.echoInput_sameInput s.tty buf).bind ?_
      rintro tty ⟨htermios, hreadq⟩
      refine Yields.ok ⟨htermios, ?_, ?_, ?_, nofun, rfl⟩
      · exact (congrArg TtyQueue.tqTail hreadq).trans hkept
      · exact hreadq ▸ h
      · exact hreadq ▸ le_rfl
  | type c =>
      refine Yields.ok ?_
      unfold Tty.processInput
      by_cases hfull : s.tty.tReadq.Full
      · rw [if_pos hfull]
        exact ⟨rfl, (if_pos hfull).symm, h, le_rfl, nofun, rfl⟩
      · rw [if_neg hfull]
        by_cases hignored : Tty.Ignored s.tty.tTermios c
        · have hkeeps : keeps s.tty.tTermios (.type c) = 0 := if_pos hignored
          rw [if_pos hignored]
          refine ⟨rfl, ?_, h, le_rfl, nofun, rfl⟩
          rw [hkeeps]
          exact hkept
        · have hkeeps : keeps s.tty.tTermios (.type c) = 1 := if_neg hignored
          rw [if_neg hignored, TtyQueue.putch, if_neg hfull]
          refine ⟨rfl, ?_, le_trans h (Nat.le_succ _), le_rfl, nofun, rfl⟩
          rw [hkeeps, if_neg hfull]
  | read n block =>
      cases hread : s.read with
      | returned ret buf =>
          simp only [next, hread]
          refine (ttyRead_headMoves h).bind fun r hmoves => Yields.ok ?_
          refine setReader_advances hmoves rfl fun hlooks => ?_
          have hempty : ¬ s.tty.tReadq.Empty := by
            simp only [looksAtLast, decide_eq_true_eq] at hlooks
            exact hlooks.2.1
          exact Nat.zero_lt_of_lt (lt_of_le_of_ne h hempty)
      | _ =>
          simp only [next, hread]
          exact Yields.error _
  | resume sigpending =>
      intro s' hs'
      obtain ⟨r, hr, hset⟩ := bind_eq_ok.mp hs'
      rw [← Except.ok.inj hset]
      exact setReader_advances (Reader.resume_headMoves h r hr) rfl (last_of_resume hr)
  | timer => exact Yields.ok ⟨rfl, hkept, h, le_rfl, nofun, rfl⟩

theorem Inv.step {e : Event} (h : s.Inv count) (hstep : s.step driverOut e = .ok s') :
    s'.Inv (count + keeps s.tty.tTermios e) ∧ s'.tty.tTermios = s.tty.tTermios := by
  obtain ⟨s₁, hnext, hend⟩ := bind_eq_ok.mp hstep
  have hadv := next_advances h.head s₁ hnext
  rw [← Except.ok.inj hend]
  have htail : s.tty.tReadq.tqTail ≤ s₁.tty.tReadq.tqTail := by
    rw [hadv.tail]
    split
    next => exact le_rfl
    next => exact Nat.le_add_right _ _
  refine ⟨⟨?_, hadv.headLe, ?_⟩, hadv.termios⟩
  · have hkeeps : keeps s.tty.tTermios e ≤ 1 := by
      unfold keeps
      split
      next => split <;> omega
      next => omega
    have hbefore := h.tail
    have hafter := hadv.tail
    dsimp only
    split at hafter
    next hfull =>
      have hcount := h.full_iff.mp hfull
      omega
    next hroom =>
      have hcount := mt h.full_iff.mpr hroom
      omega
  · intro i hi
    rw [Finset.mem_range]
    dsimp only at hi ⊢
    rw [Finset.mem_union, takenBy, Finset.mem_union] at hi
    obtain hold | hleft | hlast := hi
    · exact lt_of_lt_of_le (Finset.mem_range.mp (h.taken hold)) htail
    · exact lt_of_lt_of_le (Finset.mem_Ico.mp hleft).2 hadv.headLe
    · split at hlast
      next hlooks =>
        rw [Finset.mem_singleton] at hlast
        have hpos := hadv.last hlooks
        omega
      next => cases hlast

theorem Inv.room_iff (h : s.Inv count) :
    (s.tty.tReadq.Full → ttyBufSize ≤ s.unconsumed) ↔ (count < ttyBufSize ∨ s.taken = ∅) := by
  by_cases hfull : s.tty.tReadq.Full
  · have hcount := h.full_iff.mp hfull
    rw [h.full_of_untaken hfull]
    constructor
    · intro huntaken
      exact Or.inr (huntaken hfull)
    · rintro (hfew | huntaken) _
      · exact absurd hfew (not_lt.mpr hcount)
      · exact huntaken
  · have hcount := mt h.full_iff.mpr hfull
    exact ⟨fun _ => Or.inl (not_le.mp hcount), fun _ hfull' => absurd hfull' hfull⟩

theorem Inv.acceptsWhileRoom_iff (h : s.Inv count) (es : List Event) :
    s.AcceptsWhileRoom driverOut es ↔ s.FewTyped driverOut count es := by
  induction es generalizing s count with
  | nil => exact Iff.rfl
  | cons e es ih =>
      rw [AcceptsWhileRoom, FewTyped]
      refine and_congr (forall_congr' fun c => imp_congr_right fun _ => h.room_iff) ?_
      cases hstep : s.step driverOut e with
      | error halt => exact Iff.rfl
      | ok s' => exact ih (h.step hstep).1

/-- Characters are dropped for lack of room only, if and only if whenever one comes either
fewer than `TTY_BUF_SIZE` have come before it or none has been taken. -/
theorem acceptsWhileRoom_start_iff (t : Termios) (driver : δ) (es : List Event) :
    (start t driver).AcceptsWhileRoom driverOut es ↔ (start t driver).FewTyped driverOut 0 es :=
  (inv_start t driver).acceptsWhileRoom_iff es

/-! ## `do_update_tty` as a run -/

theorem takenBy_of_head {e : Event} (hlooks : s.looksAtLast e = false)
    (hhead : s'.tty.tReadq.tqHead = s.tty.tReadq.tqHead) : s.takenBy e s' = ∅ := by
  rw [takenBy, hhead, Finset.Ico_self, hlooks]
  rfl

theorem processInput_head (tp : Tty δ) (c : BitVec 8) :
    (tp.processInput c).tReadq.tqHead = tp.tReadq.tqHead := by
  unfold Tty.processInput TtyQueue.putch
  split_ifs <;> rfl

theorem run_type (s : Session δ) (buf : List (BitVec 8)) :
    s.run driverOut (buf.map .type) = .ok { s with tty := buf.foldl Tty.processInput s.tty } := by
  induction buf generalizing s with
  | nil => rfl
  | cons c buf ih =>
      have hstep : s.step driverOut (.type c) = .ok { s with tty := s.tty.processInput c } := by
        have htaken : s.takenBy (.type c) { s with tty := s.tty.processInput c } = ∅ :=
          takenBy_of_head rfl (processInput_head s.tty c)
        rw [step, next, ok_bind, htaken, Finset.union_empty]
      rw [List.map_cons, run, hstep, ok_bind, ih]
      rfl

/-- A call which wakes nobody up is a run: the string is echoed, and then it is taken in one
character after the other. -/
theorem run_doUpdateTty {buf : List (BitVec 8)} {tp : Tty δ} (hopen : s.tty.tOpen = true)
    (h : s.tty.doUpdateTty driverOut buf = .ok tp) :
    s.run driverOut (.echo buf :: buf.map .type) = .ok { s with tty := tp } := by
  rw [Tty.doUpdateTty, if_neg (not_not.mpr hopen)] at h
  obtain ⟨tty, hecho, hend⟩ := bind_eq_ok.mp h
  have hstep : s.step driverOut (.echo buf) = .ok { s with tty := tty } := by
    have htaken : s.takenBy (.echo buf) { s with tty := tty } = ∅ :=
      takenBy_of_head rfl (congrArg TtyQueue.tqHead (Tty.echoInput_sameInput s.tty buf tty hecho).2)
    rw [step, next, hecho, ok_bind, ok_bind, htaken, Finset.union_empty]
  rw [run, hstep, ok_bind, run_type, ← Except.ok.inj hend]

/-! ## A terminal in use -/

/-- The characters which a list of events brings. -/
def kept (t : Termios) (es : List Event) : ℕ := (es.map (keeps t)).sum

theorem FewTyped.after {es es' : List Event} (h : s.FewTyped driverOut count (es ++ es'))
    (hinv : s.Inv count) (hrun : s.run driverOut es = .ok s') :
    s'.FewTyped driverOut (count + kept s.tty.tTermios es) es' := by
  induction es generalizing s count with
  | nil =>
      obtain rfl := Except.ok.inj hrun
      exact h
  | cons e es ih =>
      obtain ⟨s₁, hstep, hrest⟩ := bind_eq_ok.mp hrun
      obtain ⟨hinv₁, htermios⟩ := hinv.step hstep
      have hfew : s₁.FewTyped driverOut (count + keeps s.tty.tTermios e) (es ++ es') := by
        have htail := h.2
        rw [hstep] at htail
        exact htail
      have hlater := ih hfew hinv₁ hrest
      rw [htermios] at hlater
      rw [kept, List.map_cons, List.sum_cons, ← Nat.add_assoc]
      exact hlater

/-- When something has been taken, the rest of the buffer is all there is. -/
theorem not_fewTyped_replicate {c : BitVec 8} {n : ℕ} (hc : ¬ Tty.Ignored s.tty.tTermios c)
    (htaken : s.taken ≠ ∅) (hn : ttyBufSize < count + n) (hcount : count ≤ ttyBufSize) :
    ¬ s.FewTyped driverOut count (List.replicate n (.type c)) := by
  induction n generalizing s count with
  | zero => omega
  | succ n ih =>
      rw [List.replicate_succ, FewTyped]
      rintro ⟨hroom, hrest⟩
      have hlt : count < ttyBufSize := (hroom c rfl).resolve_right htaken
      have hkeeps : keeps s.tty.tTermios (.type c) = 1 := if_neg hc
      have htermios : (s.tty.processInput c).tTermios = s.tty.tTermios := by
        unfold Tty.processInput
        split_ifs <;> rfl
      rw [hkeeps] at hrest
      refine ih ?_ ?_ (by omega) hlt hrest
      · dsimp only
        rw [htermios]
        exact hc
      · intro hempty
        exact htaken (Finset.union_eq_empty.mp hempty).1

/-- A line is read, and then the rest of the buffer is filled: the next character is dropped
although there are 511 in the queue. -/
theorem not_acceptsWhileRoom_line :
    ¬ ∀ (δ : Type) (driverOut : TtyQueue → δ → Except Halt δ) (t : Termios) (driver : δ)
      (es : List Event), (start t driver).AcceptsWhileRoom driverOut es := by
  intro hall
  have hrun : ((start Termios.init ()).run (fun _ _ => .ok ()) [.read 1 false, .type nl,
      .resume false]).map (fun s => decide (s.taken ≠ ∅ ∧ s.tty.tTermios.cIflag = 0)) =
        .ok true := by decide +kernel
  obtain ⟨s, hs, htaken, hflags⟩ := exists_of_map_decide hrun
  have hfew := (inv_start _ _).acceptsWhileRoom_iff _ |>.mp
    (hall Unit (fun _ _ => .ok ()) Termios.init ()
      ([.read 1 false, .type nl, .resume false] ++ List.replicate 512 (.type 0x61#8)))
  refine not_fewTyped_replicate ?_ htaken (by decide) (by decide) (hfew.after (inv_start _ _) hs)
  exact fun hignored => absurd hignored.1 (by decide)

end Session

end Yak.Terminal
