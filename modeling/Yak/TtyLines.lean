import Yak.TtyDelivery

/-!
# Lines of edited input

A canonical read looks at the last character of the queue whenever it wakes up, and goes to sleep
before it looks at any.  It follows the reference as long as every character is typed while a
read sleeps which has seen the one before.
-/

namespace Yak.Terminal

/-! ## The reference -/

/-- The lines that have ended, and the current one. -/
structure Lines where
  ended : List (List (BitVec 8))
  current : List (BitVec 8)

namespace Lines

/-- What a character makes of the current line. -/
def edit (t : Termios) (line : List (BitVec 8)) (c : BitVec 8) : List (BitVec 8) :=
  if c = t.cCc verase then line.dropLast
  else if c = t.cCc vkill then []
  else if c = t.cCc veof then line
  else line ++ [c]

/-- The characters that end a line. -/
def Ends (t : Termios) (c : BitVec 8) : Prop := c = nl ∨ c = t.cCc veof

instance (t : Termios) (c : BitVec 8) : Decidable (Ends t c) :=
  inferInstanceAs (Decidable (_ ∨ _))

def take (t : Termios) (ls : Lines) (c : BitVec 8) : Lines :=
  let line := edit t ls.current c
  if Ends t c then ⟨ls.ended ++ [line], []⟩ else ⟨ls.ended, line⟩

/-- The lines of a sequence of characters. -/
def reference (t : Termios) (cs : List (BitVec 8)) : Lines := cs.foldl (take t) ⟨[], []⟩

theorem reference_append (t : Termios) (cs : List (BitVec 8)) (c : BitVec 8) :
    reference t (cs ++ [c]) = take t (reference t cs) c := by
  simp only [reference, List.foldl_append, List.foldl_cons, List.foldl_nil]

theorem ended_prefix_take (t : Termios) (ls : Lines) (c : BitVec 8) :
    ls.ended <+: (take t ls c).ended := by
  unfold take
  dsimp only
  split
  next => exact List.prefix_append _ _
  next => exact List.prefix_rfl

end Lines

/-! ## Typing -/

/-- A session with whether its reader has been woken up, the characters that were typed, and the
lines which the reads have returned. -/
structure Typing (δ : Type) where
  session : Session δ
  woken : Bool
  typed : List (BitVec 8)
  lines : List (List (BitVec 8))

def Read.asleep : Read → Bool
  | .returned _ _ => false
  | _ => true

/-- The line of a call that has returned. -/
def Read.line : Read → List (List (BitVec 8))
  | .returned ret buf => [buf.take ret.toNat]
  | _ => []

namespace Typing

variable {δ : Type} (driverOut : TtyQueue → δ → Except Halt δ)

def start (t : Termios) (driver : δ) : Typing δ := ⟨.start t driver, false, [], []⟩

/-- A character wakes the reader up if it is put into the queue, and so does `schedule` if a timer
is left from another read. -/
def wakes (s : Session δ) : Event → Bool
  | .type c => ¬ s.tty.tReadq.Full ∧ ¬ Tty.Ignored s.tty.tTermios c
  | .timer => s.ttyBlock
  | _ => false

def typedBy (s : Session δ) : Event → List (BitVec 8)
  | .type c =>
      if Tty.Ignored s.tty.tTermios c then [] else [Tty.mapInput s.tty.tTermios c]
  | _ => []

def returnedBy (s' : Session δ) : Event → List (List (BitVec 8))
  | .read _ _ => s'.read.line
  | .resume _ => s'.read.line
  | _ => []

def wokenAfter (d : Typing δ) : Event → Bool
  | .resume _ => false
  | e => d.woken || (d.session.read.asleep && wakes d.session e)

/-- A sleeping reader runs again when it has been woken up. -/
def step (d : Typing δ) (e : Event) : Except Halt (Typing δ) := do
  match e, d.woken with
  | .resume _, false => .error .asleep
  | _, _ => do
      let s ← d.session.next driverOut e
      .ok { session := s
            woken := d.wokenAfter e
            typed := d.typed ++ typedBy d.session e
            lines := d.lines ++ returnedBy s e }

/-- The reads have returned the first lines of the reference.  When a read sleeps on, they have
returned all that have ended, and it has the current one. -/
structure Follows (d : Typing δ) : Prop where
  inOrder : d.lines <+: (Lines.reference d.session.tty.tTermios d.typed).ended
  caughtUp : ∀ scratch count, d.session.read = .canon scratch count → d.woken = false →
    Lines.reference d.session.tty.tTermios d.typed = ⟨d.lines, scratch⟩

def FollowsAlways (d : Typing δ) : List Event → Prop
  | [] => d.Follows
  | e :: es =>
      d.Follows ∧
        match d.step driverOut e with
        | .ok d' => FollowsAlways d' es
        | .error _ => True

/-- Reads have a count of at least `MAX_CANON`, and there are no signals. -/
def Long : Event → Prop
  | .read count _ => maxCanon ≤ count
  | .resume sigpending => sigpending = false
  | _ => True

/-- A character which a read can add to its line: it leaves room for another one or ends the line,
there is one to be erased, and control characters are from the lower half. -/
structure SafeChar (t : Termios) (line : List (BitVec 8)) (c : BitVec 8) : Prop where
  signed : c = t.cCc verase ∨ c = t.cCc vkill ∨ c = t.cCc veof → c.msb = false
  erase : c = t.cCc verase → line ≠ [] ∨ c = t.cCc vkill ∨ c = t.cCc veof
  room : line.length + 1 < maxCanon ∨ Lines.Ends t c ∨ c = t.cCc verase ∨ c = t.cCc vkill

/-- A character is typed while a read sleeps which has seen all others, no read begins when the
last character is `VEOF`, and no timer of another read wakes it up. -/
def SafeStep (d : Typing δ) : Event → Prop
  | .type c =>
      let t := d.session.tty.tTermios
      Tty.Ignored t c ∨ (¬ d.session.tty.tReadq.Full ∧ d.woken = false ∧
        ∃ scratch count, d.session.read = .canon scratch count ∧
          SafeChar t scratch (Tty.mapInput t c))
  | .read _ _ =>
      let tq := d.session.tty.tReadq
      tq.Empty ∨ ¬ d.session.tty.tTermios.Is (tq.tqBuf (tq.tqTail - 1)) veof
  | .timer => d.session.ttyBlock = false ∨ d.session.read.asleep = false
  | _ => True

def SafeRun (d : Typing δ) : List Event → Prop
  | [] => True
  | e :: es =>
      match d.step driverOut e with
      | .ok d' => d.SafeStep e ∧ SafeRun d' es
      | .error _ => True

end Typing

/-! ## A turn of a read -/

section Turn

variable {t : Termios} {line : List (BitVec 8)} {count : ℤ} {c : BitVec 8} {i : ℕ}

/-- The signed comparison is right for characters from the lower half. -/
theorem Termios.is_iff (h : c = t.cCc i → c.msb = false) : t.Is c i ↔ c = t.cCc i := by
  unfold Termios.Is
  constructor
  · intro heq
    rw [BitVec.toInt_eq_msb_cond] at heq
    split at heq
    next =>
      have hlt := c.isLt
      omega
    next => exact BitVec.eq_of_toNat_eq (Int.ofNat_inj.mp heq)
  · intro heq
    rw [BitVec.toInt_eq_toNat_of_msb (h heq), heq]

theorem Typing.SafeChar.edit_eq (h : Typing.SafeChar t line c) :
    (if t.Is c verase ∧ line ≠ [] then line.dropLast
      else if t.Is c vkill then []
      else if ¬ t.Is c veof then line ++ [c]
      else line) = Lines.edit t line c := by
  have herase : t.Is c verase ↔ c = t.cCc verase := Termios.is_iff fun heq => h.signed (Or.inl heq)
  have hkill : t.Is c vkill ↔ c = t.cCc vkill :=
    Termios.is_iff fun heq => h.signed (Or.inr (Or.inl heq))
  have heof : t.Is c veof ↔ c = t.cCc veof :=
    Termios.is_iff fun heq => h.signed (Or.inr (Or.inr heq))
  simp only [herase, hkill, heof, ite_not, Lines.edit]
  by_cases hc : c = t.cCc verase
  · rw [if_pos hc]
    cases line with
    | nil =>
        rw [if_neg fun hand => hand.2 rfl]
        split
        next => rfl
        next hne => exact if_pos (((h.erase hc).resolve_left (not_not.mpr rfl)).resolve_left hne)
    | cons b line => exact if_pos ⟨hc, List.cons_ne_nil b line⟩
  · rw [if_neg fun hand => hc hand.1, if_neg hc]

theorem Typing.SafeChar.room_edit (h : Typing.SafeChar t line c) (hline : line.length < maxCanon) :
    (Lines.edit t line c).length ≤ maxCanon ∧
      (¬ Lines.Ends t c → (Lines.edit t line c).length < maxCanon) := by
  have hroom := h.room
  unfold Lines.edit
  split
  next =>
    rw [List.length_dropLast]
    omega
  next hne =>
    split
    next => simp [maxCanon]
    next hne' =>
      split
      next => exact ⟨hline.le, fun _ => hline⟩
      next =>
        rw [List.length_append, List.length_singleton]
        refine ⟨hline, fun hends => ?_⟩
        simpa [hends, hne, hne'] using hroom

theorem Typing.SafeChar.canonTurn_eq (h : Typing.SafeChar t line c) (hline : line.length < maxCanon)
    (hcount : maxCanon ≤ count) :
    canonTurn t line count c =
      .ok (if Lines.Ends t c then .returned (Lines.edit t line c).length (Lines.edit t line c)
        else .canon (Lines.edit t line c) count) := by
  have heof : t.Is c veof ↔ c = t.cCc veof :=
    Termios.is_iff fun heq => h.signed (Or.inr (Or.inr heq))
  obtain ⟨hle, hlt⟩ := h.room_edit hline
  unfold canonTurn
  rw [h.edit_eq]
  simp only [heof]
  by_cases hends : Lines.Ends t c
  · have hmin : min count ((Lines.edit t line c).length : ℤ) = (Lines.edit t line c).length :=
      min_eq_right (by omega)
    rw [if_pos hends, if_neg fun hand => hends.elim hand.1 hand.2.1, hmin,
      if_neg (not_lt.mpr (Int.natCast_nonneg _)), Int.toNat_natCast, List.take_length]
  · obtain ⟨hnl, hneof⟩ := not_or.mp hends
    rw [if_neg hends, if_pos ⟨hnl, hneof, hlt hends⟩]

end Turn

/-! ## Runs -/

namespace Typing

variable {δ : Type} {driverOut : TtyQueue → δ → Except Halt δ} {d d' : Typing δ}

/-- The states of a read that has followed the reference: it is back, it sleeps, or it has been
woken up for one more character. -/
inductive Sees (t : Termios) (tq : TtyQueue) :
    Read → Bool → List (BitVec 8) → List (List (BitVec 8)) → Prop where
  | back {ret : ℤ} {buf typed : List (BitVec 8)} {lines : List (List (BitVec 8))}
      (href : Lines.reference t typed = ⟨lines, []⟩) :
      Sees t tq (.returned ret buf) false typed lines
  | asleep {line typed : List (BitVec 8)} {count : ℤ} {lines : List (List (BitVec 8))}
      (hcount : maxCanon ≤ count) (hline : line.length < maxCanon)
      (href : Lines.reference t typed = ⟨lines, line⟩) :
      Sees t tq (.canon line count) false typed lines
  | woken {line typed : List (BitVec 8)} {count : ℤ} {lines : List (List (BitVec 8))}
      {c : BitVec 8} (hcount : maxCanon ≤ count) (hline : line.length < maxCanon)
      (hlast : lastChar tq = .ok c) (hsafe : SafeChar t line c)
      (href : Lines.reference t typed = ⟨lines, line⟩) :
      Sees t tq (.canon line count) true (typed ++ [c]) lines

structure Inv (d : Typing δ) : Prop where
  canon : d.session.tty.tTermios.lflag icanon = true
  sees : Sees d.session.tty.tTermios d.session.tty.tReadq d.session.read d.woken d.typed d.lines

theorem inv_start {t : Termios} (hcanon : t.lflag icanon = true) (driver : δ) :
    (start t driver).Inv := ⟨hcanon, .back rfl⟩

theorem Inv.follows (h : d.Inv) : d.Follows := by
  obtain ⟨s, woken, typed, lines⟩ := d
  have hsees := h.sees
  dsimp only at hsees
  constructor
  · dsimp only
    generalize s.read = read at hsees
    cases hsees with
    | back href => rw [href]
    | asleep hcount hline href => rw [href]
    | woken hcount hline hlast hsafe href =>
        rw [Lines.reference_append, href]
        exact Lines.ended_prefix_take _ ⟨lines, _⟩ _
  · intro scratch count hread hasleep
    dsimp only at hread hasleep ⊢
    rw [hread, hasleep] at hsees
    cases hsees with
    | asleep hcount hline href => exact href

theorem step_ok {e : Event} (h : d.step driverOut e = .ok d') :
    ∃ s, d.session.next driverOut e = .ok s ∧
      (∀ sigpending, e = .resume sigpending → d.woken = true) ∧
      d' = { session := s
             woken := d.wokenAfter e
             typed := d.typed ++ typedBy d.session e
             lines := d.lines ++ returnedBy s e } := by
  unfold step at h
  split at h
  next => cases h
  next hnot =>
    obtain ⟨s, hnext, hd⟩ := bind_eq_ok.mp h
    refine ⟨s, hnext, fun sigpending he => ?_, (Except.ok.inj hd).symm⟩
    cases hwoken : d.woken with
    | false => exact (hnot sigpending he hwoken).elim
    | true => rfl

/-- Nothing changes for the reader when it is not woken up and no characters come. -/
theorem Inv.same {s : Session δ} {e : Event} (h : d.Inv) (htty : d.session.tty.SameInput s.tty)
    (hread : s.read = d.session.read) (hwoken : d.wokenAfter e = d.woken)
    (htyped : typedBy d.session e = []) (hlines : returnedBy s e = []) :
    Inv ⟨s, d.wokenAfter e, d.typed ++ typedBy d.session e, d.lines ++ returnedBy s e⟩ where
  canon := by
    rw [htty.1]
    exact h.canon
  sees := by
    rw [htty.1, htty.2, hread, hwoken, htyped, hlines, List.append_nil, List.append_nil]
    exact h.sees

theorem lastChar_putch {tq : TtyQueue} (hfull : ¬ tq.Full) (c : BitVec 8) :
    lastChar (tq.putch c) = .ok c := by
  rw [TtyQueue.putch, if_neg hfull, lastChar, if_neg (Nat.succ_ne_zero _)]
  simp only [Nat.add_sub_cancel, Function.update_self]

/-- A safe character is the only one which the reader has not seen. -/
theorem Inv.type {c : BitVec 8} (h : d.Inv) (hsafe : d.SafeStep (.type c)) :
    Inv ⟨{ d.session with tty := d.session.tty.processInput c }, d.wokenAfter (.type c),
      d.typed ++ typedBy d.session (.type c), d.lines ++ []⟩ := by
  by_cases hignored : Tty.Ignored d.session.tty.tTermios c
  · have hwoken : d.wokenAfter (.type c) = d.woken := by simp [wokenAfter, wakes, hignored]
    have hsame : d.session.tty.SameInput (d.session.tty.processInput c) := by
      rw [Tty.processInput, if_pos hignored]
      split
      next => exact ⟨rfl, rfl⟩
      next => exact ⟨rfl, rfl⟩
    exact h.same hsame rfl hwoken (if_pos hignored) rfl
  · obtain ⟨hroom, hasleep, line, count, hread, hchar⟩ := hsafe.resolve_left hignored
    have hinput : d.session.tty.processInput c = { d.session.tty with
        tReadq := d.session.tty.tReadq.putch (Tty.mapInput d.session.tty.tTermios c) } := by
      rw [Tty.processInput, if_neg hroom, if_neg hignored]
    have hwoken : d.wokenAfter (.type c) = true := by
      simp [wokenAfter, wakes, hignored, hroom, hread, Read.asleep]
    have htyped : typedBy d.session (.type c) = [Tty.mapInput d.session.tty.tTermios c] :=
      if_neg hignored
    have hsees := h.sees
    rw [hread, hasleep] at hsees
    rw [hinput, hwoken, htyped, List.append_nil]
    refine ⟨h.canon, ?_⟩
    dsimp only
    rw [hread]
    cases hsees with
    | asleep hcount hline href =>
        exact .woken hcount hline (lastChar_putch hroom _) hchar href

theorem ttyRead_canon {t : Termios} {tq : TtyQueue} {count : ℤ} {block : Bool} {r : Reader}
    (hcanon : t.lflag icanon = true)
    (hlast : tq.Empty ∨ ¬ t.Is (tq.tqBuf (tq.tqTail - 1)) veof)
    (h : ttyRead t tq count block = .ok r) : r = ⟨.canon [] count, tq, block⟩ := by
  unfold ttyRead at h
  dsimp only at h
  rw [if_pos hcanon] at h
  split at h
  next hne =>
    obtain ⟨c, hc, hr⟩ := bind_eq_ok.mp h
    have hchar : tq.tqBuf (tq.tqTail - 1) = c := by
      unfold lastChar at hc
      split at hc
      next => cases hc
      next => exact Except.ok.inj hc
    rw [hchar] at hlast
    rw [if_neg (hlast.resolve_left hne)] at hr
    exact (Except.ok.inj hr).symm
  next => exact (Except.ok.inj h).symm

/-- A read which may begin goes to sleep. -/
theorem Inv.read {count : ℤ} {block : Bool} {s : Session δ} (h : d.Inv)
    (hsafe : d.SafeStep (.read count block)) (hcount : maxCanon ≤ count)
    (hnext : d.session.next driverOut (.read count block) = .ok s) :
    Inv ⟨s, d.wokenAfter (.read count block), d.typed ++ [], d.lines ++ s.read.line⟩ := by
  obtain ⟨ret, buf, r, hread, hr, rfl⟩ := Delivery.next_read hnext
  obtain rfl := ttyRead_canon h.canon hsafe hr
  have hsees := h.sees
  rw [hread] at hsees
  have hasleep : d.woken = false := by
    generalize d.woken = woken at hsees
    cases hsees with
    | back href => rfl
  have hwoken : d.wokenAfter (.read count block) = false := by
    simp [wokenAfter, wakes, hasleep]
  rw [hwoken, List.append_nil]
  refine ⟨h.canon, .asleep hcount (by decide) ?_⟩
  rw [hasleep] at hsees
  cases hsees with
  | back href => exact href.trans (by simp [Session.setReader, Read.line])

/-- A read which has been woken up does with its character what the reference does. -/
theorem Inv.resume {s : Session δ} (h : d.Inv) (hwoken : d.woken = true)
    (hnext : d.session.next driverOut (.resume false) = .ok s) :
    Inv ⟨s, false, d.typed ++ [], d.lines ++ s.read.line⟩ := by
  obtain ⟨r, hr, hs⟩ := bind_eq_ok.mp hnext
  have hsees := h.sees
  rw [hwoken] at hsees
  rw [← Except.ok.inj hs, List.append_nil]
  generalize hread : d.session.read = read at hsees
  generalize d.typed = typed at hsees ⊢
  cases hsees with
  | @woken line typed count lines c hcount hline hlast hsafe href =>
      have hreader : d.session.reader.read = .canon line count := hread
      have hqueue : lastChar d.session.reader.tReadq = .ok c := hlast
      rw [Reader.resume, hreader] at hr
      dsimp only at hr
      rw [if_neg Bool.false_ne_true, hqueue, ok_bind, hsafe.canonTurn_eq hline hcount, ok_bind] at hr
      rw [← Except.ok.inj hr]
      refine ⟨h.canon, ?_⟩
      have hnext := Lines.reference_append d.session.tty.tTermios typed c
      rw [href, Lines.take] at hnext
      dsimp only [Session.setReader] at hnext ⊢
      split
      next hends =>
        rw [if_pos hends] at hnext
        refine .back (hnext.trans ?_)
        rw [Read.line, Int.toNat_natCast, List.take_length]
      next hends =>
        rw [if_neg hends] at hnext
        refine .asleep hcount ((hsafe.room_edit hline).2 hends) (hnext.trans ?_)
        simp [Read.line]

theorem Inv.step {e : Event} (h : d.Inv) (hlong : Long e) (hsafe : d.SafeStep e)
    (hstep : d.step driverOut e = .ok d') : d'.Inv := by
  obtain ⟨s, hnext, hwoken, rfl⟩ := step_ok hstep
  cases e with
  | echo buf =>
      obtain ⟨tty, hecho, hs⟩ := bind_eq_ok.mp hnext
      rw [← Except.ok.inj hs]
      have hsame := Tty.echoInput_sameInput d.session.tty buf tty hecho
      exact h.same hsame rfl (by simp [wokenAfter, wakes]) rfl rfl
  | type c =>
      rw [← Except.ok.inj hnext]
      exact h.type hsafe
  | read count block => exact h.read hsafe hlong hnext
  | resume sigpending =>
      obtain rfl : sigpending = false := hlong
      exact h.resume (hwoken false rfl) hnext
  | timer =>
      rw [← Except.ok.inj hnext]
      have hstill : d.wokenAfter .timer = d.woken := by
        obtain hblock | hback := hsafe
        · simp [wokenAfter, wakes, hblock]
        · simp [wokenAfter, hback]
      exact h.same ⟨rfl, rfl⟩ rfl hstill rfl rfl

theorem Inv.followsAlways {es : List Event} (h : d.Inv) (hlong : ∀ e ∈ es, Long e)
    (hsafe : d.SafeRun driverOut es) : d.FollowsAlways driverOut es := by
  induction es generalizing d with
  | nil => exact h.follows
  | cons e es ih =>
      unfold FollowsAlways
      refine ⟨h.follows, ?_⟩
      unfold SafeRun at hsafe
      cases hstep : d.step driverOut e with
      | error halt => trivial
      | ok d' =>
          rw [hstep] at hsafe
          have hd' := h.step (hlong e List.mem_cons_self) hsafe.1 hstep
          exact ih hd' (fun e' he' => hlong e' (List.mem_cons_of_mem e he')) hsafe.2

/-- On a terminal in canonical mode, the reads follow the reference if every step is safe. -/
theorem followsAlways_start (t : Termios) (driver : δ) (es : List Event)
    (hcanon : t.lflag icanon = true) (hlong : ∀ e ∈ es, Long e)
    (hsafe : (start t driver).SafeRun driverOut es) :
    (start t driver).FollowsAlways driverOut es :=
  (inv_start hcanon driver).followsAlways hlong hsafe

/-- A read that gets a character, one that erases it, and the end of the line. -/
theorem followsAlways_edited :
    (start Termios.init ()).FollowsAlways (fun _ _ => .ok ())
      [.read 255 false, .type 0x61#8, .resume false, .type 0x7F#8, .resume false, .type nl,
        .resume false] :=
  followsAlways_start Termios.init () _ (by decide) (by simp [Long, maxCanon])
    ⟨Or.inl rfl,
      Or.inr ⟨by decide, rfl, [], 255, rfl, by decide, by decide, Or.inl (by decide)⟩, trivial,
      Or.inr ⟨by decide, rfl, [0x61#8], 255, rfl, by decide, by decide, Or.inl (by decide)⟩, trivial,
      Or.inr ⟨by decide, rfl, [], 255, rfl, by decide, by decide, Or.inl (by decide)⟩, trivial,
      trivial⟩

/-- A line which is typed before the read begins is not returned: the read goes to sleep. -/
theorem not_followsAlways_early :
    ¬ ∀ (δ : Type) (driverOut : TtyQueue → δ → Except Halt δ) (t : Termios) (driver : δ)
      (es : List Event), t.lflag icanon = true → (∀ e ∈ es, Long e) →
        (start t driver).FollowsAlways driverOut es := by
  intro hall
  have halways := hall Unit (fun _ _ => .ok ()) Termios.init ()
    [.type 0x61#8, .type nl, .read 255 false] (by decide) (by simp [Long, maxCanon])
  have hcaught := halways.2.2.2.caughtUp [] 255 rfl rfl
  have hlines := congrArg Lines.ended hcaught
  revert hlines
  decide

end Typing

end Yak.Terminal
