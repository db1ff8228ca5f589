import Yak.Halt

/-!
# Scancodes of the keyboard

The decoder of `drivers/ps2_kbd.c` for scancode set 1.  A sequence of more than one byte
advances `state`, and nothing ever sets `state` back, so that the decoder is in its first
state again after each sequence only if each is one byte.
-/

namespace Yak.Keyboard

/-! ## The decoder -/

/-- `enum keycode`, as far as the tables have it. -/
inductive Keycode where
  | keyNone | keyEsc | keyF1 | keyF2 | keyF3 | keyF4 | keyF5 | keyF6 | keyF7 | keyF8 | keyF9
  | keyF10 | keyF11 | keyF12 | keyPrintScreen | keyScrollLock | keyPauseBreak | keyBackTick
  | key1 | key2 | key3 | key4 | key5 | key6 | key7 | key8 | key9 | key0 | keyMinus | keyEquals
  | keyBackspace | keyInsert | keyHome | keyPageUp | keyTab | keyQ | keyW | keyE | keyR | keyT
  | keyY | keyU | keyI | keyO | keyP | keyLsqrBracket | keyRsqrBracket | keyBackslash | keyDelete
  | keyEnd | keyCapsLock | keyA | keyS | keyD | keyF | keyG | keyH | keyJ | keyK | keyL
  | keySemiColon | keyQuote | keyEnter | keyLshift | keyZ | keyX | keyC | keyV | keyB | keyN
  | keyM | keyComma | keyDot | keySlash | keyRshift | keyLctrl | keyLsuper | keyRsuper | keyLalt
  | keySpace | keyRalt | keyRctrl | keyArrowUp | keyArrowDown | keyArrowLeft | keyArrowRight
  | keyNumLock | keyPadSlash | keyPadStar | keyPadMinus | keyPad7 | keyPad8 | keyPad9 | keyPad4
  | keyPad5 | keyPad6 | keyPad1 | keyPad2 | keyPad3 | keyPadPlus | keyPadEnter | keyPad0
  | keyPadDot | keyMmPrevious | keyMmNext | keyMmMute | keyMmCalculator | keyMmPlay | keyMmStop
  | keyMmDown | keyMmUp | keyMmWwwHome | keyApps | keyAcpiPower | keyAcpiSleep | keyAcpiWake
  | keyMmWwwSearch | keyMmWwwFavorites | keyMmWwwRefresh | keyMmWwwStop | keyMmWwwForward
  | keyMmWwwBack | keyMmWwwMyComp | keyMmWwwEmail | keyMmWwwMediaSel
  deriving DecidableEq

inductive KeyType where
  | make
  | break
  deriving DecidableEq

/-- `struct kbd_packet`; the type is missing where it was not set. -/
structure KbdPacket where
  keycode : Keycode
  type : Option KeyType
  deriving DecidableEq

/-- The global variables `state` and `pause_flag`. -/
structure Kbd where
  state : ℕ
  pauseFlag : Bool
  deriving DecidableEq

def waitingForScan : ℕ := 0
def waitingForSecond : ℕ := 1
def waitingForFourth : ℕ := 3
def waitingForSixth : ℕ := 5

def set1Escape : BitVec 8 := 0xE0#8
def set1PauseEscape : BitVec 8 := 0xE1#8
def set1LshiftMake : BitVec 8 := 0x2A#8
def set1LshiftBreak : BitVec 8 := 0xAA#8

def scancodeSet1 : List Keycode := [
    .keyNone, .keyEsc, .key1, .key2, .key3, .key4, .key5, .key6, .key7, .key8, .key9, .key0,
    .keyMinus, .keyEquals, .keyBackspace, .keyTab, .keyQ, .keyW, .keyE, .keyR, .keyT, .keyY,
    .keyU, .keyI, .keyO, .keyP, .keyLsqrBracket, .keyRsqrBracket, .keyEnter, .keyLctrl, .keyA,
    .keyS, .keyD, .keyF, .keyG, .keyH, .keyJ, .keyK, .keyL, .keySemiColon, .keyQuote,
    .keyBackTick, .keyLshift, .keyBackslash, .keyZ, .keyX, .keyC, .keyV, .keyB, .keyN, .keyM,
    .keyComma, .keyDot, .keySlash, .keyRshift, .keyPadStar, .keyLalt, .keySpace, .keyCapsLock,
    .keyF1, .keyF2, .keyF3, .keyF4, .keyF5, .keyF6, .keyF7, .keyF8, .keyF9, .keyF10, .keyNumLock,
    .keyScrollLock, .keyPad7, .keyPad8, .keyPad9, .keyPadMinus, .keyPad4, .keyPad5, .keyPad6,
    .keyPadPlus, .keyPad1, .keyPad2, .keyPad3, .keyPad0, .keyPadDot, .keyNone, .keyNone,
    .keyNone, .keyF11, .keyF12]

/-- The codes behind `0xE0`. -/
def scancodeSet1Ext : List Keycode := [
    .keyNone, .keyNone, .keyNone, .keyNone, .keyNone, .keyNone, .keyNone, .keyNone, .keyNone,
    .keyNone, .keyNone, .keyNone, .keyNone, .keyNone, .keyNone, .keyNone, .keyMmPrevious,
    .keyNone, .keyNone, .keyNone, .keyNone, .keyNone, .keyNone, .keyNone, .keyNone, .keyMmNext,
    .keyNone, .keyNone, .keyPadEnter, .keyRctrl, .keyNone, .keyNone, .keyMmMute,
    .keyMmCalculator, .keyMmPlay, .keyNone, .keyMmStop, .keyNone, .keyNone, .keyNone, .keyNone,
    .keyNone, .keyNone, .keyNone, .keyNone, .keyNone, .keyMmDown, .keyNone, .keyMmUp, .keyNone,
    .keyMmWwwHome, .keyNone, .keyNone, .keyPadSlash, .keyNone, .keyNone, .keyRalt, .keyNone,
    .keyNone, .keyNone, .keyNone, .keyNone, .keyNone, .keyNone, .keyNone, .keyNone, .keyNone,
    .keyNone, .keyNone, .keyNone, .keyNone, .keyHome, .keyArrowUp, .keyPageUp, .keyNone,
    .keyArrowLeft, .keyNone, .keyArrowRight, .keyNone, .keyEnd, .keyArrowDown, .keyPageUp,
    .keyInsert, .keyDelete, .keyNone, .keyNone, .keyNone, .keyNone, .keyNone, .keyNone, .keyNone,
    .keyLsuper, .keyRsuper, .keyApps, .keyAcpiPower, .keyAcpiSleep, .keyNone, .keyNone, .keyNone,
    .keyAcpiWake, .keyNone, .keyMmWwwSearch, .keyMmWwwFavorites, .keyMmWwwRefresh, .keyMmWwwStop,
    .keyMmWwwForward, .keyMmWwwBack, .keyMmWwwMyComp, .keyMmWwwEmail, .keyMmWwwMediaSel]

namespace Kbd

def start : Kbd := ⟨waitingForScan, false⟩

def next (k : Kbd) : Kbd := { k with state := k.state + 1 }

/-- `get_keycode_set1`, with the type that it sets. -/
def getKeycodeSet1 (k : Kbd) (scan : BitVec 8) :
    Except Halt (Keycode × Option KeyType × Kbd) :=
  if scan > 0xE1#8 then .ok (.keyNone, none, k)
  else if k.pauseFlag ∧ k.state = waitingForSixth then .ok (.keyPauseBreak, some .make, k)
  else if scan = set1PauseEscape then .ok (.keyNone, none, { k.next with pauseFlag := true })
  else if scan = set1Escape then .ok (.keyNone, none, k.next)
  else if scan = set1LshiftMake ∧ k.state = waitingForSecond then .ok (.keyNone, none, k.next)
  else if scan = 0x37#8 ∧ k.state = waitingForFourth then .ok (.keyPrintScreen, some .make, k)
  else if scan = 0xB7#8 ∧ k.state = waitingForSecond then .ok (.keyNone, none, k.next)
  else if scan = set1LshiftBreak ∧ k.state = waitingForFourth then
    .ok (.keyPrintScreen, some .break, k)
  else
    let type := if scan &&& 0x80#8 ≠ 0#8 then .break else .make
    let table := if k.state = waitingForScan then scancodeSet1 else scancodeSet1Ext
    match table[(scan &&& 0x7F#8).toNat]? with
    | none => .error .outOfBounds
    | some keycode => .ok (keycode, some type, k)

/-- `ps2_kbd_irq` for a byte of the keyboard, with the packet that is handled. -/
def ps2KbdIrq (k : Kbd) (scan : BitVec 8) : Except Halt (List KbdPacket × Kbd) := do
  let (keycode, type, k) ← k.getKeycodeSet1 scan
  if keycode = .keyNone then .ok ([], k) else .ok ([⟨keycode, type⟩], k)

/-- The packets for the bytes, fed one at a time. -/
def feed (k : Kbd) : List (BitVec 8) → Except Halt (List KbdPacket × Kbd)
  | [] => .ok ([], k)
  | scan :: scans => do
      let (packets, k) ← k.ps2KbdIrq scan
      let (rest, k) ← k.feed scans
      .ok (packets ++ rest, k)

end Kbd

/-! ## Sequences of keys -/

/-- A complete sequence of scancode set 1: a code that the table has, a code behind `0xE0`,
or one of the sequences of print screen and pause. -/
inductive KeySequence where
  | code (scan : BitVec 8) (h : (scan &&& 0x7F#8).toNat < scancodeSet1.length)
  | extended (scan : BitVec 8) (h : (scan &&& 0x7F#8).toNat < scancodeSet1Ext.length)
  | printScreenMake
  | printScreenBreak
  | pause

namespace KeySequence

def bytes : KeySequence → List (BitVec 8)
  | .code scan _ => [scan]
  | .extended scan _ => [set1Escape, scan]
  | .printScreenMake => [set1Escape, set1LshiftMake, set1Escape, 0x37#8]
  | .printScreenBreak => [set1Escape, 0xB7#8, set1Escape, set1LshiftBreak]
  | .pause => [set1PauseEscape, 0x1D#8, 0x45#8, set1PauseEscape, 0x9D#8, 0xC5#8]

def OneByte : KeySequence → Prop
  | .code _ _ => True
  | _ => False

end KeySequence

/-- After each sequence the decoder is where it began, and the packets are those of the
sequences alone. -/
structure Memoryless (seqs : List KeySequence) : Prop where
  back : ∀ done todo, seqs = done ++ todo →
    ∃ packets, Kbd.start.feed (done.flatMap KeySequence.bytes) = .ok (packets, Kbd.start)
  packets : ∃ outs,
    List.Forall₂ (fun s out => ∃ k, Kbd.start.feed s.bytes = .ok (out, k)) seqs outs ∧
      ∃ k, Kbd.start.feed (seqs.flatMap KeySequence.bytes) = .ok (outs.flatten, k)

namespace Kbd

variable {k k' : Kbd} {scan : BitVec 8} {packets : List KbdPacket}

theorem feed_cons (h : k.ps2KbdIrq scan = .ok (packets, k')) (scans : List (BitVec 8)) :
    k.feed (scan :: scans) = (k'.feed scans).map fun r => (packets ++ r.1, r.2) := by
  rw [feed, h, ok_bind]
  dsimp only
  cases k'.feed scans <;> rfl

/-- The bytes that are already fed do not matter but for the state. -/
theorem feed_append {a : List (BitVec 8)} (h : k.feed a = .ok (packets, k'))
    (b : List (BitVec 8)) :
    k.feed (a ++ b) = (k'.feed b).map fun r => (packets ++ r.1, r.2) := by
  induction a generalizing k packets with
  | nil =>
      obtain ⟨rfl, rfl⟩ := Prod.mk.inj (Except.ok.inj h)
      rw [List.nil_append]
      cases k.feed b <;> rfl
  | cons scan a ih =>
      obtain ⟨⟨first, k₁⟩, hfirst, hrest⟩ := bind_eq_ok.mp h
      obtain ⟨⟨rest, k₂⟩, hfeed, hend⟩ := bind_eq_ok.mp hrest
      obtain ⟨rfl, rfl⟩ := Prod.mk.inj (Except.ok.inj hend)
      rw [List.cons_append, feed_cons hfirst, ih hfeed]
      cases k₂.feed b with
      | error e => rfl
      | ok r =>
          dsimp only [Except.map]
          rw [List.append_assoc]

/-- A code of the table is decoded alone. -/
theorem getKeycodeSet1_code (h : (scan &&& 0x7F#8).toNat < scancodeSet1.length) :
    ∃ keycode type, start.getKeycodeSet1 scan = .ok (keycode, type, start) := by
  unfold getKeycodeSet1
  split
  next => exact ⟨_, _, rfl⟩
  next =>
    have hpause : scan ≠ set1PauseEscape := by
      rintro rfl
      exact absurd h (by decide)
    have hescape : scan ≠ set1Escape := by
      rintro rfl
      exact absurd h (by decide)
    have hsecond : start.state ≠ waitingForSecond := by decide
    have hfourth : start.state ≠ waitingForFourth := by decide
    have hsixth : start.state ≠ waitingForSixth := by decide
    rw [if_neg fun hh => hsixth hh.2, if_neg hpause, if_neg hescape, if_neg fun hh => hsecond hh.2,
      if_neg fun hh => hfourth hh.2, if_neg fun hh => hsecond hh.2, if_neg fun hh => hfourth hh.2]
    dsimp only
    rw [if_pos (show start.state = waitingForScan from rfl), List.getElem?_eq_getElem h]
    exact ⟨_, _, rfl⟩

theorem feed_code (h : (scan &&& 0x7F#8).toNat < scancodeSet1.length) :
    ∃ out, start.feed [scan] = .ok (out, start) := by
  obtain ⟨keycode, type, hcode⟩ := getKeycodeSet1_code h
  have hirq : ∃ out, start.ps2KbdIrq scan = .ok (out, start) := by
    unfold ps2KbdIrq
    rw [hcode, ok_bind]
    dsimp only
    split
    next => exact ⟨_, rfl⟩
    next => exact ⟨_, rfl⟩
  obtain ⟨out, hout⟩ := hirq
  exact ⟨_, feed_cons hout []⟩

/-- No byte brings the state back. -/
theorem state_le (h : k.ps2KbdIrq scan = .ok (packets, k')) : k.state ≤ k'.state := by
  obtain ⟨⟨keycode, type, k₁⟩, hcode, hend⟩ := bind_eq_ok.mp h
  have hle : k.state ≤ k₁.state := by
    unfold getKeycodeSet1 at hcode
    dsimp only at hcode
    -- in each branch the state stays or is advanced
    repeat' split at hcode
    all_goals cases hcode
    all_goals first
      | exact le_rfl
      | exact Nat.le_succ _
  dsimp only at hend
  split at hend
  next =>
    obtain ⟨-, rfl⟩ := Prod.mk.inj (Except.ok.inj hend)
    exact hle
  next =>
    obtain ⟨-, rfl⟩ := Prod.mk.inj (Except.ok.inj hend)
    exact hle

theorem state_le_feed {scans : List (BitVec 8)} (h : k.feed scans = .ok (packets, k')) :
    k.state ≤ k'.state := by
  induction scans generalizing k packets with
  | nil =>
      obtain ⟨-, rfl⟩ := Prod.mk.inj (Except.ok.inj h)
      exact le_rfl
  | cons scan scans ih =>
      obtain ⟨⟨first, k₁⟩, hfirst, hrest⟩ := bind_eq_ok.mp h
      obtain ⟨⟨rest, k₂⟩, hfeed, hend⟩ := bind_eq_ok.mp hrest
      obtain ⟨-, rfl⟩ := Prod.mk.inj (Except.ok.inj hend)
      exact (state_le hfirst).trans (ih hfeed)

/-- Behind its first byte the decoder is not where it began. -/
theorem state_pos_of_escape (hscan : scan = set1Escape ∨ scan = set1PauseEscape)
    {scans : List (BitVec 8)} (h : start.feed (scan :: scans) = .ok (packets, k')) :
    0 < k'.state := by
  obtain ⟨⟨first, k₁⟩, hfirst, hrest⟩ := bind_eq_ok.mp h
  obtain ⟨⟨rest, k₂⟩, hfeed, hend⟩ := bind_eq_ok.mp hrest
  obtain ⟨-, rfl⟩ := Prod.mk.inj (Except.ok.inj hend)
  have hone : k₁.state = 1 := by
    rcases hscan with rfl | rfl
    · obtain ⟨-, rfl⟩ := Prod.mk.inj (Except.ok.inj hfirst)
      rfl
    · obtain ⟨-, rfl⟩ := Prod.mk.inj (Except.ok.inj hfirst)
      rfl
  have hle := state_le_feed hfeed
  omega

end Kbd

namespace KeySequence

theorem feed_of_oneByte {s : KeySequence} (h : s.OneByte) :
    ∃ out, Kbd.start.feed s.bytes = .ok (out, Kbd.start) := by
  cases s with
  | code scan hcode => exact Kbd.feed_code hcode
  | extended | printScreenMake | printScreenBreak | pause => exact h.elim

theorem state_pos_of_not_oneByte {s : KeySequence} (h : ¬ s.OneByte) {out : List KbdPacket}
    {k : Kbd} (hfeed : Kbd.start.feed s.bytes = .ok (out, k)) : 0 < k.state := by
  cases s with
  | code => exact absurd trivial h
  | extended scan => exact Kbd.state_pos_of_escape (Or.inl rfl) hfeed
  | printScreenMake => exact Kbd.state_pos_of_escape (Or.inl rfl) hfeed
  | printScreenBreak => exact Kbd.state_pos_of_escape (Or.inl rfl) hfeed
  | pause => exact Kbd.state_pos_of_escape (Or.inr rfl) hfeed

/-- Sequences of one byte, one after the other. -/
theorem feed_flatMap {seqs : List KeySequence} (h : ∀ s ∈ seqs, s.OneByte) :
    ∃ outs, List.Forall₂ (fun s out => ∃ k, Kbd.start.feed s.bytes = .ok (out, k)) seqs outs ∧
      Kbd.start.feed (seqs.flatMap bytes) = .ok (outs.flatten, Kbd.start) := by
  induction seqs with
  | nil => exact ⟨[], List.Forall₂.nil, rfl⟩
  | cons s seqs ih =>
      obtain ⟨hs, hseqs⟩ := List.forall_mem_cons.mp h
      obtain ⟨out, hout⟩ := feed_of_oneByte hs
      obtain ⟨outs, houts, hfeed⟩ := ih hseqs
      refine ⟨out :: outs, List.Forall₂.cons ⟨_, hout⟩ houts, ?_⟩
      rw [List.flatMap_cons, Kbd.feed_append hout, hfeed]
      rfl

end KeySequence

/-- The decoder is memoryless where no key has a sequence of more than one byte. -/
theorem memoryless_iff (seqs : List KeySequence) : Memoryless seqs ↔ ∀ s ∈ seqs, s.OneByte := by
  constructor
  · intro h s hs
    by_contra hnot
    obtain ⟨done, todo, rfl⟩ := List.append_of_mem hs
    obtain ⟨before, hbefore⟩ := h.back done (s :: todo) rfl
    obtain ⟨after, hafter⟩ := h.back (done ++ [s]) todo (by simp)
    rw [List.flatMap_append, Kbd.feed_append hbefore, List.flatMap_singleton] at hafter
    cases hfeed : Kbd.start.feed s.bytes with
    | error e =>
        rw [hfeed] at hafter
        cases hafter
    | ok r =>
        rw [hfeed] at hafter
        obtain ⟨-, hk⟩ := Prod.mk.inj (Except.ok.inj hafter)
        have hpos := KeySequence.state_pos_of_not_oneByte hnot hfeed
        rw [hk] at hpos
        exact absurd hpos (by decide)
  · intro h
    refine ⟨?_, ?_⟩
    · rintro done todo rfl
      have hdone : ∀ s ∈ done, s.OneByte := fun s hs => h s (List.mem_append_left todo hs)
      obtain ⟨outs, -, hfeed⟩ := KeySequence.feed_flatMap hdone
      exact ⟨_, hfeed⟩
    · obtain ⟨outs, houts, hfeed⟩ := KeySequence.feed_flatMap h
      exact ⟨outs, houts, _, hfeed⟩

/-- The make code of the right control key, and then the one of `A`. -/
def rightControl : List KeySequence :=
  [.extended 0x1D#8 (by decide), .code 0x1E#8 (by decide)]

theorem not_memoryless_rightControl : ¬ ∀ seqs, Memoryless seqs := by
  intro hall
  obtain ⟨packets, hback⟩ := (hall rightControl).back [.extended 0x1D#8 (by decide)] _ rfl
  have hstate : Kbd.start.feed [set1Escape, 0x1D#8] =
      .ok ([⟨.keyRctrl, some .make⟩], ⟨1, false⟩) := by decide +kernel
  rw [List.flatMap_singleton] at hback
  have hsame := hstate.symm.trans hback
  exact absurd (Prod.mk.inj (Except.ok.inj hsame)).2 (by decide)

end Yak.Keyboard
