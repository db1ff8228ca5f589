import Yak.TtyInput

/-!
# Raw input in order

What becomes of the characters that reads take off the queue when the terminal is not in
canonical mode.  A read which a signal ends takes its characters with it, and a read stores
characters without a look at its count.
-/

namespace Yak.Terminal

/-! ## Deliveries -/

/-- The characters which a call of `tty_read` has put into its buffer. -/
def Read.stored : Read → List (BitVec 8)
  | .returned _ buf => buf
  | .case1 got _ _ => got
  | .case1Spin got _ => got
  | .case2 got _ _ => got
  | .canon _ _ => []
  | .case1First _ _ => []
  | .case3 _ => []

/-- What its caller has from a call that has returned. -/
def Read.result : Read → List (BitVec 8)
  | .returned ret buf => buf.take ret.toNat
  | _ => []

/-- A session with the count of the last read, the characters that were accepted, and those that
the reads have returned. -/
structure Delivery (δ : Type) where
  session : Session δ
  count : ℤ
  accepted : List (BitVec 8)
  delivered : List (BitVec 8)

namespace Delivery

variable {δ : Type} (driverOut : TtyQueue → δ → Except Halt δ)

def start (t : Termios) (driver : δ) : Delivery δ := ⟨.start t driver, 0, [], []⟩

/-- The character which is put into the read queue. -/
def acceptedBy (s : Session δ) : Event → List (BitVec 8)
  | .type c =>
      if s.tty.tReadq.Full ∨ Tty.Ignored s.tty.tTermios c then []
      else [Tty.mapInput s.tty.tTermios c]
  | _ => []

/-- The characters of a read which returns. -/
def deliveredBy (s : Session δ) (e : Event) (s' : Session δ) : List (BitVec 8) :=
  match e, s.read with
  | .read _ _, _ => s'.read.result
  | .resume _, .returned _ _ => []
  | .resume _, _ => s'.read.result
  | _, _ => []

def step (d : Delivery δ) (e : Event) : Except Halt (Delivery δ) := do
  let s ← d.session.next driverOut e
  .ok { session := s
        count := match e with
          | .read count _ => count
          | _ => d.count
        accepted := d.accepted ++ acceptedBy d.session e
        delivered := d.delivered ++ deliveredBy d.session e s }

/-- What the reads have returned is the start of what was accepted, and while nobody reads all the
rest is queued.  A read which returns an error or 0 has stored nothing, and no read has stored
more than its count. -/
structure DeliversOnce (d : Delivery δ) : Prop where
  inOrder : d.delivered <+: d.accepted
  queued : ∀ ret buf, d.session.read = .returned ret buf →
    d.delivered ++ d.session.tty.tReadq.bytes = d.accepted
  empty : ∀ ret buf, d.session.read = .returned ret buf → ret ≤ 0 → buf = []
  within : (d.session.read.stored.length : ℤ) ≤ max d.count 0

/-- It is so in every state of a run. -/
def DeliversAlways (d : Delivery δ) : List Event → Prop
  | [] => d.DeliversOnce
  | e :: es =>
      d.DeliversOnce ∧
        match d.step driverOut e with
        | .ok d' => DeliversAlways d' es
        | .error _ => True

/-- A call that takes characters has room for at least one. -/
def HasRoom (tq : TtyQueue) (req : ℤ) : Prop := tq.Empty ∨ 1 ≤ req

/-- A read with `VMIN` and `VTIME` 0 has room for all characters in the queue, and another one for
one when it takes any. -/
def RoomFor (t : Termios) (tq : TtyQueue) (count : ℤ) : Prop :=
  if t.cCc vmin = 0#8 ∧ t.cCc vtime = 0#8 then (tq.bytes.length : ℤ) ≤ max count 0
  else HasRoom tq count

/-- A turn takes no characters it has no room for, and no signal ends it if it has some. -/
def SafeTurn (r : Reader) (sigpending : Bool) : Prop :=
  match r.read with
  | .case1First req _ => HasRoom r.tReadq req
  | .case1Spin _ req => HasRoom r.tReadq req
  | .case1 got req block =>
      SleepEnds r.tReadq block r.ttyBlock →
        if sigpending then got = [] else r.ttyBlock = true → HasRoom r.tReadq req
  | .case2 got req block =>
      SleepEnds r.tReadq block r.ttyBlock →
        if sigpending then got = [] else HasRoom r.tReadq req
  | _ => True

def SafeStep (d : Delivery δ) : Event → Prop
  | .read count _ => RoomFor d.session.tty.tTermios d.session.tty.tReadq count
  | .resume sigpending => SafeTurn d.session.reader sigpending
  | _ => True

def SafeRun (d : Delivery δ) : List Event → Prop
  | [] => True
  | e :: es =>
      match d.step driverOut e with
      | .ok d' => d.SafeStep e ∧ SafeRun d' es
      | .error _ => True

end Delivery

/-! ## The queue -/

namespace TtyQueue

variable {tq : TtyQueue}

theorem length_bytes (tq : TtyQueue) : tq.bytes.length = tq.tqTail - tq.tqHead := by
  rw [bytes, List.length_map, List.length_range]

theorem bytes_of_empty (h : tq.Empty) : tq.bytes = [] := by
  apply List.length_eq_zero_iff.mp
  rw [length_bytes, h, Nat.sub_self]

theorem bytes_getch (hle : tq.tqHead ≤ tq.tqTail) (h : ¬ tq.Empty) :
    tq.bytes = tq.getch.1 :: tq.getch.2.bytes := by
  have hlt : tq.tqHead < tq.tqTail := lt_of_le_of_ne hle h
  obtain ⟨k, hk⟩ := Nat.exists_eq_add_of_lt hlt
  rw [getch, if_neg h]
  unfold bytes
  dsimp only
  rw [show tq.tqTail - tq.tqHead = k + 1 by omega, show tq.tqTail - (tq.tqHead + 1) = k by omega,
    List.range_succ_eq_map, List.map_cons, List.map_map, Nat.add_zero]
  congr 1
  refine List.map_congr_left fun i _ => ?_
  exact congrArg tq.tqBuf (by simp only [Nat.succ_eq_add_one]; omega)

theorem bytes_putch (hle : tq.tqHead ≤ tq.tqTail) (h : ¬ tq.Full) (c : BitVec 8) :
    (tq.putch c).bytes = tq.bytes ++ [c] := by
  rw [putch, if_neg h]
  unfold bytes
  dsimp only
  rw [show tq.tqTail + 1 - tq.tqHead = tq.tqTail - tq.tqHead + 1 by omega, List.range_succ,
    List.map_append, List.map_singleton, Nat.add_sub_cancel' hle, Function.update_self]
  congr 1
  refine List.map_congr_left fun i hi => ?_
  have hlt := List.mem_range.mp hi
  exact Function.update_of_ne (by omega) _ _

end TtyQueue

/-! ## The loops -/

/-- What the loop that takes characters has done: it has moved some from the queue to the buffer,
until it has as many as it wants or the queue is empty. -/
structure Drained (req : ℤ) (got : List (BitVec 8)) (tq : TtyQueue) (stop : Bool)
    (got' : List (BitVec 8)) (tq' : TtyQueue) : Prop where
  bytes : got' ++ tq'.bytes = got ++ tq.bytes
  head : tq'.tqHead ≤ tq'.tqTail
  le : got.length ≤ got'.length
  lt : ¬ tq.Empty → got.length < got'.length
  enough : stop = true → (got'.length : ℤ) = req
  empty : stop = false → tq'.Empty
  fewer : stop = false → (got.length : ℤ) < req → (got'.length : ℤ) < req

theorem drain_drained (req : ℤ) {k : ℕ} (got : List (BitVec 8)) {tq : TtyQueue}
    (hk : k = tq.tqTail - tq.tqHead) (hle : tq.tqHead ≤ tq.tqTail) :
    Drained req got tq (drain req k got tq).1 (drain req k got tq).2.1
      (drain req k got tq).2.2 := by
  induction k generalizing got tq with
  | zero =>
      have hempty : tq.Empty := le_antisymm hle (Nat.le_of_sub_eq_zero hk.symm)
      exact ⟨rfl, hle, le_rfl, fun hne => absurd hempty hne, fun h => absurd h Bool.false_ne_true,
        fun _ => hempty, fun _ h => h⟩
  | succ k ih =>
      have hne : ¬ tq.Empty := by
        unfold TtyQueue.Empty
        omega
      have hgetch : tq.getch = (tq.tqBuf tq.tqHead, { tq with tqHead := tq.tqHead + 1 }) :=
        if_neg hne
      have hbytes := TtyQueue.bytes_getch hle hne
      have hlength : (got ++ [tq.tqBuf tq.tqHead]).length = got.length + 1 := List.length_append
      rw [drain]
      rw [hgetch] at hbytes ⊢
      dsimp only at hbytes ⊢
      have hmoved : (got ++ [tq.tqBuf tq.tqHead]) ++
          TtyQueue.bytes { tq with tqHead := tq.tqHead + 1 } = got ++ tq.bytes := by
        rw [hbytes, List.append_assoc]
        rfl
      by_cases hreq : (got.length : ℤ) + 1 = req
      · rw [if_pos hreq]
        refine ⟨hmoved, ?_, ?_, fun _ => ?_, fun _ => ?_, fun h => absurd h.symm Bool.false_ne_true,
          fun h => absurd h.symm Bool.false_ne_true⟩ <;> dsimp only <;> omega
      · rw [if_neg hreq]
        have hrest := @ih (got ++ [tq.tqBuf tq.tqHead]) { tq with tqHead := tq.tqHead + 1 }
          (by dsimp only; omega) (by dsimp only; omega)
        have hgrown := hrest.le
        refine ⟨hrest.bytes.trans hmoved, hrest.head, by omega, fun _ => by omega, hrest.enough,
          hrest.empty, fun hfalse hlt => hrest.fewer hfalse ?_⟩
        omega

/-- The characters of a read that is not back yet, and how many it wants. -/
def Fits (req : ℤ) (got : List (BitVec 8)) : Prop := got = [] ∨ (got.length : ℤ) < req

/-- A sleeping read wants no more than its count, and something if its count is not 0. -/
structure Wants (count req : ℤ) : Prop where
  le : req ≤ count
  pos : 1 ≤ count → 1 ≤ req

/-- What is known of a call of `tty_read` in non-canonical mode. -/
def ReadInv (count : ℤ) : Read → Prop
  | .returned ret buf =>
      (buf.length : ℤ) ≤ max count 0 ∧ (ret ≤ 0 → buf = []) ∧ (0 < ret → ret = buf.length)
  | .case1First req _ => Wants count req
  | .case1 got req _ => Wants count req ∧ Fits req got
  | .case1Spin got req => Wants count req ∧ Fits req got
  | .case2 got req _ => Wants count req ∧ Fits req got
  | .case3 _ => True
  | .canon _ _ => False

/-- A reader after some of its turns. -/
structure Goes (count : ℤ) (got : List (BitVec 8)) (tq : TtyQueue) (r : Reader) : Prop where
  read : ReadInv count r.read
  bytes : r.read.stored ++ r.tReadq.bytes = got ++ tq.bytes
  head : r.tReadq.tqHead ≤ r.tReadq.tqTail

section Loops

variable {count req : ℤ} {got : List (BitVec 8)} {tq : TtyQueue} {block : Bool}

theorem Fits.within (h : Fits req got) (hwants : Wants count req) :
    (got.length : ℤ) ≤ max count 0 := by
  obtain rfl | hlt := h
  · exact le_max_right _ _
  · exact le_max_of_le_left (hlt.le.trans hwants.le)

/-- What a loop leaves fits, if there was room for it. -/
theorem Drained.fits {got' : List (BitVec 8)} {tq' : TtyQueue}
    (h : Drained req got tq false got' tq') (hfits : Fits req got)
    (hroom : Delivery.HasRoom tq req) : Fits req got' := by
  obtain rfl | hlt := hfits
  · obtain hempty | hpos := hroom
    · have hbytes := h.bytes
      rw [TtyQueue.bytes_of_empty hempty] at hbytes
      exact Or.inl (List.append_eq_nil_iff.mp hbytes).1
    · exact Or.inr (h.fewer rfl (Int.lt_iff_add_one_le.mpr hpos))
  · exact Or.inr (h.fewer rfl hlt)

/-- A loop that has enough has room for it. -/
theorem Drained.returned {got' : List (BitVec 8)} {tq' : TtyQueue}
    (h : Drained req got tq true got' tq') (hwants : Wants count req) :
    ReadInv count (.returned req got') := by
  have hreq := h.enough rfl
  refine ⟨?_, fun hle => ?_, fun _ => hreq.symm⟩
  · exact le_max_of_le_left (hreq.le.trans hwants.le)
  · exact List.length_eq_zero_iff.mp (by omega)

theorem case1Loop_goes (hwants : Wants count req) (hfits : Fits req got)
    (hroom : Delivery.HasRoom tq req) (hle : tq.tqHead ≤ tq.tqTail) :
    Goes count got tq (case1Loop got req tq block) := by
  have hdrained := drain_drained req got rfl hle
  unfold case1Loop
  split
  next got' tq' heq =>
    rw [heq] at hdrained
    exact ⟨hdrained.returned hwants, hdrained.bytes, hdrained.head⟩
  next got' tq' heq =>
    rw [heq] at hdrained
    have hfits' := hdrained.fits hfits hroom
    dsimp only
    split
    next => exact ⟨⟨hwants, hfits'⟩, hdrained.bytes, hdrained.head⟩
    next => exact ⟨⟨hwants, hfits'⟩, hdrained.bytes, hdrained.head⟩

theorem case2Loop_goes (hwants : Wants count req) (hfits : Fits req got)
    (hroom : Delivery.HasRoom tq req) (hle : tq.tqHead ≤ tq.tqTail) :
    Goes count got tq (case2Loop got req tq block) := by
  have hdrained := drain_drained req got rfl hle
  unfold case2Loop
  split
  next got' tq' heq =>
    rw [heq] at hdrained
    exact ⟨hdrained.returned hwants, hdrained.bytes, hdrained.head⟩
  next got' tq' heq =>
    rw [heq] at hdrained
    exact ⟨⟨hwants, hdrained.fits hfits hroom⟩, hdrained.bytes, hdrained.head⟩

/-- Without room for a character, a read takes more than its count. -/
theorem Wants.exceeds {k : ℕ} (hwants : Wants count req) (hreq : ¬ 1 ≤ req) (hk : 0 < k) :
    max count 0 < (k : ℤ) := by
  have hcount := mt hwants.pos hreq
  omega

theorem case1Loop_exceeds (hwants : Wants count req) (hroom : ¬ Delivery.HasRoom tq req)
    (hle : tq.tqHead ≤ tq.tqTail) :
    max count 0 < ((case1Loop got req tq block).read.stored.length : ℤ) := by
  obtain ⟨hne, hreq⟩ := not_or.mp hroom
  have hlt := (drain_drained req got rfl hle).lt hne
  unfold case1Loop
  split
  next got' tq' heq =>
    rw [heq] at hlt
    exact hwants.exceeds hreq (Nat.zero_lt_of_lt hlt)
  next got' tq' heq =>
    rw [heq] at hlt
    dsimp only
    split
    next => exact hwants.exceeds hreq (Nat.zero_lt_of_lt hlt)
    next => exact hwants.exceeds hreq (Nat.zero_lt_of_lt hlt)

theorem case2Loop_exceeds (hwants : Wants count req) (hroom : ¬ Delivery.HasRoom tq req)
    (hle : tq.tqHead ≤ tq.tqTail) :
    max count 0 < ((case2Loop got req tq block).read.stored.length : ℤ) := by
  obtain ⟨hne, hreq⟩ := not_or.mp hroom
  have hlt := (drain_drained req got rfl hle).lt hne
  unfold case2Loop
  split
  next got' tq' heq =>
    rw [heq] at hlt
    exact hwants.exceeds hreq (Nat.zero_lt_of_lt hlt)
  next got' tq' heq =>
    rw [heq] at hlt
    exact hwants.exceeds hreq (Nat.zero_lt_of_lt hlt)

end Loops

/-! ## Calls and turns -/

section Turns

variable {t : Termios} {tq : TtyQueue} {count : ℤ} {block : Bool}

theorem wants_min {n : BitVec 8} (h : 0 < (n.toNat : ℤ)) : Wants count (min count n.toNat) where
  le := min_le_left _ _
  pos hcount := le_min hcount h

theorem hasRoom_min {n : BitVec 8} (h : 0 < (n.toNat : ℤ)) :
    Delivery.HasRoom tq (min count n.toNat) ↔ Delivery.HasRoom tq count := by
  refine or_congr Iff.rfl ?_
  omega

theorem pos_iff_ne_zero {n : BitVec 8} : 0 < (n.toNat : ℤ) ↔ n ≠ 0#8 := by
  rw [Ne, BitVec.toNat_eq]
  simp [Nat.pos_iff_ne_zero]

theorem ttyRead_goes (hraw : t.lflag icanon = false) (hroom : Delivery.RoomFor t tq count)
    (hle : tq.tqHead ≤ tq.tqTail) :
    Yields (Goes count [] tq) (ttyRead t tq count block) := by
  unfold ttyRead
  dsimp only
  rw [hraw, if_neg Bool.false_ne_true]
  by_cases hmin : 0 < ((t.cCc vmin).toNat : ℤ)
  · have hwants : Wants count (min count (t.cCc vmin).toNat) := wants_min hmin
    have hroom' : Delivery.HasRoom tq (min count (t.cCc vmin).toNat) := by
      rw [hasRoom_min hmin]
      rwa [Delivery.RoomFor, if_neg fun h => pos_iff_ne_zero.mp hmin h.1] at hroom
    split
    next =>
      refine Yields.ok ?_
      split
      next => exact ⟨hwants, rfl, hle⟩
      next => exact case1Loop_goes hwants (Or.inl rfl) hroom' hle
    next => exact Yields.ok (case2Loop_goes hwants (Or.inl rfl) hroom' hle)
  · rw [if_neg fun h => hmin h.1, if_neg hmin]
    split
    next htime =>
      rw [Delivery.RoomFor, if_neg fun h => pos_iff_ne_zero.mp htime h.2] at hroom
      refine Yields.ok ?_
      split
      next => exact ⟨trivial, rfl, hle⟩
      next hne =>
        have hbytes := TtyQueue.bytes_getch hle hne
        refine ⟨⟨?_, nofun, fun _ => rfl⟩, hbytes.symm, ?_⟩
        · exact le_max_of_le_left (hroom.resolve_left hne)
        · rw [TtyQueue.getch, if_neg hne]
          exact lt_of_le_of_ne hle hne
    next htime =>
      have hzero : t.cCc vmin = 0#8 ∧ t.cCc vtime = 0#8 :=
        ⟨not_not.mp (mt pos_iff_ne_zero.mpr hmin), not_not.mp (mt pos_iff_ne_zero.mpr htime)⟩
      rw [Delivery.RoomFor, if_pos hzero] at hroom
      refine Yields.ok ⟨⟨hroom, fun h => ?_, fun _ => rfl⟩, ?_, le_rfl⟩
      · exact List.length_eq_zero_iff.mp (by omega)
      · have hend : TtyQueue.Empty { tq with tqHead := tq.tqTail } := rfl
        rw [TtyQueue.bytes_of_empty hend]
        exact List.append_nil _

theorem ttyRead_exceeds (hraw : t.lflag icanon = false) (hroom : ¬ Delivery.RoomFor t tq count)
    (hle : tq.tqHead ≤ tq.tqTail) :
    Yields (fun r => max count 0 < (r.read.stored.length : ℤ)) (ttyRead t tq count block) := by
  unfold ttyRead
  dsimp only
  rw [hraw, if_neg Bool.false_ne_true]
  by_cases hmin : 0 < ((t.cCc vmin).toNat : ℤ)
  · have hwants : Wants count (min count (t.cCc vmin).toNat) := wants_min hmin
    have hroom' : ¬ Delivery.HasRoom tq (min count (t.cCc vmin).toNat) := by
      rw [hasRoom_min hmin]
      rwa [Delivery.RoomFor, if_neg fun h => pos_iff_ne_zero.mp hmin h.1] at hroom
    split
    next =>
      refine Yields.ok ?_
      rw [if_neg (not_or.mp hroom').1]
      exact case1Loop_exceeds hwants hroom' hle
    next => exact Yields.ok (case2Loop_exceeds hwants hroom' hle)
  · rw [if_neg fun h => hmin h.1, if_neg hmin]
    split
    next htime =>
      rw [Delivery.RoomFor, if_neg fun h => pos_iff_ne_zero.mp htime h.2] at hroom
      obtain ⟨hne, hcount⟩ := not_or.mp hroom
      refine Yields.ok ?_
      rw [if_neg hne]
      exact max_lt (not_le.mp hcount) zero_lt_one
    next htime =>
      have hzero : t.cCc vmin = 0#8 ∧ t.cCc vtime = 0#8 :=
        ⟨not_not.mp (mt pos_iff_ne_zero.mpr hmin), not_not.mp (mt pos_iff_ne_zero.mpr htime)⟩
      rw [Delivery.RoomFor, if_pos hzero] at hroom
      exact Yields.ok (not_le.mp hroom)

/-- A turn moves characters from the queue to the buffer. -/
theorem resume_goes {r : Reader} {sigpending : Bool} (hread : ReadInv count r.read)
    (hle : r.tReadq.tqHead ≤ r.tReadq.tqTail) (hsafe : Delivery.SafeTurn r sigpending) :
    Yields (Goes count r.read.stored r.tReadq) (r.resume t sigpending) := by
  obtain ⟨read, tq, ttyBlock⟩ := r
  have hstay : Goes count read.stored tq ⟨read, tq, ttyBlock⟩ := ⟨hread, rfl, hle⟩
  unfold Reader.resume
  cases read with
  | returned ret buf => exact Yields.ok hstay
  | canon scratch n => exact hread.elim
  | case1First req block =>
      refine Yields.ok ?_
      split
      next => exact case1Loop_goes hread (Or.inl rfl) hsafe hle
      next => exact hstay
  | case1 got req block =>
      refine Yields.ok ?_
      dsimp only
      split
      next => exact hstay
      next hends =>
        have hturn := hsafe (not_not.mp hends)
        split
        next hsig =>
          obtain rfl : got = [] := by rwa [if_pos hsig] at hturn
          exact ⟨⟨le_max_right _ _, fun _ => rfl, nofun⟩, rfl, hle⟩
        next hsig =>
          rw [if_neg hsig] at hturn
          split
          next =>
            refine ⟨⟨hread.2.within hread.1, ?_, fun _ => rfl⟩, rfl, hle⟩
            exact fun h => List.length_eq_zero_iff.mp (by omega)
          next hblock =>
            exact case1Loop_goes hread.1 hread.2 (hturn (not_not.mp hblock)) hle
  | case1Spin got req => exact Yields.ok (case1Loop_goes hread.1 hread.2 hsafe hle)
  | case2 got req block =>
      refine Yields.ok ?_
      dsimp only
      split
      next => exact hstay
      next hends =>
        have hturn := hsafe (not_not.mp hends)
        split
        next hsig =>
          obtain rfl : got = [] := by rwa [if_pos hsig] at hturn
          exact ⟨⟨le_max_right _ _, fun _ => rfl, nofun⟩, rfl, hle⟩
        next hsig =>
          rw [if_neg hsig] at hturn
          exact case2Loop_goes hread.1 hread.2 hturn hle
  | case3 block =>
      refine Yields.ok ?_
      dsimp only
      split
      next => exact hstay
      next =>
        refine ⟨⟨le_max_right _ _, fun _ => rfl, fun hpos => ?_⟩, rfl, hle⟩
        split at hpos
        next => cases hpos
        next => cases hpos

/-- After an unsafe turn, either the buffer is too short or an error hides characters. -/
theorem resume_fails {r : Reader} {sigpending : Bool} (hread : ReadInv count r.read)
    (hle : r.tReadq.tqHead ≤ r.tReadq.tqTail) (hdanger : ¬ Delivery.SafeTurn r sigpending) :
    Yields (fun r' => max count 0 < (r'.read.stored.length : ℤ) ∨
      ∃ got, got ≠ [] ∧ r'.read = .returned (-eintr) got) (r.resume t sigpending) := by
  obtain ⟨read, tq, ttyBlock⟩ := r
  unfold Reader.resume
  cases read with
  | returned ret buf => exact absurd trivial hdanger
  | canon scratch n => exact absurd trivial hdanger
  | case1First req block =>
      refine Yields.ok ?_
      have hends : SleepEnds tq block ttyBlock := Or.inr (not_or.mp hdanger).1
      dsimp only
      rw [if_pos hends]
      exact Or.inl (case1Loop_exceeds hread hdanger hle)
  | case1 got req block =>
      refine Yields.ok ?_
      dsimp only
      obtain ⟨hends, hturn⟩ := Classical.not_imp.mp hdanger
      rw [if_neg (not_not.mpr hends)]
      dsimp only at hturn
      split at hturn
      next hsig =>
        rw [if_pos hsig]
        exact Or.inr ⟨got, hturn, rfl⟩
      next hsig =>
        obtain ⟨hblock, hroom⟩ := Classical.not_imp.mp hturn
        rw [if_neg hsig, if_neg (not_not.mpr hblock)]
        exact Or.inl (case1Loop_exceeds hread.1 hroom hle)
  | case1Spin got req => exact Yields.ok (Or.inl (case1Loop_exceeds hread.1 hdanger hle))
  | case2 got req block =>
      refine Yields.ok ?_
      dsimp only
      obtain ⟨hends, hturn⟩ := Classical.not_imp.mp hdanger
      rw [if_neg (not_not.mpr hends)]
      dsimp only at hturn
      split at hturn
      next hsig =>
        rw [if_pos hsig]
        exact Or.inr ⟨got, hturn, rfl⟩
      next hsig =>
        rw [if_neg hsig]
        exact Or.inl (case2Loop_exceeds hread.1 hturn hle)
  | case3 block => exact absurd trivial hdanger

end Turns

/-! ## Runs -/

/-- The characters of a call that has not returned. -/
def Read.pending : Read → List (BitVec 8)
  | .returned _ _ => []
  | read => read.stored

theorem ReadInv.result_append {count : ℤ} {read : Read} (h : ReadInv count read) :
    read.result ++ read.pending = read.stored := by
  cases read with
  | returned ret buf =>
      rw [Read.result, Read.pending, List.append_nil, Read.stored]
      apply List.take_of_length_le
      by_cases hret : 0 < ret
      · have hlength := h.2.2 hret
        omega
      · rw [h.2.1 (not_lt.mp hret)]
        exact Nat.zero_le _
  | _ => rfl

theorem ReadInv.within {count : ℤ} {read : Read} (h : ReadInv count read) :
    (read.stored.length : ℤ) ≤ max count 0 := by
  cases read with
  | returned ret buf => exact h.1
  | case1 got req block => exact h.2.within h.1
  | case1Spin got req => exact h.2.within h.1
  | case2 got req block => exact h.2.within h.1
  | _ => exact le_max_right _ _

namespace Delivery

variable {δ : Type} {driverOut : TtyQueue → δ → Except Halt δ} {d d' : Delivery δ}

/-- Every accepted character is with its caller, in the buffer of the sleeping read or queued. -/
structure Inv (d : Delivery δ) : Prop where
  raw : d.session.tty.tTermios.lflag icanon = false
  head : d.session.tty.tReadq.tqHead ≤ d.session.tty.tReadq.tqTail
  read : ReadInv d.count d.session.read
  chars : d.delivered ++ (d.session.read.pending ++ d.session.tty.tReadq.bytes) = d.accepted

theorem inv_start {t : Termios} (hraw : t.lflag icanon = false) (driver : δ) :
    (start t driver).Inv :=
  ⟨hraw, le_rfl, ⟨le_rfl, fun _ => rfl, nofun⟩, rfl⟩

theorem Inv.deliversOnce (h : d.Inv) : d.DeliversOnce where
  inOrder := ⟨_, h.chars⟩
  queued ret buf hread := by
    have hchars := h.chars
    rwa [hread] at hchars
  empty ret buf hread := by
    have hinv := h.read
    rw [hread] at hinv
    exact hinv.2.1
  within := h.read.within

theorem next_read {s s' : Session δ} {count : ℤ} {block : Bool}
    (h : s.next driverOut (.read count block) = .ok s') :
    ∃ ret buf r, s.read = .returned ret buf ∧
      ttyRead s.tty.tTermios s.tty.tReadq count block = .ok r ∧ s' = s.setReader r := by
  cases hread : s.read with
  | returned ret buf =>
      simp only [Session.next, hread] at h
      obtain ⟨r, hr, hs⟩ := bind_eq_ok.mp h
      exact ⟨ret, buf, r, rfl, hr, (Except.ok.inj hs).symm⟩
  | _ =>
      simp only [Session.next, hread] at h
      cases h

/-- A reader which has moved characters from the queue keeps the invariant. -/
theorem Inv.setReader {count : ℤ} {got : List (BitVec 8)} {r : Reader} (h : d.Inv)
    (hgoes : Goes count got d.session.tty.tReadq r) (hgot : d.session.read.pending = got) :
    Inv ⟨d.session.setReader r, count, d.accepted ++ [], d.delivered ++ r.read.result⟩ where
  raw := h.raw
  head := hgoes.head
  read := hgoes.read
  chars := by
    have hmoved : r.read.result ++ (r.read.pending ++ r.tReadq.bytes) =
        got ++ d.session.tty.tReadq.bytes := by
      rw [← List.append_assoc, hgoes.read.result_append, hgoes.bytes]
    rw [List.append_assoc, List.append_nil, ← h.chars, hgot]
    exact congrArg (d.delivered ++ ·) hmoved

/-- An event which only concerns other things keeps the invariant. -/
theorem Inv.same {s : Session δ} (h : d.Inv) (htty : d.session.tty.SameInput s.tty)
    (hread : s.read = d.session.read) :
    Inv ⟨s, d.count, d.accepted ++ [], d.delivered ++ []⟩ where
  raw := by
    rw [htty.1]
    exact h.raw
  head := by
    rw [htty.2]
    exact h.head
  read := by
    rw [hread]
    exact h.read
  chars := by
    rw [htty.2, hread, List.append_nil, List.append_nil]
    exact h.chars

theorem Inv.type {c : BitVec 8} (h : d.Inv) :
    Inv ⟨{ d.session with tty := d.session.tty.processInput c }, d.count,
      d.accepted ++ acceptedBy d.session (.type c), d.delivered ++ []⟩ := by
  unfold acceptedBy Tty.processInput
  by_cases hfull : d.session.tty.tReadq.Full
  · rw [if_pos hfull]
    simp only [hfull, true_or, if_true]
    exact h.same ⟨rfl, rfl⟩ rfl
  · rw [if_neg hfull]
    by_cases hignored : Tty.Ignored d.session.tty.tTermios c
    · rw [if_pos hignored]
      simp only [hignored, or_true, if_true]
      exact h.same ⟨rfl, rfl⟩ rfl
    · rw [if_neg hignored]
      simp only [hfull, hignored, or_self, if_false]
      have hbytes := TtyQueue.bytes_putch h.head hfull (Tty.mapInput d.session.tty.tTermios c)
      refine ⟨h.raw, ?_, h.read, ?_⟩
      · have hle := h.head
        rw [TtyQueue.putch, if_neg hfull]
        exact Nat.le_succ_of_le hle
      · rw [hbytes, List.append_nil, ← h.chars]
        simp only [List.append_assoc]

theorem Inv.step {e : Event} (h : d.Inv) (hsafe : d.SafeStep e)
    (hstep : d.step driverOut e = .ok d') : d'.Inv := by
  obtain ⟨s, hnext, hend⟩ := bind_eq_ok.mp hstep
  rw [← Except.ok.inj hend]
  cases e with
  | echo buf =>
      obtain ⟨tty, hecho, hs⟩ := bind_eq_ok.mp hnext
      rw [← Except.ok.inj hs]
      exact h.same (Tty.echoInput_sameInput d.session.tty buf tty hecho) rfl
  | type c =>
      rw [← Except.ok.inj hnext]
      exact h.type
  | read count block =>
      obtain ⟨ret, buf, r, hread, hr, rfl⟩ := next_read hnext
      exact h.setReader (ttyRead_goes h.raw hsafe h.head r hr) (by rw [hread]; rfl)
  | resume sigpending =>
      obtain ⟨r, hr, hs⟩ := bind_eq_ok.mp hnext
      rw [← Except.ok.inj hs]
      have hgoes := resume_goes h.read h.head hsafe r hr
      by_cases hback : ∃ ret buf, d.session.read = .returned ret buf
      · obtain ⟨ret, buf, hread⟩ := hback
        have hback : d.session.reader.read = .returned ret buf := hread
        obtain rfl : d.session.reader = r := by
          rw [Reader.resume, hback] at hr
          exact Except.ok.inj hr
        have hnone : deliveredBy d.session (.resume sigpending)
            (d.session.setReader d.session.reader) = [] := by
          unfold deliveredBy
          rw [hread]
        rw [hnone]
        exact h.same ⟨rfl, rfl⟩ rfl
      · have hpending : d.session.read.pending = d.session.read.stored := by
          cases hread : d.session.read with
          | returned ret buf => exact absurd ⟨ret, buf, hread⟩ hback
          | _ => rfl
        have hresult : deliveredBy d.session (.resume sigpending) (d.session.setReader r) =
            r.read.result := by
          unfold deliveredBy
          cases hread : d.session.read with
          | returned ret buf => exact absurd ⟨ret, buf, hread⟩ hback
          | _ => rfl
        rw [hresult]
        exact h.setReader hgoes hpending
  | timer =>
      rw [← Except.ok.inj hnext]
      exact h.same ⟨rfl, rfl⟩ rfl

theorem Inv.not_deliversOnce {e : Event} (h : d.Inv) (hdanger : ¬ d.SafeStep e)
    (hstep : d.step driverOut e = .ok d') : ¬ d'.DeliversOnce := by
  obtain ⟨s, hnext, hend⟩ := bind_eq_ok.mp hstep
  rw [← Except.ok.inj hend]
  intro honce
  cases e with
  | read count block =>
      obtain ⟨ret, buf, r, hread, hr, rfl⟩ := next_read hnext
      exact absurd honce.within (not_le.mpr (ttyRead_exceeds h.raw hdanger h.head r hr))
  | resume sigpending =>
      obtain ⟨r, hr, hs⟩ := bind_eq_ok.mp hnext
      rw [← Except.ok.inj hs] at honce
      obtain hexceeds | ⟨got, hgot, herror⟩ := resume_fails h.read h.head hdanger r hr
      · exact absurd honce.within (not_le.mpr hexceeds)
      · exact hgot (honce.empty (-eintr) got herror (by decide))
  | _ => exact hdanger trivial

theorem Inv.deliversAlways_iff (h : d.Inv) (es : List Event) :
    d.DeliversAlways driverOut es ↔ d.SafeRun driverOut es := by
  induction es generalizing d with
  | nil => exact ⟨fun _ => trivial, fun _ => h.deliversOnce⟩
  | cons e es ih =>
      unfold DeliversAlways SafeRun
      rw [and_iff_right h.deliversOnce]
      cases hstep : d.step driverOut e with
      | error halt => exact Iff.rfl
      | ok d' =>
          dsimp only
          by_cases hsafe : d.SafeStep e
          · rw [and_iff_right hsafe]
            exact ih (h.step hsafe hstep)
          · have hfails := h.not_deliversOnce hsafe hstep
            refine ⟨fun halways => absurd ?_ hfails, fun hrun => absurd hrun.1 hsafe⟩
            cases es with
            | nil => exact halways
            | cons e' es' => exact halways.1

/-- On a terminal in non-canonical mode, every character is delivered once if and only if no step
takes characters beyond the room there is for them and no signal ends a read which has some. -/
theorem deliversAlways_start_iff (t : Termios) (driver : δ) (es : List Event)
    (hraw : t.lflag icanon = false) :
    (start t driver).DeliversAlways driverOut es ↔ (start t driver).SafeRun driverOut es :=
  (inv_start hraw driver).deliversAlways_iff es

/-- A read of two characters, which a signal ends after the first one. -/
def interrupted : List Event :=
  [.read 2 false, .type 0x61#8, .resume false, .type 0x62#8, .resume true]

/-- Settings for reads of at least two characters, without a timer. -/
def rawTermios : Termios where
  cIflag := 0
  cOflag := 0
  cLflag := 0
  cCc i := if i = vmin then 2#8 else 0#8

theorem deliversAlways_uninterrupted :
    (start rawTermios ()).DeliversAlways (fun _ _ => .ok ())
      (interrupted.take 4 ++ [.resume false]) :=
  (deliversAlways_start_iff rawTermios () _ (by decide)).mpr
    ⟨Or.inl rfl, trivial, fun _ => Or.inr (by decide), trivial, fun _ => Or.inr (by decide), trivial⟩

/-- The first character is in the buffer of a call which returns `-EINTR`. -/
theorem not_deliversAlways_interrupted :
    ¬ ∀ (δ : Type) (driverOut : TtyQueue → δ → Except Halt δ) (t : Termios) (driver : δ)
      (es : List Event), t.lflag icanon = false → (start t driver).DeliversAlways driverOut es := by
  intro hall
  have halways := hall Unit (fun _ _ => .ok ()) rawTermios () interrupted (by decide)
  have hempty := halways.2.2.2.2.2.empty (-eintr) [0x61#8] rfl (by decide)
  cases hempty

end Delivery

end Yak.Terminal
