import Yak.Tty

/-!
# Writing to a terminal

What a call of `tty_write` reads, returns and passes to the driver, and what comes of a caller
that goes on with the rest.  A call which takes all of its bytes reads one more.
-/

namespace Yak.Terminal

open ByteBitmap (Bytes)

/-! ## The queue -/

/-- The queue starts at its buffer and has these characters. -/
structure TtyQueue.Holds (tq : TtyQueue) (xs : List (BitVec 8)) : Prop where
  head : tq.tqHead = 0
  tail : tq.tqTail = xs.length
  room : xs.length ≤ ttyBufSize
  bytes : tq.bytes = xs

theorem TtyQueue.holds_reset : TtyQueue.reset.Holds [] := ⟨rfl, rfl, Nat.zero_le _, rfl⟩

theorem TtyQueue.Holds.full_iff {tq : TtyQueue} {xs : List (BitVec 8)} (h : tq.Holds xs) :
    tq.Full ↔ ttyBufSize ≤ xs.length := by
  unfold TtyQueue.Full
  rw [h.tail]
  exact ⟨Eq.ge, fun hle => le_antisymm h.room hle⟩

theorem TtyQueue.Holds.putch {tq : TtyQueue} {xs : List (BitVec 8)} (h : tq.Holds xs)
    (c : BitVec 8) : (tq.putch c).Holds ((xs ++ [c]).take ttyBufSize) := by
  unfold TtyQueue.putch
  by_cases hfull : tq.Full
  · have hlength : xs.length = ttyBufSize := le_antisymm h.room (h.full_iff.mp hfull)
    rw [if_pos hfull, ← hlength, List.take_left']
    · exact h
    · rfl
  · have hlt : xs.length < ttyBufSize := not_le.mp fun hle => hfull (h.full_iff.mpr hle)
    have hall : (xs ++ [c]).length ≤ ttyBufSize := by
      rw [List.length_append]
      exact hlt
    rw [if_neg hfull, List.take_of_length_le hall]
    refine ⟨h.head, ?_, hall, ?_⟩
    · rw [List.length_append, ← h.tail]
      rfl
    · have hbytes := h.bytes
      have hold : (List.range xs.length).map (Function.update tq.tqBuf xs.length c) =
          (List.range xs.length).map tq.tqBuf :=
        List.map_congr_left fun i hi => Function.update_of_ne (List.mem_range.mp hi).ne _ _
      unfold TtyQueue.bytes at hbytes ⊢
      simp only [h.head, h.tail, Nat.sub_zero, Nat.zero_add] at hbytes ⊢
      rw [List.range_succ, List.map_append, List.map_singleton, Function.update_self, hold, hbytes]

/-! ## What a call should write -/

/-- The bytes for `n` characters of a buffer, from the one at `p` on. -/
def image (t : Termios) (buf : Bytes) (p n : ℕ) : List (BitVec 8) :=
  ((List.range' p n).map buf).flatMap (outputOf t)

namespace Tty

/-- The places of the buffer which the loop of `tty_write` reads. -/
def loopReads (t : Termios) (buf : Bytes) : (room : ℕ) → (i : ℤ) → (p : ℕ) → TtyQueue → List ℕ
  | 0, _, p, _ => [p]
  | room + 1, i, p, tq =>
      p :: if buf p ≠ 0#8 ∧ i ≠ 0 ∧ ¬ tq.Full then
        loopReads t buf room (i - 1) (p + 1) (putOutput t tq (buf p))
      else []

/-- A driver which keeps what it is passed. -/
def keep (tq : TtyQueue) (passed : List (BitVec 8)) : Except Halt (List (BitVec 8)) :=
  .ok (passed ++ tq.bytes)

/-- A caller which goes on with the rest of its `count` bytes until there are no more. -/
def writeAll (n : ℕ) (buf : Bytes) : (fuel p count : ℕ) → Tty (List (BitVec 8)) →
    Except Halt (Tty (List (BitVec 8)))
  | 0, _, _, _ => .error .endless
  | fuel + 1, p, count, tp =>
      if count = 0 then .ok tp
      else do
        let (r, tp) ← tp.ttyWrite keep n (fun i => buf (p + i)) count
        writeAll n buf fuel (p + r.toNat) (count - r.toNat) tp

/-- A call reads only its `count` bytes. -/
def ReadsItsBytes (tp : Tty (List (BitVec 8))) (buf : Bytes) (count : ℕ) : Prop :=
  ∀ i ∈ loopReads tp.tTermios buf (ttyBufSize - tp.tWriteq.tqTail) count 0 tp.tWriteq, i < count

/-- A call returns the number of bytes whose image it has passed to the driver. -/
def ReportsItsOutput (tp : Tty (List (BitVec 8))) (n : ℕ) (buf : Bytes) (count : ℕ) : Prop :=
  ∀ r tp', tp.ttyWrite keep n buf count = .ok (r, tp') →
    0 ≤ r ∧ r ≤ count ∧ tp'.driver = tp.driver ++ image tp.tTermios buf 0 r.toNat

/-- A caller which goes on with the rest has passed the image of all bytes in the end. -/
def WritesAll (tp : Tty (List (BitVec 8))) (n : ℕ) (buf : Bytes) (count : ℕ) : Prop :=
  ∃ fuel tp', writeAll n buf fuel 0 count tp = .ok tp' ∧
    tp'.driver = tp.driver ++ image tp.tTermios buf 0 count

/-- The terminal is open and not stopped, and its write queue is as the last call has left it. -/
structure Ready (tp : Tty (List (BitVec 8))) : Prop where
  opened : tp.tOpen = true
  running : tp.tStopped = false
  writeq : tp.tWriteq = .reset

/-- No newline comes where its two bytes do not fit into the queue any more. -/
def NoneSplit (t : Termios) (buf : Bytes) (p count : ℕ) : Prop :=
  ∀ k < count, (image t buf p k).length % ttyBufSize = ttyBufSize - 1 →
    (outputOf t (buf (p + k))).length = 1

/-! ## Images -/

section Images

variable {t : Termios} {buf : Bytes} {p n : ℕ} {c : BitVec 8}

theorem length_outputOf (t : Termios) (c : BitVec 8) :
    (outputOf t c).length = 1 ∨ (outputOf t c).length = 2 := by
  unfold outputOf
  split
  · exact Or.inr rfl
  · split
    · exact Or.inl rfl
    · exact Or.inl rfl

theorem image_add (t : Termios) (buf : Bytes) (p m n : ℕ) :
    image t buf p (m + n) = image t buf p m ++ image t buf (p + m) n := by
  unfold image
  rw [← List.flatMap_append, ← List.map_append, List.range'_append_1]

theorem image_succ (t : Termios) (buf : Bytes) (p n : ℕ) :
    image t buf p (n + 1) = image t buf p n ++ outputOf t (buf (p + n)) := by
  rw [image_add]
  unfold image
  rw [List.range'_one, List.map_singleton, List.flatMap_singleton]

/-- An image is as long as the characters when none of them is changed into two. -/
theorem length_image_eq (h : ∀ k < n, (outputOf t (buf (p + k))).length = 1) :
    (image t buf p n).length = n := by
  induction n with
  | zero => rfl
  | succ n ih =>
      rw [image_succ, List.length_append, ih fun k hk => h k (Nat.lt_succ_of_lt hk),
        h n (Nat.lt_succ_self n)]

theorem image_shift (t : Termios) (buf : Bytes) (p n : ℕ) :
    image t (fun i => buf (p + i)) 0 n = image t buf p n := by
  unfold image
  rw [← List.range_eq_range', List.range'_eq_map_range, List.map_map]
  rfl

theorem length_image_mono {m : ℕ} (h : m ≤ n) :
    (image t buf p m).length ≤ (image t buf p n).length := by
  obtain ⟨d, rfl⟩ := Nat.exists_eq_add_of_le h
  rw [image_add, List.length_append]
  exact Nat.le_add_right _ _

end Images

/-! ## One call -/

section Call

variable {t : Termios} {buf : Bytes} {count k : ℕ} {tq : TtyQueue}

/-- The loop of `tty_write` stops at this place. -/
def Stops (t : Termios) (buf : Bytes) (count k : ℕ) : Prop :=
  buf k = 0#8 ∨ k = count ∨ ttyBufSize ≤ (image t buf 0 k).length

theorem take_append_of_take {α : Type*} (n : ℕ) (xs ys : List α) :
    (xs.take n ++ ys).take n = (xs ++ ys).take n := by
  rw [List.take_append, List.take_append, List.take_take, Nat.min_self, List.length_take]
  congr 2
  omega

theorem putOutput_holds {xs : List (BitVec 8)} (h : tq.Holds xs) (c : BitVec 8) :
    (putOutput t tq c).Holds ((xs ++ outputOf t c).take ttyBufSize) := by
  unfold putOutput outputOf
  split
  next hnl =>
    have htwo := (h.putch cr).putch c
    rw [take_append_of_take, List.append_assoc] at htwo
    rw [hnl.2.1] at htwo ⊢
    exact htwo
  next =>
    split
    · exact h.putch nl
    · exact h.putch c

theorem writeLoop_spec (count room : ℕ) (hholds : tq.Holds ((image t buf 0 k).take ttyBufSize))
    (hroom : ttyBufSize ≤ tq.tqTail + room) (hle : k ≤ count)
    (hgone : ∀ j < k, ¬ Stops t buf count j) :
    ∃ d tq', writeLoop t buf room ((count : ℤ) - k) k tq = (k + d, tq') ∧
      Stops t buf count (k + d) ∧ (∀ j < k + d, ¬ Stops t buf count j) ∧
      tq'.Holds ((image t buf 0 (k + d)).take ttyBufSize) ∧
      loopReads t buf room ((count : ℤ) - k) k tq = List.range' k (d + 1) := by
  have hlength : tq.tqTail = min ttyBufSize (image t buf 0 k).length := by
    rw [hholds.tail, List.length_take]
  induction room generalizing k tq with
  | zero =>
      refine ⟨0, tq, rfl, Or.inr (Or.inr ?_), hgone, hholds, rfl⟩
      rw [hlength] at hroom
      exact (le_min_iff.mp hroom).2
  | succ room ih =>
      have hfull : tq.Full ↔ ttyBufSize ≤ (image t buf 0 k).length := by
        unfold TtyQueue.Full
        rw [hlength]
        exact min_eq_left_iff
      have hgo : (buf k ≠ 0#8 ∧ (count : ℤ) - k ≠ 0 ∧ ¬ tq.Full) ↔ ¬ Stops t buf count k := by
        unfold Stops
        rw [hfull, not_or, not_or]
        have hcount : (count : ℤ) - k ≠ 0 ↔ ¬ k = count := by omega
        rw [hcount]
      by_cases hstop : Stops t buf count k
      · refine ⟨0, tq, ?_, hstop, hgone, hholds, ?_⟩
        · rw [writeLoop, if_neg (fun h => hgo.mp h hstop)]
          rfl
        · rw [loopReads, if_neg (fun h => hgo.mp h hstop)]
          rfl
      · have hlt : (image t buf 0 k).length < ttyBufSize :=
          not_le.mp fun h => hstop (Or.inr (Or.inr h))
        have hnext := putOutput_holds (t := t) hholds (buf k)
        rw [List.take_of_length_le hlt.le] at hnext
        have hsucc := image_succ t buf 0 k
        rw [Nat.zero_add] at hsucc
        rw [← hsucc] at hnext
        have hlonger : (image t buf 0 k).length + 1 ≤ (image t buf 0 (k + 1)).length := by
          rw [hsucc, List.length_append]
          rcases length_outputOf t (buf k) with h | h <;> omega
        have hgone' : ∀ j < k + 1, ¬ Stops t buf count j := by
          intro j hj
          rcases Nat.lt_succ_iff_lt_or_eq.mp hj with hj | rfl
          · exact hgone j hj
          · exact hstop
        have hne : k ≠ count := fun h => hstop (Or.inr (Or.inl h))
        have htail : (putOutput t tq (buf k)).tqTail =
            min ttyBufSize (image t buf 0 (k + 1)).length := by
          rw [hnext.tail, List.length_take]
        obtain ⟨d, tq', hloop, hstops, hbefore, hend, hreads⟩ := ih hnext (by omega) (by omega)
          hgone' htail
        have hcount : (count : ℤ) - k - 1 = (count : ℤ) - (k + 1 : ℕ) := by push_cast; ring
        refine ⟨d + 1, tq', ?_, ?_, ?_, ?_, ?_⟩
        · rw [writeLoop, if_pos (hgo.mpr hstop), hcount, hloop, Nat.add_assoc, Nat.add_comm 1 d]
        · rwa [Nat.add_assoc, Nat.add_comm 1 d] at hstops
        · rwa [Nat.add_assoc, Nat.add_comm 1 d] at hbefore
        · rwa [Nat.add_assoc, Nat.add_comm 1 d] at hend
        · rw [loopReads, if_pos (hgo.mpr hstop), hcount, hreads, ← List.range'_succ]

/-- What a call does when the terminal is ready: it stops at the first place where it can. -/
theorem ttyWrite_eq {tp : Tty (List (BitVec 8))} (h : tp.Ready) (n : ℕ) (buf : Bytes)
    (count : ℕ) : ∃ r, Stops tp.tTermios buf count r ∧
      (∀ j < r, ¬ Stops tp.tTermios buf count j) ∧
      tp.ttyWrite keep n buf count = .ok (r, { tp with
        driver := tp.driver ++ (image tp.tTermios buf 0 r).take ttyBufSize }) ∧
      loopReads tp.tTermios buf (ttyBufSize - tp.tWriteq.tqTail) count 0 tp.tWriteq =
        List.range' 0 (r + 1) := by
  have hholds : tp.tWriteq.Holds ((image tp.tTermios buf 0 0).take ttyBufSize) := by
    rw [h.writeq]
    exact TtyQueue.holds_reset
  obtain ⟨r, tq', hloop, hstops, hbefore, hend, hreads⟩ := writeLoop_spec count
    (ttyBufSize - tp.tWriteq.tqTail) hholds (by omega) (Nat.zero_le _)
    (fun j hj => absurd hj (Nat.not_lt_zero j))
  rw [Nat.zero_add] at hloop hstops hbefore hend
  simp only [Nat.cast_zero, sub_zero] at hloop hreads
  refine ⟨r, hstops, hbefore, ?_, hreads⟩
  unfold ttyWrite
  rw [if_neg (fun hclosed => hclosed.1 h.opened), hloop]
  unfold flushReset flush
  dsimp only
  rw [if_neg (by rw [h.running]; decide), ← hend.bytes, ← h.writeq]
  rfl

end Call

/-! ## All calls -/

section Calls

variable {t : Termios} {buf : Bytes} {p count r n : ℕ} {tp tp' : Tty (List (BitVec 8))}

/-- A call for `count` bytes from `p` on takes `r` of them. -/
structure Takes (t : Termios) (buf : Bytes) (p count r : ℕ) : Prop where
  stops : buf (p + r) = 0#8 ∨ r = count ∨ ttyBufSize ≤ (image t buf p r).length
  before : ∀ j < r, buf (p + j) ≠ 0#8 ∧ j ≠ count ∧ (image t buf p j).length < ttyBufSize

theorem Takes.le (h : Takes t buf p count r) : r ≤ count :=
  not_lt.mp fun hlt => (h.before count hlt).2.1 rfl

theorem ttyWrite_takes (h : tp.Ready) (n : ℕ) (buf : Bytes) (p count : ℕ) :
    ∃ r, Takes tp.tTermios buf p count r ∧
      tp.ttyWrite keep n (fun i => buf (p + i)) count = .ok (r, { tp with
        driver := tp.driver ++ (image tp.tTermios buf p r).take ttyBufSize }) ∧
      loopReads tp.tTermios (fun i => buf (p + i)) (ttyBufSize - tp.tWriteq.tqTail) count 0
        tp.tWriteq = List.range' 0 (r + 1) := by
  obtain ⟨r, hstops, hbefore, hcall, hreads⟩ := ttyWrite_eq h n (fun i => buf (p + i)) count
  unfold Stops at hstops hbefore
  simp only [image_shift, not_or, not_le] at hstops hbefore hcall
  exact ⟨r, ⟨hstops, hbefore⟩, hcall, hreads⟩

/-- A call takes at least one byte when there is one which is not zero. -/
theorem Takes.pos (h : Takes t buf p count r) (hcount : 0 < count) (hp : buf p ≠ 0#8) : 0 < r := by
  rcases Nat.eq_zero_or_pos r with rfl | hpos
  · rcases h.stops with hzero | hend | hfull
    · exact absurd hzero hp
    · exact absurd hend hcount.ne
    · exact absurd hfull (by simp [image, ttyBufSize])
  · exact hpos

theorem Ready.after (h : tp.Ready) (passed : List (BitVec 8)) :
    Ready { tp with driver := passed } := ⟨h.opened, h.running, h.writeq⟩

theorem writeAll_succ (h : tp.Ready) (hcount : count ≠ 0) (n : ℕ) (buf : Bytes) (p : ℕ) :
    ∃ r, Takes tp.tTermios buf p count r ∧
      ∀ fuel, writeAll n buf (fuel + 1) p count tp = writeAll n buf fuel (p + r) (count - r)
        { tp with driver := tp.driver ++ (image tp.tTermios buf p r).take ttyBufSize } := by
  obtain ⟨r, htakes, hcall, -⟩ := ttyWrite_takes h n buf p count
  refine ⟨r, htakes, fun fuel => ?_⟩
  rw [writeAll, if_neg hcount, hcall, ok_bind]
  rfl

/-- The caller never comes past a zero byte. -/
theorem writeAll_ne_ok {fuel j : ℕ} (h : tp.Ready) (hj : j < count) (hzero : buf (p + j) = 0#8) :
    writeAll n buf fuel p count tp ≠ .ok tp' := by
  induction fuel generalizing p count j tp with
  | zero => exact nofun
  | succ fuel ih =>
      obtain ⟨r, htakes, hnext⟩ := writeAll_succ h (Nat.ne_zero_of_lt hj) n buf p
      have hr : r ≤ j := not_lt.mp fun hlt => (htakes.before j hlt).1 hzero
      rw [hnext]
      refine ih (h.after _) (show j - r < count - r by omega) ?_
      rwa [Nat.add_assoc, Nat.add_sub_cancel' hr]

/-- A call passes the image of what it takes if and only if it does not split a newline. -/
theorem Takes.noneSplit_iff (h : Takes t buf p count r) :
    (image t buf p r).length ≤ ttyBufSize ↔ NoneSplit t buf p r := by
  have hsucc (k : ℕ) : (image t buf p (k + 1)).length =
      (image t buf p k).length + (outputOf t (buf (p + k))).length := by
    rw [image_succ, List.length_append]
  constructor
  · intro hle k hk hlast
    have hlt := (h.before k hk).2.2
    rw [Nat.mod_eq_of_lt hlt] at hlast
    have hmono : (image t buf p (k + 1)).length ≤ (image t buf p r).length := length_image_mono hk
    have hnext := hsucc k
    have hsize : 0 < ttyBufSize := by decide
    rcases length_outputOf t (buf (p + k)) with hone | htwo
    · exact hone
    · omega
  · intro hsplit
    cases r with
    | zero => exact Nat.zero_le _
    | succ k =>
        have hlt := (h.before k (Nat.lt_succ_self k)).2.2
        have hlast := hsplit k (Nat.lt_succ_self k)
        rw [Nat.mod_eq_of_lt hlt] at hlast
        have hnext := hsucc k
        rcases length_outputOf t (buf (p + k)) with hone | htwo
        · omega
        · by_cases hone : (image t buf p k).length = ttyBufSize - 1
          · have := hlast hone
            omega
          · omega

theorem NoneSplit.mono {m : ℕ} (h : NoneSplit t buf p n) (hle : m ≤ n) : NoneSplit t buf p m :=
  fun k hk => h k (hk.trans_le hle)

/-- After a full queue everything is as at the beginning. -/
theorem noneSplit_add {m : ℕ} (hfull : (image t buf p r).length = ttyBufSize) :
    NoneSplit t buf p (r + m) ↔ NoneSplit t buf p r ∧ NoneSplit t buf (p + r) m := by
  have hshift (k : ℕ) : (image t buf p (r + k)).length % ttyBufSize =
      (image t buf (p + r) k).length % ttyBufSize := by
    rw [image_add, List.length_append, hfull, Nat.add_mod_left]
  constructor
  · intro h
    refine ⟨h.mono (Nat.le_add_right r m), fun k hk hlast => ?_⟩
    rw [Nat.add_assoc]
    exact h (r + k) (Nat.add_lt_add_left hk r) ((hshift k).trans hlast)
  · rintro ⟨hfirst, hrest⟩ k hk hlast
    by_cases hkr : k < r
    · exact hfirst k hkr hlast
    · obtain ⟨d, rfl⟩ := Nat.exists_eq_add_of_le (not_lt.mp hkr)
      rw [← Nat.add_assoc]
      exact hrest d (by omega) ((hshift d).symm.trans hlast)

/-- A call which does not take all of its bytes, and no zero byte, leaves the queue full. -/
theorem Takes.full (h : Takes t buf p count r) (hzero : ∀ j < count, buf (p + j) ≠ 0#8)
    (hr : r ≠ count) : ttyBufSize ≤ (image t buf p r).length := by
  rcases h.stops with hnul | hend | hfull
  · exact absurd hnul (hzero r (lt_of_le_of_ne h.le hr))
  · exact absurd hend hr
  · exact hfull

/-- What a caller has passed in the end is never longer than the image, and as long only if no
newline is split. -/
theorem writeAll_length {fuel : ℕ} (h : tp.Ready) (hrun : writeAll n buf fuel p count tp = .ok tp')
    (hzero : ∀ j < count, buf (p + j) ≠ 0#8) :
    tp'.driver.length ≤ tp.driver.length + (image tp.tTermios buf p count).length ∧
      (tp'.driver.length = tp.driver.length + (image tp.tTermios buf p count).length →
        NoneSplit tp.tTermios buf p count) := by
  induction fuel generalizing p count tp with
  | zero => cases hrun
  | succ fuel ih =>
      by_cases hcount : count = 0
      · rw [writeAll, if_pos hcount] at hrun
        cases hrun
        exact ⟨Nat.le_add_right _ _, fun _ k hk => absurd hk (by omega)⟩
      obtain ⟨r, htakes, hnext⟩ := writeAll_succ h hcount n buf p
      obtain ⟨m, rfl⟩ := Nat.exists_eq_add_of_le htakes.le
      rw [hnext, Nat.add_sub_cancel_left] at hrun
      obtain ⟨hle, heq⟩ := ih (h.after _) hrun fun j hj => by
        rw [Nat.add_assoc]
        exact hzero (r + j) (Nat.add_lt_add_left hj r)
      simp only [List.length_append, List.length_take] at hle heq
      rw [image_add, List.length_append]
      refine ⟨by omega, fun hall => ?_⟩
      have hfits : (image tp.tTermios buf p r).length ≤ ttyBufSize := by omega
      have hfirst := htakes.noneSplit_iff.mp hfits
      by_cases hm : m = 0
      · rwa [hm]
      · have hfull := htakes.full hzero (by omega)
        exact (noneSplit_add (le_antisymm hfits hfull)).mpr ⟨hfirst, heq (by omega)⟩

theorem writesAll_of_noneSplit (h : tp.Ready) (hzero : ∀ j < count, buf (p + j) ≠ 0#8)
    (hsplit : NoneSplit tp.tTermios buf p count) :
    ∃ fuel tp', writeAll n buf fuel p count tp = .ok tp' ∧
      tp'.driver = tp.driver ++ image tp.tTermios buf p count := by
  induction count using Nat.strong_induction_on generalizing p tp with
  | _ count ih =>
      by_cases hcount : count = 0
      · subst hcount
        exact ⟨1, tp, rfl, (List.append_nil _).symm⟩
      obtain ⟨r, htakes, hnext⟩ := writeAll_succ h hcount n buf p
      have hpos := htakes.pos (Nat.pos_of_ne_zero hcount) (hzero 0 (Nat.pos_of_ne_zero hcount))
      have hfits := htakes.noneSplit_iff.mpr (hsplit.mono htakes.le)
      obtain ⟨m, rfl⟩ := Nat.exists_eq_add_of_le htakes.le
      have hrest : NoneSplit tp.tTermios buf (p + r) m := by
        by_cases hm : m = 0
        · subst hm
          exact fun k hk => absurd hk (Nat.not_lt_zero k)
        · have hfull := htakes.full hzero (by omega)
          exact ((noneSplit_add (le_antisymm hfits hfull)).mp hsplit).2
      obtain ⟨fuel, tp', hrun, hdriver⟩ := ih m (by omega)
        (h.after (tp.driver ++ (image tp.tTermios buf p r).take ttyBufSize)) (fun j hj => by
        rw [Nat.add_assoc]
        exact hzero (r + j) (Nat.add_lt_add_left hj r)) hrest
      refine ⟨fuel + 1, tp', ?_, ?_⟩
      · rw [hnext, Nat.add_sub_cancel_left]
        exact hrun
      · rw [hdriver, image_add, List.take_of_length_le hfits, List.append_assoc]

/-- A caller has passed all bytes in the end if and only if none of them is zero and no newline
is split. -/
theorem writesAll_iff (h : tp.Ready) : tp.WritesAll n buf count ↔
    (∀ j < count, buf j ≠ 0#8) ∧ NoneSplit tp.tTermios buf 0 count := by
  constructor
  · rintro ⟨fuel, tp', hrun, hdriver⟩
    have hzero : ∀ j < count, buf j ≠ 0#8 := fun j hj hnul =>
      writeAll_ne_ok h hj (by rwa [Nat.zero_add]) hrun
    refine ⟨hzero, (writeAll_length h hrun fun j hj => ?_).2 ?_⟩
    · rw [Nat.zero_add]
      exact hzero j hj
    · rw [hdriver, List.length_append]
  · rintro ⟨hzero, hsplit⟩
    exact writesAll_of_noneSplit h (fun j hj => by rw [Nat.zero_add]; exact hzero j hj) hsplit

/-- A call reads only its bytes if and only if it comes to a zero byte or to a full queue before
it has taken all of them. -/
theorem readsItsBytes_iff (h : tp.Ready) : tp.ReadsItsBytes buf count ↔
    ∃ k < count, buf k = 0#8 ∨ ttyBufSize ≤ (image tp.tTermios buf 0 k).length := by
  obtain ⟨r, hstops, hbefore, -, hreads⟩ := ttyWrite_eq h 0 buf count
  unfold ReadsItsBytes
  rw [hreads]
  constructor
  · intro hall
    have hr : r < count := hall r (by simp)
    refine ⟨r, hr, hstops.imp_right fun h => h.resolve_left hr.ne⟩
  · rintro ⟨k, hk, hstop⟩ i hi
    have hr : r ≤ k := not_lt.mp fun hlt => hbefore k hlt (hstop.imp_right Or.inr)
    rw [List.mem_range'_1] at hi
    omega

theorem Takes.unique {r' : ℕ} (h : Takes t buf p count r) (h' : Takes t buf p count r') :
    r ≤ r' := by
  refine not_lt.mp fun hlt => ?_
  obtain ⟨hnul, hend, hroom⟩ := h.before r' hlt
  rcases h'.stops with hnul' | hend' | hfull
  · exact hnul hnul'
  · exact hend hend'
  · exact absurd hfull (not_le.mpr hroom)

/-- What a call reports is right if and only if it splits no newline. -/
theorem reportsItsOutput_iff (h : tp.Ready) : tp.ReportsItsOutput n buf count ↔
    ∀ r, Takes tp.tTermios buf 0 count r → NoneSplit tp.tTermios buf 0 r := by
  obtain ⟨r, htakes, hcall, -⟩ := ttyWrite_takes h n buf 0 count
  have hbuf : (fun i => buf (0 + i)) = buf := funext fun i => congrArg buf (Nat.zero_add i)
  rw [hbuf] at hcall
  constructor
  · intro hreport r' htakes'
    obtain rfl := le_antisymm (htakes'.unique htakes) (htakes.unique htakes')
    obtain ⟨-, -, hdriver⟩ := hreport _ _ hcall
    have hlengths := congrArg List.length (List.append_cancel_left hdriver)
    rw [Int.toNat_natCast, List.length_take] at hlengths
    exact htakes.noneSplit_iff.mp (min_eq_right_iff.mp hlengths)
  · intro hsplit r' tp' hcall'
    rw [hcall] at hcall'
    cases hcall'
    refine ⟨Int.natCast_nonneg r, Int.ofNat_le.mpr htakes.le, ?_⟩
    rw [Int.toNat_natCast, List.take_of_length_le (htakes.noneSplit_iff.mpr (hsplit r htakes))]

/-- A call is right in all three ways if and only if none of its bytes is zero, the queue is
full before the last of them, and no newline is split. -/
theorem writes_iff (h : tp.Ready) (n : ℕ) (buf : Bytes) (count : ℕ) :
    (tp.ReadsItsBytes buf count ∧ tp.ReportsItsOutput n buf count ∧ tp.WritesAll n buf count) ↔
      (∀ j < count, buf j ≠ 0#8) ∧
      (∃ k < count, ttyBufSize ≤ (image tp.tTermios buf 0 k).length) ∧
      NoneSplit tp.tTermios buf 0 count := by
  rw [readsItsBytes_iff h, reportsItsOutput_iff h, writesAll_iff h]
  constructor
  · rintro ⟨⟨k, hk, hstop⟩, -, hzero, hsplit⟩
    exact ⟨hzero, ⟨k, hk, hstop.resolve_left (hzero k hk)⟩, hsplit⟩
  · rintro ⟨hzero, ⟨k, hk, hfull⟩, hsplit⟩
    exact ⟨⟨k, hk, Or.inr hfull⟩, fun r htakes => hsplit.mono htakes.le, hzero, hsplit⟩

/-- A terminal as `tty_init` and `tty_open` leave it. -/
def opened : Tty (List (BitVec 8)) where
  tTermios := .init
  tWriteq := .reset
  tReadq := .reset
  tStopped := false
  tOpen := true
  driver := []
  messages := []

theorem ready_opened : opened.Ready := ⟨rfl, rfl, rfl⟩

/-- The letter `a`, again and again. -/
def letters : Bytes := fun _ => 0x61#8

theorem length_outputOf_letter : (outputOf Termios.init 0x61#8).length = 1 := by decide

theorem writes_letters : opened.ReadsItsBytes letters 513 ∧
    opened.ReportsItsOutput 0 letters 513 ∧ opened.WritesAll 0 letters 513 := by
  have hletter : (0x61#8 : BitVec 8) ≠ 0#8 := by decide
  have hlength : (image Termios.init letters 0 512).length = 512 :=
    length_image_eq fun _ _ => length_outputOf_letter
  exact (writes_iff ready_opened 0 letters 513).mpr
    ⟨fun _ _ => hletter, ⟨512, by decide, hlength.ge⟩, fun _ _ _ => length_outputOf_letter⟩

/-- A newline in the last place of the queue is lost. -/
theorem not_writesAll_newline :
    ¬ (opened.ReadsItsBytes (Function.update letters 511 nl) 513 ∧
      opened.ReportsItsOutput 0 (Function.update letters 511 nl) 513 ∧
      opened.WritesAll 0 (Function.update letters 511 nl) 513) := by
  rintro ⟨-, -, hall⟩
  obtain ⟨-, hsplit⟩ := (writesAll_iff ready_opened).mp hall
  have hlength : (image Termios.init (Function.update letters 511 nl) 0 511).length = 511 := by
    refine length_image_eq fun k hk => ?_
    rw [Nat.zero_add, Function.update_of_ne hk.ne]
    exact length_outputOf_letter
  have hlast : (image opened.tTermios (Function.update letters 511 nl) 0 511).length % ttyBufSize =
      ttyBufSize - 1 := by
    rw [show opened.tTermios = Termios.init from rfl, hlength]
    rfl
  have htwo := hsplit 511 (by decide) hlast
  rw [Nat.zero_add, Function.update_self] at htwo
  exact absurd htwo (by decide)

end Calls

end Tty

end Yak.Terminal
