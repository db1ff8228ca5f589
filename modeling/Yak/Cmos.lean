import Yak.PosixTime

/-!
# The CMOS clock

A transcription of `drivers/cmos.c`.  The machine is a stream of port reads: what the `n`-th of
them gives may depend on `n`, on the port, and on the value in the index port of the CMOS.
`get_current_time` compares all passes over the six registers with the first one, which it does
not read again, and takes the format from I/O port `0x0B` where register B of the CMOS is meant.
-/

namespace Yak.Cmos

open Calendar
open PosixTime (makePosixTime timeOf dayCount u32 secPerDay secPerHour secPerMinute)

def currentMillenium : BitVec 32 := 2000

def cmosData : BitVec 16 := 0x71

def secondsReg : BitVec 8 := 0
def minutesReg : BitVec 8 := 2
def hoursReg : BitVec 8 := 4
def dayOfMonthReg : BitVec 8 := 7
def monthReg : BitVec 8 := 8
def yearReg : BitVec 8 := 9
def statusRegB : BitVec 8 := 0xB

def twentyFourHourFmt : BitVec 8 := 1 <<< 1
def binaryMode : BitVec 8 := 1 <<< 2
def nmiDisable : BitVec 8 := 1 <<< 7
def pmBit : BitVec 32 := 1 <<< 7

/-- What the reads of ports give. -/
structure Machine where
  inb : (n : ℕ) → (port : BitVec 16) → (index : BitVec 8) → BitVec 8

/-- `cmos_read_register` as the `n`-th read. -/
def cmosReadRegister (m : Machine) (n : ℕ) (reg : BitVec 8) : BitVec 8 :=
  m.inb n cmosData (nmiDisable ||| reg)

/-- `bcd_to_binary` -/
def bcdToBinary (bcd : BitVec 8) : BitVec 8 :=
  ((bcd &&& 0xF0) >>> 1) + ((bcd &&& 0xF0) >>> 3) + (bcd &&& 0xF)

structure Time where
  sec : BitVec 32
  min : BitVec 32
  hour : BitVec 32
  dayOfMonth : BitVec 32
  month : BitVec 32
  year : BitVec 32
  deriving DecidableEq

/-- The six bytes of a pass over the registers. -/
def Time.ofBytes (sec min hour dayOfMonth month year : BitVec 8) : Time where
  sec := sec.setWidth 32
  min := min.setWidth 32
  hour := hour.setWidth 32
  dayOfMonth := dayOfMonth.setWidth 32
  month := month.setWidth 32
  year := year.setWidth 32

/-- A pass over the registers from the `n`-th read on. -/
def readTime (m : Machine) (n : ℕ) : Time :=
  .ofBytes (cmosReadRegister m n secondsReg) (cmosReadRegister m (n + 1) minutesReg)
    (cmosReadRegister m (n + 2) hoursReg) (cmosReadRegister m (n + 3) dayOfMonthReg)
    (cmosReadRegister m (n + 4) monthReg) (cmosReadRegister m (n + 5) yearReg)

/-- The loop of `get_current_time`.  The result has the number of the next read. -/
def readLoop (m : Machine) (time : Time) : (fuel n : ℕ) → Except Halt (Time × ℕ)
  | 0, _ => .error .endless
  | fuel + 1, n =>
      let timeLast := readTime m n
      if timeLast ≠ time then readLoop m time fuel (n + 6) else .ok (timeLast, n + 6)

def bcdField (x : BitVec 32) : BitVec 32 := (bcdToBinary (x.setWidth 8)).setWidth 32

/-- The part which is done unless the status has `BINARY_MODE`. -/
def Time.fromBcd (t : Time) : Time where
  sec := bcdField t.sec
  min := bcdField t.min
  hour := bcdField t.hour
  dayOfMonth := bcdField t.dayOfMonth
  month := bcdField t.month
  year := bcdField t.year

/-- The date and the time which `get_current_time` makes of the registers. -/
def Time.decode (status : BitVec 8) (t : Time) : Time :=
  let t := if status &&& binaryMode = 0 then t.fromBcd else t
  if status &&& twentyFourHourFmt = 0 ∧ t.hour &&& pmBit ≠ 0 then
    { t with hour := ((t.hour &&& 0x7F) + 12) % 24 }
  else t

/-- The call of `make_posix_time`, which takes the low bytes of its arguments. -/
def Time.posixTime (t : Time) : Except Halt (BitVec 32) :=
  makePosixTime (t.sec.setWidth 8) (t.min.setWidth 8) (t.hour.setWidth 8)
    (t.dayOfMonth.setWidth 8) (t.month.setWidth 8) ((t.year + currentMillenium).setWidth 16)

/-- The status is what the I/O port with the number of register B gives. -/
def readStatus (m : Machine) (n : ℕ) : BitVec 8 :=
  m.inb n (statusRegB.setWidth 16) (nmiDisable ||| yearReg)

/-- `get_current_time` -/
def getCurrentTime (m : Machine) (fuel : ℕ) : Except Halt (BitVec 32) := do
  let time := readTime m 0
  let (timeLast, n) ← readLoop m time fuel 6
  (timeLast.decode (readStatus m n)).posixTime

/-! ## The clock -/

/-- What register B says of the other registers. -/
structure Format where
  binary : Bool
  h24 : Bool
  deriving DecidableEq

def formatOf (status : BitVec 8) : Format where
  binary := status &&& binaryMode ≠ 0
  h24 := status &&& twentyFourHourFmt ≠ 0

namespace Format

variable (f : Format)

/-- A number below 100. -/
def numberByte (v : ℕ) : BitVec 8 :=
  BitVec.ofNat 8 (if f.binary then v else v / 10 * 16 + v % 10)

/-- An hour, which in the 12-hour format is from 1 to 12, with bit 7 from noon on. -/
def hourByte (h : ℕ) : BitVec 8 :=
  if f.h24 then f.numberByte h
  else
    f.numberByte (if h % 12 = 0 then 12 else h % 12) ||| (if 12 ≤ h then 0x80 else 0)

/-- What the clock's registers have at a moment. -/
def shown (a : Moment) : Time :=
  .ofBytes (f.numberByte a.second) (f.numberByte a.minute) (f.hourByte a.hour)
    (f.numberByte a.day) (f.numberByte a.month) (f.numberByte (a.year - 2000))

/-- The numbers which come out right when they are read in the format `g`. -/
def NumberKept (g : Format) (v : ℕ) : Prop :=
  f.binary = g.binary ∨ v < if f.binary then 16 else 10

/-- The hours which come out right when they are read in the format `g`: in the 12-hour format
neither midnight nor noon, and after noon only where `g` is a binary 12-hour format. -/
def HourKept (g : Format) (h : ℕ) : Prop :=
  if f.h24 then f.NumberKept g h
  else if h < 12 then h ≠ 0 ∧ f.NumberKept g h
  else h ≠ 12 ∧ g.binary ∧ ¬ g.h24 ∧ f.NumberKept g (h - 12)

/-- Everything comes out right. -/
structure Kept (g : Format) (a : Moment) : Prop where
  second : f.NumberKept g a.second
  minute : f.NumberKept g a.minute
  hour : f.HourKept g a.hour
  day : f.NumberKept g a.day
  month : f.NumberKept g a.month
  year : f.NumberKept g (a.year - 2000)

instance (g : Format) (v : ℕ) : Decidable (f.NumberKept g v) :=
  inferInstanceAs (Decidable (_ ∨ _))

instance (g : Format) (h : ℕ) : Decidable (f.HourKept g h) :=
  inferInstanceAs (Decidable (ite _ _ _))

end Format

/-- From the read `start` on the CMOS shows one moment, with this register B. -/
structure ShowsFrom (m : Machine) (start : ℕ) (status : BitVec 8) (a : Moment) : Prop where
  second : ∀ n ≥ start, cmosReadRegister m n secondsReg = (formatOf status).numberByte a.second
  minute : ∀ n ≥ start, cmosReadRegister m n minutesReg = (formatOf status).numberByte a.minute
  hour : ∀ n ≥ start, cmosReadRegister m n hoursReg = (formatOf status).hourByte a.hour
  day : ∀ n ≥ start, cmosReadRegister m n dayOfMonthReg = (formatOf status).numberByte a.day
  month : ∀ n ≥ start, cmosReadRegister m n monthReg = (formatOf status).numberByte a.month
  year : ∀ n ≥ start,
    cmosReadRegister m n yearReg = (formatOf status).numberByte (a.year - 2000)
  status : ∀ n ≥ start, cmosReadRegister m n statusRegB = status

/-- The call comes back with the time of this moment. -/
def Tells (m : Machine) (a : Moment) : Prop :=
  ∃ fuel time, getCurrentTime m fuel = .ok time ∧ timeOf a = .ok time

/-- These numbers have the same POSIX time as this moment. -/
def SameTime (t : Time) (a : Moment) : Prop :=
  ∃ time, t.posixTime = .ok time ∧ timeOf a = .ok time

/-- The first pass, from the second on, which reads what the first one has read. -/
def FirstRepeat (m : Machine) (k : ℕ) : Prop :=
  1 ≤ k ∧ readTime m (6 * k) = readTime m 0 ∧
    ∀ j, 1 ≤ j → j < k → readTime m (6 * j) ≠ readTime m 0

/-! ## The loop -/

theorem ShowsFrom.readTime {m : Machine} {start : ℕ} {status : BitVec 8} {a : Moment}
    (h : ShowsFrom m start status a) {n : ℕ} (hn : start ≤ n) :
    readTime m n = (formatOf status).shown a := by
  unfold Cmos.readTime Format.shown
  rw [h.second n hn, h.minute (n + 1) (by omega), h.hour (n + 2) (by omega),
    h.day (n + 3) (by omega), h.month (n + 4) (by omega), h.year (n + 5) (by omega)]

theorem readLoop_of_repeat {m : Machine} {time : Time} (d n fuel : ℕ)
    (hother : ∀ j < d, readTime m (n + 6 * j) ≠ time) (hsame : readTime m (n + 6 * d) = time) :
    readLoop m time (fuel + d + 1) n = .ok (time, n + 6 * d + 6) := by
  induction d generalizing n with
  | zero =>
      have hnow : readTime m n = time := hsame
      rw [readLoop]
      simp [hnow]
  | succ d ih =>
      have hnext : n + 6 * (d + 1) = n + 6 + 6 * d := by ring
      have hnow : readTime m n ≠ time := hother 0 (Nat.succ_pos d)
      rw [readLoop]
      rw [if_pos hnow, hnext]
      refine ih (n + 6) (fun j hj => ?_) (hnext ▸ hsame)
      have hlater := hother (j + 1) (Nat.succ_lt_succ hj)
      rwa [show n + 6 * (j + 1) = n + 6 + 6 * j by ring] at hlater

theorem repeat_of_readLoop {m : Machine} {time : Time} {fuel n : ℕ} {r : Time × ℕ}
    (h : readLoop m time fuel n = .ok r) :
    ∃ d, (∀ j < d, readTime m (n + 6 * j) ≠ time) ∧ readTime m (n + 6 * d) = time ∧
      r = (time, n + 6 * d + 6) := by
  induction fuel generalizing n with
  | zero => simp [readLoop] at h
  | succ fuel ih =>
      rw [readLoop] at h
      by_cases hnow : readTime m n = time
      · rw [if_neg (not_not.mpr hnow), hnow] at h
        exact ⟨0, by simp, hnow, (Except.ok.inj h).symm⟩
      · rw [if_pos hnow] at h
        obtain ⟨d, hother, hsame, hr⟩ := ih h
        have hnext : n + 6 * (d + 1) = n + 6 + 6 * d := by ring
        refine ⟨d + 1, fun j hj => ?_, hnext ▸ hsame, hnext ▸ hr⟩
        cases j with
        | zero => exact hnow
        | succ j =>
            have hlater := hother j (Nat.lt_of_succ_lt_succ hj)
            rwa [show n + 6 * (j + 1) = n + 6 + 6 * j by ring]

/-- The call comes back after the first repetition, with what the first pass has read. -/
theorem tells_iff (m : Machine) (a : Moment) : Tells m a ↔
    ∃ k, FirstRepeat m k ∧ SameTime ((readTime m 0).decode (readStatus m (6 * k + 6))) a := by
  constructor
  · rintro ⟨fuel, time, hcall, htime⟩
    obtain ⟨r, hloop, hend⟩ := bind_eq_ok.mp hcall
    obtain ⟨d, hother, hsame, rfl⟩ := repeat_of_readLoop hloop
    have hplace (j : ℕ) : 6 + 6 * j = 6 * (j + 1) := by ring
    simp only [hplace] at hother hsame hend
    refine ⟨d + 1, ⟨Nat.succ_pos d, hsame, fun j hpos hj => ?_⟩, time, hend, htime⟩
    have hlater := hother (j - 1) (by omega)
    rwa [Nat.sub_add_cancel hpos] at hlater
  · rintro ⟨k, ⟨hpos, hsame, hother⟩, time, hend, htime⟩
    obtain ⟨d, rfl⟩ := Nat.exists_eq_add_of_le' hpos
    have hplace (j : ℕ) : 6 + 6 * j = 6 * (j + 1) := by ring
    have hloop : readLoop m (readTime m 0) (0 + d + 1) 6 = .ok (readTime m 0, 6 + 6 * d + 6) :=
      readLoop_of_repeat d 6 0 (fun j hj => by
        rw [hplace]
        exact hother (j + 1) (Nat.succ_pos j) (Nat.succ_lt_succ hj))
      (by rw [hplace]; exact hsame)
    refine ⟨0 + d + 1, time, bind_eq_ok.mpr ⟨_, hloop, ?_⟩, htime⟩
    simp only [hplace]
    exact hend

/-! ## Bytes -/

/-- A byte that is read as a number in the format `g`. -/
def readNumber (g : Format) (b : BitVec 8) : BitVec 8 := if g.binary then b else bcdToBinary b

/-- A byte that is read as an hour. -/
def readHour (g : Format) (b : BitVec 8) : BitVec 8 :=
  if g.h24 = false ∧ readNumber g b &&& 0x80 ≠ 0 then ((readNumber g b &&& 0x7F) + 12) % 24
  else readNumber g b

theorem setWidth_hour : ∀ b : BitVec 8,
    (b.setWidth 32 &&& pmBit ≠ 0 ↔ b &&& 0x80 ≠ 0) ∧
      ((b.setWidth 32 &&& 0x7F) + 12) % 24 = (((b &&& 0x7F) + 12) % 24).setWidth 32 := by
  decide +kernel

theorem setWidth_setWidth_byte (b : BitVec 8) : (b.setWidth 32).setWidth 8 = b := by
  simp

theorem decode_ofBytes (status sec min hour day month year : BitVec 8) :
    (Time.ofBytes sec min hour day month year).decode status =
      .ofBytes (readNumber (formatOf status) sec) (readNumber (formatOf status) min)
        (readHour (formatOf status) hour) (readNumber (formatOf status) day)
        (readNumber (formatOf status) month) (readNumber (formatOf status) year) := by
  have hnumbers : (if status &&& binaryMode = 0 then
      (Time.ofBytes sec min hour day month year).fromBcd
      else Time.ofBytes sec min hour day month year) =
      .ofBytes (readNumber (formatOf status) sec) (readNumber (formatOf status) min)
        (readNumber (formatOf status) hour) (readNumber (formatOf status) day)
        (readNumber (formatOf status) month) (readNumber (formatOf status) year) := by
    by_cases hbinary : status &&& binaryMode = 0
    · have hformat : (formatOf status).binary = false := decide_eq_false (not_not.mpr hbinary)
      rw [if_pos hbinary]
      simp [readNumber, hformat, Time.fromBcd, bcdField, Time.ofBytes]
    · have hformat : (formatOf status).binary = true := decide_eq_true hbinary
      rw [if_neg hbinary]
      simp [readNumber, hformat]
  obtain ⟨hpm, hafternoon⟩ := setWidth_hour (readNumber (formatOf status) hour)
  unfold Time.decode
  rw [hnumbers, readHour]
  by_cases hlate : (formatOf status).h24 = false ∧ readNumber (formatOf status) hour &&& 0x80 ≠ 0
  · have hstatus : status &&& twentyFourHourFmt = 0 := by simpa [formatOf] using hlate.1
    rw [if_pos hlate, if_pos ⟨hstatus, hpm.mpr hlate.2⟩]
    unfold Time.ofBytes
    rw [hafternoon]
  · have hearly : ¬ (status &&& twentyFourHourFmt = 0 ∧
        (readNumber (formatOf status) hour).setWidth 32 &&& pmBit ≠ 0) := by
      rintro ⟨hstatus, hbit⟩
      exact hlate ⟨by simp [formatOf, hstatus], hpm.mp hbit⟩
    rw [if_neg hlate]
    exact if_neg hearly

theorem readNumber_numberByte (f g : Format) : ∀ v < 100,
    (readNumber g (f.numberByte v)).toNat =
      if f.binary = g.binary then v
      else if f.binary then v - 6 * (v / 16)
      else v + 6 * (v / 10) := by
  obtain ⟨fb, fh⟩ := f
  obtain ⟨gb, gh⟩ := g
  cases fb <;> cases fh <;> cases gb <;> cases gh <;> decide +kernel

theorem readHour_hourByte (f g : Format) : ∀ h < 24,
    ((readHour g (f.hourByte h)).toNat = h ↔ f.HourKept g h) ∧
      (readHour g (f.hourByte h)).toNat ≤ h + 134 ∧
        h ≤ (readHour g (f.hourByte h)).toNat + 134 := by
  obtain ⟨fb, fh⟩ := f
  obtain ⟨gb, gh⟩ := g
  cases fb <;> cases fh <;> cases gb <;> cases gh <;> decide +kernel

/-! ## The time of what was read -/

/-- Two dates of one month whose years or days are six or more apart, in the same direction. -/
theorem dayCount_far {y y' d d' m : ℕ} (hy : 1970 ≤ y) (hyy : y ≤ y') (hyears : y' ≤ y + 54)
    (hdd : d ≤ d') (hdays : d' ≤ d + 100) (hfar : y + 6 ≤ y' ∨ y = y' ∧ d + 6 ≤ d') :
    dayCount y m d + 6 ≤ dayCount y' m d' ∧ dayCount y' m d' ≤ dayCount y m d + 20000 := by
  obtain ⟨hleast, hmost⟩ := daysBeforeYear_between hy hyy
  unfold dayCount
  rcases hfar with hyear | ⟨rfl, hday⟩
  · constructor
    · split <;> split <;> split <;> split <;> omega
    · split <;> split <;> split <;> split <;> omega
  · have hback : PosixTime.IsBeforeLeapDay y m d' → PosixTime.IsBeforeLeapDay y m d := by
      rintro ⟨hleap, hmonth | ⟨hmonth, hbefore⟩⟩
      · exact ⟨hleap, Or.inl hmonth⟩
      · exact ⟨hleap, Or.inr ⟨hmonth, by omega⟩⟩
    by_cases hlate : PosixTime.IsBeforeLeapDay y m d'
    · rw [if_pos hlate, if_pos (hback hlate)]
      omega
    · rw [if_neg hlate]
      split <;> omega

theorem u32_inj {x y : ℤ} (hle : y - x < 2 ^ 32) (hge : x - y < 2 ^ 32) :
    u32 x = u32 y ↔ x = y := by
  constructor
  · intro h
    have hnat := congrArg BitVec.toNat h
    rw [u32, u32, BitVec.toNat_ofInt, BitVec.toNat_ofInt] at hnat
    omega
  · exact congrArg u32

/-- Where the differences are small, two times are equal only when all numbers are. -/
theorem time_eq_iff {D D' : ℤ} {h h' mi mi' s s' : ℕ}
    (hD : D = D' ∨ D + 6 ≤ D' ∧ D' ≤ D + 20000 ∨ D' + 6 ≤ D ∧ D ≤ D' + 20000)
    (hh : h' ≤ h + 134 ∧ h ≤ h' + 134) (hmi : mi' ≤ mi + 30 ∧ mi ≤ mi' + 30)
    (hs : s' ≤ s + 30 ∧ s ≤ s' + 30) :
    u32 (secPerDay * D' + h' * secPerHour + mi' * secPerMinute + s') =
        u32 (secPerDay * D + h * secPerHour + mi * secPerMinute + s) ↔
      D' = D ∧ h' = h ∧ mi' = mi ∧ s' = s := by
  unfold secPerDay secPerHour secPerMinute
  rw [u32_inj (by omega) (by omega)]
  omega

theorem ofBytes_posixTime (sec min hour day month year : BitVec 8) :
    (Time.ofBytes sec min hour day month year).posixTime =
      makePosixTime sec min hour day month (BitVec.ofNat 16 (year.toNat + 2000)) := by
  have hyear : (year.setWidth 32 + currentMillenium).setWidth 16 =
      BitVec.ofNat 16 (year.toNat + 2000) := by
    apply BitVec.eq_of_toNat_eq
    simp [currentMillenium]
  unfold Time.posixTime Time.ofBytes
  dsimp only
  rw [hyear]
  simp only [setWidth_setWidth_byte]

/-- The number which is read from the byte of `v`. -/
def taken (f g : Format) (v : ℕ) : ℕ := (readNumber g (f.numberByte v)).toNat

theorem taken_eq_iff (f g : Format) {v : ℕ} (hv : v < 100) :
    taken f g v = v ↔ f.NumberKept g v := by
  unfold taken Format.NumberKept
  rw [readNumber_numberByte f g v hv]
  by_cases hsame : f.binary = g.binary
  · simp [hsame]
  · rw [if_neg hsame]
    simp only [hsame, false_or]
    split <;> omega

theorem taken_month (f g : Format) {v : ℕ} (hv : v ≤ 12) (h : taken f g v ≤ 12) :
    taken f g v = v := by
  unfold taken at h ⊢
  rw [readNumber_numberByte f g v (by omega)] at h ⊢
  split at h
  next hsame => rw [if_pos hsame]
  next hsame =>
    rw [if_neg hsame]
    split at h
    next hbinary =>
      rw [if_pos hbinary]
      omega
    next hbinary =>
      rw [if_neg hbinary]
      omega

theorem taken_sixty (f g : Format) {v : ℕ} (hv : v < 60) :
    taken f g v ≤ v + 30 ∧ v ≤ taken f g v + 30 := by
  unfold taken
  rw [readNumber_numberByte f g v (by omega)]
  split
  · omega
  · split <;> omega

/-- The date which is read is the same or far away. -/
theorem taken_date (f g : Format) {y m d : ℕ} (hfirst : 2000 ≤ y) (hlast : y ≤ 2099)
    (hd : d ≤ 31) :
    (taken f g (y - 2000) + 2000 = y ∧ taken f g d = d) ∨
      (dayCount y m d + 6 ≤ dayCount (taken f g (y - 2000) + 2000) m (taken f g d) ∧
        dayCount (taken f g (y - 2000) + 2000) m (taken f g d) ≤ dayCount y m d + 20000) ∨
      (dayCount (taken f g (y - 2000) + 2000) m (taken f g d) + 6 ≤ dayCount y m d ∧
        dayCount y m d ≤ dayCount (taken f g (y - 2000) + 2000) m (taken f g d) + 20000) := by
  unfold taken
  rw [readNumber_numberByte f g (y - 2000) (by omega), readNumber_numberByte f g d (by omega)]
  by_cases hsame : f.binary = g.binary
  · rw [if_pos hsame, if_pos hsame]
    exact Or.inl ⟨by omega, rfl⟩
  · rw [if_neg hsame, if_neg hsame]
    by_cases hbinary : f.binary = true
    · rw [if_pos hbinary, if_pos hbinary]
      by_cases hkept : y - 2000 < 16 ∧ d < 16
      · exact Or.inl ⟨by omega, by omega⟩
      · exact Or.inr (Or.inr (dayCount_far (by omega) (by omega) (by omega) (by omega) (by omega)
          (by omega)))
    · rw [if_neg hbinary, if_neg hbinary]
      by_cases hkept : y - 2000 < 10 ∧ d < 10
      · exact Or.inl ⟨by omega, by omega⟩
      · exact Or.inr (Or.inl (dayCount_far (by omega) (by omega) (by omega) (by omega) (by omega)
          (by omega)))

theorem kept_iff {a : Moment} (hfirst : 2000 ≤ a.year) (hlast : a.year ≤ 2099) (f g : Format) :
    f.Kept g a ↔ taken f g a.month = a.month ∧
      (taken f g (a.year - 2000) + 2000 = a.year ∧ taken f g a.day = a.day) ∧
        (readHour g (f.hourByte a.hour)).toNat = a.hour ∧
          taken f g a.minute = a.minute ∧ taken f g a.second = a.second := by
  have hday := a.day_le.trans (daysInMonth_le a.year a.month)
  have hmonth := a.month_le
  have hminute := a.minute_lt
  have hsecond := a.second_lt
  have hyear : taken f g (a.year - 2000) + 2000 = a.year ↔
      taken f g (a.year - 2000) = a.year - 2000 := by omega
  rw [hyear, taken_eq_iff f g (by omega), taken_eq_iff f g (by omega), taken_eq_iff f g (by omega),
    taken_eq_iff f g (by omega), taken_eq_iff f g (by omega),
    (readHour_hourByte f g a.hour a.hour_lt).1]
  constructor
  · exact fun h => ⟨h.month, ⟨h.year, h.day⟩, h.hour, h.minute, h.second⟩
  · exact fun ⟨hmonth, ⟨hyear, hday⟩, hhour, hminute, hsecond⟩ =>
      ⟨hsecond, hminute, hhour, hday, hmonth, hyear⟩

/-- The registers of a moment of the years 2000 to 2099, read in the format of a status, give the
moment's time just when everything comes out right. -/
theorem shown_tells_iff {a : Moment} (hfirst : 2000 ≤ a.year) (hlast : a.year ≤ 2099)
    (f : Format) (status : BitVec 8) :
    SameTime ((f.shown a).decode status) a ↔ f.Kept (formatOf status) a := by
  have hdayLe := a.day_le.trans (daysInMonth_le a.year a.month)
  have hmonthLe := a.month_le
  rw [kept_iff hfirst hlast, SameTime, Format.shown, decode_ofBytes, ofBytes_posixTime]
  by_cases hmonth : taken f (formatOf status) a.month ≤ 12
  · have hsame := taken_month f (formatOf status) hmonthLe hmonth
    have hyear : (BitVec.ofNat 16 (taken f (formatOf status) (a.year - 2000) + 2000)).toNat =
        taken f (formatOf status) (a.year - 2000) + 2000 := by
      have hbyte : taken f (formatOf status) (a.year - 2000) < 256 := BitVec.isLt _
      rw [BitVec.toNat_ofNat]
      omega
    have hdate := taken_date (m := a.month) f (formatOf status) hfirst hlast hdayLe
    have hdates : dayCount (taken f (formatOf status) (a.year - 2000) + 2000) a.month
        (taken f (formatOf status) a.day) = dayCount a.year a.month a.day ↔
        taken f (formatOf status) (a.year - 2000) + 2000 = a.year ∧
          taken f (formatOf status) a.day = a.day := by
      constructor
      · intro h
        omega
      · rintro ⟨hyears, hdays⟩
        rw [hyears, hdays]
    have hfar : dayCount a.year a.month a.day =
        dayCount (taken f (formatOf status) (a.year - 2000) + 2000) a.month
          (taken f (formatOf status) a.day) ∨ _ := hdate.imp_left fun h => (hdates.mpr h).symm
    have hequal := time_eq_iff hfar (readHour_hourByte f (formatOf status) a.hour a.hour_lt).2
      (taken_sixty f (formatOf status) a.minute_lt) (taken_sixty f (formatOf status) a.second_lt)
    have hcall : makePosixTime (readNumber (formatOf status) (f.numberByte a.second))
        (readNumber (formatOf status) (f.numberByte a.minute))
        (readHour (formatOf status) (f.hourByte a.hour))
        (readNumber (formatOf status) (f.numberByte a.day))
        (readNumber (formatOf status) (f.numberByte a.month))
        (BitVec.ofNat 16 (taken f (formatOf status) (a.year - 2000) + 2000)) =
          .ok (u32 (_ * dayCount _ (taken f (formatOf status) a.month) _ + _ + _ + _)) :=
      PosixTime.makePosixTime_eq
        ((by omega : 1970 ≤ taken f (formatOf status) (a.year - 2000) + 2000).trans_eq hyear.symm)
        (hsame.symm ▸ a.month_pos : 1 ≤ taken f (formatOf status) a.month) hmonth
    rw [hyear, hsame] at hcall
    rw [PosixTime.timeOf_eq_u32 a (by omega) (by omega)]
    constructor
    · rintro ⟨time, hread, htime⟩
      have heq := Except.ok.inj ((hcall.symm.trans hread).trans htime.symm)
      obtain ⟨hday, hrest⟩ := hequal.mp heq
      exact ⟨hsame, hdates.mp hday, hrest⟩
    · rintro ⟨-, hdate, hrest⟩
      exact ⟨_, hcall, congrArg Except.ok (hequal.mpr ⟨hdates.mpr hdate, hrest⟩).symm⟩
  · rw [PosixTime.makePosixTime_late (Nat.lt_of_not_le hmonth)]
    constructor
    · rintro ⟨time, herror, -⟩
      simp at herror
    · intro h
      omega

theorem FirstRepeat.unique {m : Machine} {k k' : ℕ} (h : FirstRepeat m k)
    (h' : FirstRepeat m k') : k = k' := by
  rcases lt_trichotomy k k' with hlt | heq | hgt
  · exact absurd h.2.1 (h'.2.2 k h.1 hlt)
  · exact heq
  · exact absurd h'.2.1 (h.2.2 k' h'.1 hgt)

/-- Once the clock shows what the first pass has read there is a repetition. -/
theorem ShowsFrom.exists_firstRepeat {m : Machine} {start : ℕ} {status : BitVec 8} {a : Moment}
    (h : ShowsFrom m start status a) (hfirst : Cmos.readTime m 0 = (formatOf status).shown a) :
    ∃ k, FirstRepeat m k := by
  classical
  have hsome : ∃ k, 1 ≤ k ∧ Cmos.readTime m (6 * k) = Cmos.readTime m 0 := by
    refine ⟨start + 1, Nat.succ_pos start, ?_⟩
    rw [hfirst, h.readTime (by omega)]
  obtain ⟨hpos, hsame⟩ := Nat.find_spec hsome
  exact ⟨Nat.find hsome, hpos, hsame, fun j hj hlt heq => Nat.find_min hsome hlt ⟨hj, heq⟩⟩

/-- The first pass has read the moment at which the clock stays, and I/O port `0x0B` gives, after
the first pass with the same readings, a byte which says a format in which the moment comes out
right. -/
structure Steady (m : Machine) (status : BitVec 8) (a : Moment) : Prop where
  first : readTime m 0 = (formatOf status).shown a
  port : ∀ k, FirstRepeat m k → (formatOf status).Kept (formatOf (readStatus m (6 * k + 6))) a

/-- The first pass has read something else, and a pass which begins before the clock has settled
reads this once more. -/
def RereadsOther (m : Machine) (start : ℕ) (status : BitVec 8) (a : Moment) : Prop :=
  readTime m 0 ≠ (formatOf status).shown a ∧
    ∃ k, 1 ≤ k ∧ 6 * k < start ∧ readTime m (6 * k) = readTime m 0

/-- `get_current_time` tells the moment which the clock comes to show when the first pass has read
it and the port says a format in which it comes out right.  Else it does not, unless something else
was read twice, which may happen to have the same time. -/
theorem tells_of_steady (m : Machine) (start : ℕ) (status : BitVec 8) (a : Moment)
    (hfirst : 2000 ≤ a.year) (hlast : a.year ≤ 2099) (h : ShowsFrom m start status a) :
    (Steady m status a → Tells m a) ∧
      (Tells m a → Steady m status a ∨ RereadsOther m start status a) := by
  have hiff (k : ℕ) := shown_tells_iff hfirst hlast (formatOf status) (readStatus m (6 * k + 6))
  rw [tells_iff]
  constructor
  · rintro ⟨hshown, hport⟩
    obtain ⟨k, hk⟩ := h.exists_firstRepeat hshown
    exact ⟨k, hk, hshown ▸ (hiff k).mpr (hport k hk)⟩
  · rintro ⟨k, hk, hsame⟩
    by_cases hshown : readTime m 0 = (formatOf status).shown a
    · refine Or.inl ⟨hshown, fun k' hk' => ?_⟩
      rw [hshown] at hsame
      rw [hk'.unique hk]
      exact (hiff k).mp hsame
    · refine Or.inr ⟨hshown, k, hk.1, ?_, hk.2.1⟩
      -- from `start` on the passes read the moment
      by_contra hlate
      exact hshown (hk.2.1.symm.trans (h.readTime (not_lt.mp hlate)))

/-- 13:45:30 on the 17th of May 2020. -/
def afternoon : Moment where
  year := 2020
  month := 5
  day := 17
  hour := 13
  minute := 45
  second := 30
  month_pos := by decide
  month_le := by decide
  day_pos := by decide
  day_le := by decide
  hour_lt := by decide
  minute_lt := by decide
  second_lt := by decide

/-- The next second. -/
def afternoonNext : Moment := { afternoon with second := 31, second_lt := by decide }

/-- The register of a clock with this register B at a moment. -/
def register (status : BitVec 8) (a : Moment) (index : BitVec 8) : BitVec 8 :=
  if index = nmiDisable ||| secondsReg then (formatOf status).numberByte a.second
  else if index = nmiDisable ||| minutesReg then (formatOf status).numberByte a.minute
  else if index = nmiDisable ||| hoursReg then (formatOf status).hourByte a.hour
  else if index = nmiDisable ||| dayOfMonthReg then (formatOf status).numberByte a.day
  else if index = nmiDisable ||| monthReg then (formatOf status).numberByte a.month
  else if index = nmiDisable ||| yearReg then (formatOf status).numberByte (a.year - 2000)
  else status

/-- A clock which shows one moment up to the read `start` and another one from there on.  The
other ports give this register B. -/
def clock (status : BitVec 8) (start : ℕ) (a b : Moment) : Machine where
  inb n port index :=
    if port = cmosData then register status (if n < start then a else b) index else status

theorem clock_showsFrom (status : BitVec 8) (start : ℕ) (a b : Moment) :
    ShowsFrom (clock status start a b) start status b := by
  constructor
  all_goals
    intro n hn
    have hlate : ¬ n < start := Nat.not_lt.mpr hn
    simp [cmosReadRegister, clock, hlate]
    rfl

/-- A binary 24-hour clock, at rest. -/
theorem tells_of_steady_clock :
    Tells (clock (twentyFourHourFmt ||| binaryMode) 0 afternoon afternoon) afternoon := by
  refine (tells_of_steady _ 0 (twentyFourHourFmt ||| binaryMode) afternoon (by decide) (by decide)
    (clock_showsFrom _ 0 _ _)).1 ⟨(clock_showsFrom _ 0 _ _).readTime le_rfl, fun k _ => ?_⟩
  have hport : readStatus (clock (twentyFourHourFmt ||| binaryMode) 0 afternoon afternoon)
      (6 * k + 6) = twentyFourHourFmt ||| binaryMode := by
    have hne : statusRegB.setWidth 16 ≠ cmosData := by decide
    simp [readStatus, clock, hne]
  rw [hport]
  exact ⟨Or.inl rfl, Or.inl rfl, Or.inl rfl, Or.inl rfl, Or.inl rfl, Or.inl rfl⟩

/-- The second goes over between the first pass and the second one: the call never returns. -/
theorem not_tells_clock :
    ShowsFrom (clock twentyFourHourFmt 6 afternoon afternoonNext) 6 twentyFourHourFmt
        afternoonNext ∧
      ¬ Tells (clock twentyFourHourFmt 6 afternoon afternoonNext) afternoonNext := by
  have hshows := clock_showsFrom twentyFourHourFmt 6 afternoon afternoonNext
  refine ⟨hshows, ?_⟩
  rw [tells_iff]
  rintro ⟨k, ⟨hpos, hsame, -⟩, -⟩
  rw [hshows.readTime (by omega)] at hsame
  exact absurd hsame (by decide)

end Yak.Cmos
