import Yak.Calendar
import Yak.Halt
import Mathlib.Tactic

/-!
# POSIX time

A transcription of `lib/posix_time.c`.  An `int` which is added to the `uint32_t` is taken modulo
`2 ^ 32`, and so is a product which leaves the range of `int`.
-/

namespace Yak.PosixTime

open Calendar

def secPerMinute : ℤ := 60
def secPerHour : ℤ := secPerMinute * 60
def secPerDay : ℤ := secPerHour * 24
def secPerYear : ℤ := secPerDay * 365

/-- The seconds of a common year before each month. -/
def secPerMonth : List ℤ :=
  [0,
    secPerDay * 31,
    secPerDay * (31 + 28),
    secPerDay * (31 + 28 + 31),
    secPerDay * (31 + 28 + 31 + 30),
    secPerDay * (31 + 28 + 31 + 30 + 31),
    secPerDay * (31 + 28 + 31 + 30 + 31 + 30),
    secPerDay * (31 + 28 + 31 + 30 + 31 + 30 + 31),
    secPerDay * (31 + 28 + 31 + 30 + 31 + 30 + 31 + 31),
    secPerDay * (31 + 28 + 31 + 30 + 31 + 30 + 31 + 31 + 30),
    secPerDay * (31 + 28 + 31 + 30 + 31 + 30 + 31 + 31 + 30 + 31),
    secPerDay * (31 + 28 + 31 + 30 + 31 + 30 + 31 + 31 + 30 + 31 + 30)]

/-- `is_leap_year` -/
def isLeapYear (year : ℤ) : Bool :=
  if year.tmod 4 ≠ 0 then false
  else if year.tmod 100 ≠ 0 then true
  else if year.tmod 400 ≠ 0 then false
  else true

/-- The loop of `nr_leap_years` with this number of turns left. -/
def leapLoop : (turns : ℕ) → (i nr : ℤ) → ℤ
  | 0, _, nr => nr
  | turns + 1, i, nr => leapLoop turns (i + 1) (if isLeapYear i then nr + 1 else nr)

/-- `nr_leap_years` -/
def nrLeapYears (startYear endYear : ℤ) : ℤ :=
  leapLoop (endYear + 1 - startYear).toNat startYear 0

/-- `sec_per_month[month - 1]` -/
def monthSeconds (month : ℕ) : Except Halt ℤ :=
  match month with
  | 0 => .error .outOfBounds
  | m + 1 => (secPerMonth[m]?).elim (.error .outOfBounds) .ok

def IsBeforeLeapDay (year : ℤ) (month dayOfMonth : ℕ) : Prop :=
  isLeapYear year ∧ (month < 2 ∨ month = 2 ∧ dayOfMonth < 29)

instance (year : ℤ) (month dayOfMonth : ℕ) : Decidable (IsBeforeLeapDay year month dayOfMonth) :=
  inferInstanceAs (Decidable (_ ∧ _))

def u32 (x : ℤ) : BitVec 32 := BitVec.ofInt 32 x

/-- `make_posix_time` -/
def makePosixTime (seconds minutes hours dayOfMonth month : BitVec 8) (year : BitVec 16) :
    Except Halt (BitVec 32) := do
  let time := u32 (secPerYear * (year.toNat - 1970))
  let time := time + u32 (secPerDay * nrLeapYears 1970 year.toNat)
  let time := if IsBeforeLeapDay year.toNat month.toNat dayOfMonth.toNat then time - u32 secPerDay
    else time
  let monthTime ← monthSeconds month.toNat
  let time := time + u32 monthTime
  let time := time + u32 ((dayOfMonth.toNat - 1) * secPerDay)
  let time := time + u32 (hours.toNat * secPerHour)
  let time := time + u32 (minutes.toNat * secPerMinute)
  .ok (time + u32 seconds.toNat)

/-- The call for a moment of the calendar. -/
def timeOf (a : Moment) : Except Halt (BitVec 32) :=
  makePosixTime (BitVec.ofNat 8 a.second) (BitVec.ofNat 8 a.minute) (BitVec.ofNat 8 a.hour)
    (BitVec.ofNat 8 a.day) (BitVec.ofNat 8 a.month) (BitVec.ofNat 16 a.year)

/-- The moment is on the 29th of February. -/
def LeapDay (a : Moment) : Prop := a.month = 2 ∧ a.day = 29

instance (a : Moment) : Decidable (LeapDay a) := inferInstanceAs (Decidable (_ ∧ _))

/-- The years for which 32 bits are enough. -/
def InEra (a : Moment) : Prop := 1970 ≤ a.year ∧ a.year ≤ 2105

instance (a : Moment) : Decidable (InEra a) := inferInstanceAs (Decidable (_ ∧ _))

/-- The call gives the count of seconds. -/
def Exact (a : Moment) : Prop := ∃ time, timeOf a = .ok time ∧ time.toNat = a.seconds 1970

/-- The call gives a smaller number for the first moment. -/
def Ascends (a b : Moment) : Prop :=
  ∃ time time', timeOf a = .ok time ∧ timeOf b = .ok time' ∧ time < time'

/-- The second moment is less than a day behind the first one, on the 1st of March. -/
def DayBehind (a b : Moment) : Prop :=
  b.year = a.year ∧ b.month = 3 ∧ b.day = 1 ∧ b.secondOfDay ≤ a.secondOfDay

instance (a b : Moment) : Decidable (DayBehind a b) := inferInstanceAs (Decidable (_ ∧ _))

/-! ## Leap years -/

theorem isLeapYear_iff (y : ℕ) : isLeapYear y = true ↔ Leap y := by
  unfold isLeapYear Leap
  rw [Int.tmod_eq_emod_of_nonneg (Int.natCast_nonneg y),
    Int.tmod_eq_emod_of_nonneg (Int.natCast_nonneg y),
    Int.tmod_eq_emod_of_nonneg (Int.natCast_nonneg y)]
  split
  · simp only [Bool.false_eq_true, false_iff]
    omega
  · split
    · simp only [true_iff]
      omega
    · split
      · simp only [Bool.false_eq_true, false_iff]
        omega
      · simp only [true_iff]
        omega

theorem leapLoop_eq (turns i : ℕ) (nr : ℤ) :
    leapLoop turns i nr + 365 * turns = nr + daysBeforeYear i (i + turns) := by
  induction turns generalizing i nr with
  | zero => simp [leapLoop, daysBeforeYear]
  | succ turns ih =>
      have hfirst : daysBeforeYear i (i + (turns + 1)) =
          daysInYear i + daysBeforeYear (i + 1) (i + 1 + turns) := by
        unfold daysBeforeYear
        rw [Finset.sum_eq_sum_Ico_succ_bot (by omega), Nat.add_right_comm, Nat.add_assoc]
      have hrest := ih (i + 1) (if isLeapYear i then nr + 1 else nr)
      rw [leapLoop, hfirst]
      push_cast at hrest ⊢
      unfold daysInYear
      by_cases hleap : Leap i
      · rw [if_pos ((isLeapYear_iff i).mpr hleap)] at hrest ⊢
        rw [if_pos hleap]
        push_cast
        omega
      · rw [if_neg (mt (isLeapYear_iff i).mp hleap)] at hrest ⊢
        rw [if_neg hleap]
        push_cast
        omega

theorem nrLeapYears_eq {y : ℕ} (h : 1970 ≤ y) :
    nrLeapYears 1970 y + 365 * (y - 1970) =
      daysBeforeYear 1970 y + if Leap y then 1 else 0 := by
  obtain ⟨k, rfl⟩ := Nat.exists_eq_add_of_le h
  have hturns : (((1970 + k : ℕ) : ℤ) + 1 - 1970).toNat = k + 1 := by omega
  have hloop : leapLoop (k + 1) 1970 0 + 365 * ((k + 1 : ℕ) : ℤ) =
      0 + daysBeforeYear 1970 (1970 + k + 1) := leapLoop_eq (k + 1) 1970 0
  rw [daysBeforeYear_succ h, daysInYear] at hloop
  rw [nrLeapYears, hturns]
  split at hloop
  next hleap =>
    rw [if_pos hleap]
    omega
  next hleap =>
    rw [if_neg hleap]
    omega

theorem monthSeconds_eq {m : ℕ} (hpos : 1 ≤ m) (hle : m ≤ 12) :
    monthSeconds m = .ok (secPerDay * daysBeforeMonth 1 m) := by
  interval_cases m <;> rfl

theorem monthSeconds_late {m : ℕ} (h : m = 0 ∨ 12 < m) :
    monthSeconds m = .error .outOfBounds := by
  rcases h with rfl | hlate
  · rfl
  · obtain ⟨k, rfl⟩ := Nat.exists_eq_add_of_lt hlate
    have hnone : secPerMonth[12 + k]? = none :=
      List.getElem?_eq_none (Nat.le_add_right 12 k)
    rw [monthSeconds, hnone]
    rfl

/-! ## The time -/

theorem u32_add (x y : ℤ) : u32 x + u32 y = u32 (x + y) := (BitVec.ofInt_add x y).symm

theorem u32_sub (x y : ℤ) : u32 x - u32 y = u32 (x - y) := by
  rw [BitVec.sub_eq_add_neg, sub_eq_add_neg, ← u32_add]
  exact congrArg (u32 x + ·) BitVec.ofInt_neg.symm

theorem u32_natCast (n : ℕ) : u32 n = BitVec.ofNat 32 n := BitVec.ofInt_natCast 32 n

theorem leapDay_leap {a : Moment} (h : LeapDay a) : Leap a.year := by
  have hle := a.day_le
  rw [h.1, h.2, daysInMonth] at hle
  by_contra hcommon
  rw [if_neg hcommon] at hle
  omega

/-- The days which `make_posix_time` counts, those of the months as in a common year. -/
def dayCount (year month dayOfMonth : ℕ) : ℤ :=
  daysBeforeYear 1970 year + (if Leap year then 1 else 0) -
    (if IsBeforeLeapDay year month dayOfMonth then 1 else 0) + daysBeforeMonth 1 month +
      (dayOfMonth - 1)

theorem makePosixTime_eq {seconds minutes hours dayOfMonth month : BitVec 8} {year : BitVec 16}
    (hyear : 1970 ≤ year.toNat) (hpos : 1 ≤ month.toNat) (hle : month.toNat ≤ 12) :
    makePosixTime seconds minutes hours dayOfMonth month year =
      .ok (u32 (secPerDay * dayCount year.toNat month.toNat dayOfMonth.toNat +
        hours.toNat * secPerHour + minutes.toNat * secPerMinute + seconds.toNat)) := by
  have hback (time : ℤ) :
      (if IsBeforeLeapDay year.toNat month.toNat dayOfMonth.toNat then u32 time - u32 secPerDay
        else u32 time) =
      u32 (time - secPerDay *
        if IsBeforeLeapDay year.toNat month.toNat dayOfMonth.toNat then 1 else 0) := by
    split
    · rw [mul_one, u32_sub]
    · rw [mul_zero, sub_zero]
  have hyears := nrLeapYears_eq hyear
  unfold makePosixTime
  simp only [monthSeconds_eq hpos hle, ok_bind, u32_add, hback]
  refine congrArg (fun time => Except.ok (u32 time)) ?_
  unfold dayCount secPerYear
  linear_combination secPerDay * hyears

theorem makePosixTime_late {seconds minutes hours dayOfMonth month : BitVec 8} {year : BitVec 16}
    (h : 12 < month.toNat) :
    makePosixTime seconds minutes hours dayOfMonth month year = .error .outOfBounds := by
  unfold makePosixTime
  simp only [monthSeconds_late (Or.inr h), error_bind]

/-- Of the leap days which the count of years adds, that of the year itself is taken back before
the 29th of February. -/
theorem dayCount_moment (a : Moment) :
    dayCount a.year a.month a.day =
      daysBeforeYear 1970 a.year + a.dayOfYear + if LeapDay a then 1 else 0 := by
  have hpos := a.day_pos
  have hday : a.month = 2 → a.day ≤ 29 := by
    intro hmonth
    have hle := a.day_le
    rw [hmonth, daysInMonth] at hle
    split at hle <;> omega
  unfold dayCount Moment.dayOfYear
  rw [daysBeforeMonth_eq a.year (show ¬ Leap 1 by decide) a.month_pos]
  push_cast [Nat.cast_sub hpos]
  by_cases hleap : Leap a.year
  · have hbefore : IsBeforeLeapDay a.year a.month a.day ↔
        a.month < 2 ∨ a.month = 2 ∧ a.day < 29 :=
      and_iff_right ((isLeapYear_iff a.year).mpr hleap)
    simp only [hbefore, hleap, true_and, if_true]
    by_cases hlast : LeapDay a
    · obtain ⟨hmonth, hlastDay⟩ := hlast
      rw [if_neg (by omega), if_neg (by omega), if_pos ⟨hmonth, hlastDay⟩]
      ring
    · have hother : ¬ (a.month = 2 ∧ a.day = 29) := hlast
      rw [if_neg hlast]
      split
      next hearly =>
        rw [if_neg (by omega)]
        ring
      next hlate =>
        rw [if_pos (by omega)]
        ring
  · have hbefore : ¬ IsBeforeLeapDay a.year a.month a.day :=
      fun h => hleap ((isLeapYear_iff a.year).mp h.1)
    have hnone : ¬ LeapDay a := fun h => hleap (leapDay_leap h)
    rw [if_neg hleap, if_neg hbefore, if_neg hnone, if_neg (fun h => hleap h.1)]
    ring

/-- The arguments of the call for a moment. -/
theorem toNat_ofNat_moment (a : Moment) (hyear : a.year < 2 ^ 16) :
    (BitVec.ofNat 8 a.second).toNat = a.second ∧ (BitVec.ofNat 8 a.minute).toNat = a.minute ∧
      (BitVec.ofNat 8 a.hour).toNat = a.hour ∧ (BitVec.ofNat 8 a.day).toNat = a.day ∧
      (BitVec.ofNat 8 a.month).toNat = a.month ∧ (BitVec.ofNat 16 a.year).toNat = a.year := by
  have hsecond := a.second_lt
  have hminute := a.minute_lt
  have hhour := a.hour_lt
  have hday := a.day_le.trans (daysInMonth_le a.year a.month)
  have hmonth := a.month_le
  simp only [BitVec.toNat_ofNat]
  omega

theorem timeOf_eq_u32 (a : Moment) (h : 1970 ≤ a.year) (hyear : a.year < 2 ^ 16) :
    timeOf a = .ok (u32 (secPerDay * dayCount a.year a.month a.day + a.hour * secPerHour +
      a.minute * secPerMinute + a.second)) := by
  obtain ⟨hsecond, hminute, hhour, hday, hmonth, hyears⟩ := toNat_ofNat_moment a hyear
  rw [timeOf, makePosixTime_eq (by rwa [hyears]) (by rw [hmonth]; exact a.month_pos)
    (by rw [hmonth]; exact a.month_le), hsecond, hminute, hhour, hday, hmonth, hyears]

/-- On a leap day the time is a day ahead. -/
theorem timeOf_eq (a : Moment) (h : 1970 ≤ a.year) (hyear : a.year < 2 ^ 16) :
    timeOf a = .ok (BitVec.ofNat 32
      (a.seconds 1970 + if LeapDay a then secondsInDay else 0)) := by
  rw [timeOf_eq_u32 a h hyear, dayCount_moment, ← u32_natCast]
  refine congrArg (fun time => Except.ok (u32 time)) ?_
  unfold Moment.seconds Moment.secondOfDay secondsInDay secPerDay secPerHour secPerMinute
  push_cast
  split <;> ring

/-- The moments of the era have numbers which 32 bits hold. -/
theorem seconds_lt {a : Moment} (h : InEra a) :
    a.seconds 1970 + secondsInDay < 2 ^ 32 := by
  have hdays : daysBeforeYear 1970 2106 = 49673 := by decide +kernel
  have hyear := daysBeforeYear_add_le h.1 (Nat.lt_succ_of_le h.2)
  have hday := a.dayOfYear_lt
  have htime := a.secondOfDay_lt
  rw [hdays] at hyear
  unfold Moment.seconds
  unfold secondsInDay at htime ⊢
  omega

theorem timeOf_of_inEra {a : Moment} (h : InEra a) :
    ∃ time, timeOf a = .ok time ∧
      time.toNat = a.seconds 1970 + if LeapDay a then secondsInDay else 0 := by
  have hlt := seconds_lt h
  have hyear := h.2
  refine ⟨_, timeOf_eq a h.1 (by omega), ?_⟩
  rw [BitVec.toNat_ofNat, Nat.mod_eq_of_lt]
  split <;> omega

theorem exact_iff {a : Moment} (h : InEra a) : Exact a ↔ ¬ LeapDay a := by
  obtain ⟨time, htime, hvalue⟩ := timeOf_of_inEra h
  have hexact : Exact a ↔ time.toNat = a.seconds 1970 := by
    constructor
    · rintro ⟨time', htime', hvalue'⟩
      rw [htime] at htime'
      rwa [Except.ok.inj htime']
    · exact fun hvalue' => ⟨time, htime, hvalue'⟩
  rw [hexact, hvalue]
  by_cases hleap : LeapDay a
  · simp [hleap, secondsInDay]
  · simp [hleap]

theorem marchDay_le (y : ℕ) : 1 ≤ daysInMonth y 3 := Nat.le_add_left 1 30

/-- The 1st of March is the day behind a leap day. -/
theorem next_day_iff {a b : Moment} (hleap : LeapDay a) (ha : 1970 ≤ a.year)
    (hb : 1970 ≤ b.year) :
    daysBeforeYear 1970 b.year + b.dayOfYear = daysBeforeYear 1970 a.year + a.dayOfYear + 1 ↔
      b.year = a.year ∧ b.month = 3 ∧ b.day = 1 := by
  let c : Moment :=
    { b with
      year := a.year
      month := 3
      day := 1
      month_pos := by decide
      month_le := by decide
      day_pos := le_rfl
      day_le := marchDay_le a.year }
  have hdays : c.dayOfYear = a.dayOfYear + 1 := by
    have hfeb : daysInMonth a.year 2 = 29 := if_pos (leapDay_leap hleap)
    have hmarch : daysBeforeMonth a.year 3 = daysBeforeMonth a.year 2 + daysInMonth a.year 2 :=
      daysBeforeMonth_succ a.year (by decide)
    show daysBeforeMonth a.year 3 + (1 - 1) = daysBeforeMonth a.year a.month + (a.day - 1) + 1
    rw [hmarch, hfeb, hleap.1, hleap.2]
  constructor
  · intro h
    refine Moment.date_eq (b := c) hb ha ?_
    rw [h, hdays, Nat.add_assoc]
  · rintro ⟨hyear, hmonth, hday⟩
    have hsame : b.dayOfYear = c.dayOfYear := Moment.dayOfYear_congr hyear hmonth hday
    rw [hsame, hyear, hdays, Nat.add_assoc]

theorem ascends_iff {a b : Moment} (ha : InEra a) (hb : InEra b) (h : a.fields < b.fields) :
    Ascends a b ↔ ¬ (LeapDay a ∧ DayBehind a b) := by
  obtain ⟨time, htime, hvalue⟩ := timeOf_of_inEra ha
  obtain ⟨time', htime', hvalue'⟩ := timeOf_of_inEra hb
  have hascends : Ascends a b ↔ time.toNat < time'.toNat := by
    constructor
    · rintro ⟨t, t', ht, ht', hlt⟩
      rw [htime] at ht
      rw [htime'] at ht'
      rwa [Except.ok.inj ht, Except.ok.inj ht']
    · exact fun hlt => ⟨time, time', htime, htime', hlt⟩
  rw [hascends, hvalue, hvalue']
  have hlt := Moment.seconds_lt_seconds 1970 ha.1 h
  by_cases hleap : LeapDay a
  · have hnext := next_day_iff hleap ha.1 hb.1
    have hbehind : DayBehind a b ↔
        (b.year = a.year ∧ b.month = 3 ∧ b.day = 1) ∧ b.secondOfDay ≤ a.secondOfDay := by
      simp only [DayBehind, and_assoc]
    rw [and_iff_right hleap, hbehind, ← hnext, if_pos hleap]
    have htimeA := a.secondOfDay_lt
    rcases Moment.days_lt_or_eq 1970 ha.1 h with hdays | ⟨⟨hyear, hmonth, hday⟩, -⟩
    · have hnot : daysBeforeYear 1970 b.year + b.dayOfYear =
          daysBeforeYear 1970 a.year + a.dayOfYear + 1 → ¬ LeapDay b := by
        intro hone hleapB
        have hmonth := (hnext.mp hone).2.1
        rw [hleapB.1] at hmonth
        exact absurd hmonth (by decide)
      unfold Moment.seconds
      unfold secondsInDay at htimeA ⊢
      by_cases hone : daysBeforeYear 1970 b.year + b.dayOfYear =
          daysBeforeYear 1970 a.year + a.dayOfYear + 1
      · rw [if_neg (hnot hone)]
        omega
      · omega
    · have hleapB : LeapDay b := ⟨hmonth.symm.trans hleap.1, hday.symm.trans hleap.2⟩
      have hsame := Moment.dayOfYear_congr hyear hmonth hday
      rw [if_pos hleapB, hyear, hsame]
      omega
  · simp only [hleap, if_false, false_and, not_false_iff, iff_true]
    omega

/-- `make_posix_time` gives the count of seconds, and rises with the moment, but for the 29th of
February, which it takes for the 1st of March. -/
theorem exact_and_ascends_iff (a b : Moment) (ha : InEra a) (hb : InEra b) :
    (Exact a ↔ ¬ LeapDay a) ∧
      (a.fields < b.fields → (Ascends a b ↔ ¬ (LeapDay a ∧ DayBehind a b))) :=
  ⟨exact_iff ha, ascends_iff ha hb⟩

/-- Noon of the 29th of February 2000. -/
def leapNoon : Moment where
  year := 2000
  month := 2
  day := 29
  hour := 12
  minute := 0
  second := 0
  month_pos := by decide
  month_le := by decide
  day_pos := by decide
  day_le := by decide
  hour_lt := by decide
  minute_lt := by decide
  second_lt := by decide

/-- Noon of the next day. -/
def marchNoon : Moment :=
  { leapNoon with
    month := 3
    day := 1
    month_pos := by decide
    month_le := by decide
    day_pos := by decide
    day_le := by decide }

theorem exact_and_ascends_iff_leapNoon :
    (Exact leapNoon ↔ ¬ LeapDay leapNoon) ∧
      (leapNoon.fields < marchNoon.fields →
        (Ascends leapNoon marchNoon ↔ ¬ (LeapDay leapNoon ∧ DayBehind leapNoon marchNoon))) :=
  exact_and_ascends_iff leapNoon marchNoon (by decide) (by decide)

/-- The two noons get one number. -/
theorem not_exact_leapNoon :
    ¬ Exact leapNoon ∧ leapNoon.fields < marchNoon.fields ∧ ¬ Ascends leapNoon marchNoon := by
  refine ⟨?_, by decide, ?_⟩
  · rw [exact_iff (by decide)]
    decide
  · rw [ascends_iff (by decide) (by decide) (by decide)]
    decide

end Yak.PosixTime
