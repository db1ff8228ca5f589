import Mathlib.Tactic

/-!
# The Gregorian calendar

Moments of the calendar as six numbers, the seconds from the start of a year to a moment by the
count of days, and that this count follows the order of the moments.
-/

namespace Yak.Calendar

/-- A leap year of the Gregorian calendar. -/
def Leap (y : ℕ) : Prop := y % 4 = 0 ∧ (y % 100 ≠ 0 ∨ y % 400 = 0)

instance : DecidablePred Leap := fun y => inferInstanceAs (Decidable (y % 4 = 0 ∧ _))

def daysInMonth (y : ℕ) : ℕ → ℕ
  | 1 | 3 | 5 | 7 | 8 | 10 | 12 => 31
  | 4 | 6 | 9 | 11 => 30
  | 2 => if Leap y then 29 else 28
  | _ => 0

def daysInYear (y : ℕ) : ℕ := if Leap y then 366 else 365

def secondsInDay : ℕ := 86400

/-- A second of the calendar. -/
structure Moment where
  year : ℕ
  month : ℕ
  day : ℕ
  hour : ℕ
  minute : ℕ
  second : ℕ
  month_pos : 1 ≤ month
  month_le : month ≤ 12
  day_pos : 1 ≤ day
  day_le : day ≤ daysInMonth year month
  hour_lt : hour < 24
  minute_lt : minute < 60
  second_lt : second < 60

/-- The days of the years from `epoch` up to `y`. -/
def daysBeforeYear (epoch y : ℕ) : ℕ := ∑ i ∈ Finset.Ico epoch y, daysInYear i

/-- The days of a year before its month `m`. -/
def daysBeforeMonth (y m : ℕ) : ℕ := ∑ i ∈ Finset.Ico 1 m, daysInMonth y i

namespace Moment

variable {a b : Moment}

/-- The numbers of a moment, the most significant one first. -/
def fields (a : Moment) : List ℕ := [a.year, a.month, a.day, a.hour, a.minute, a.second]

def dayOfYear (a : Moment) : ℕ := daysBeforeMonth a.year a.month + (a.day - 1)

def secondOfDay (a : Moment) : ℕ := a.hour * 3600 + a.minute * 60 + a.second

/-- The seconds from the start of the year `epoch`. -/
def seconds (epoch : ℕ) (a : Moment) : ℕ :=
  (daysBeforeYear epoch a.year + a.dayOfYear) * secondsInDay + a.secondOfDay

end Moment

/-! ## Days before -/

theorem daysBeforeYear_succ {epoch y : ℕ} (h : epoch ≤ y) :
    daysBeforeYear epoch (y + 1) = daysBeforeYear epoch y + daysInYear y :=
  Finset.sum_Ico_succ_top h _

theorem daysBeforeYear_mono (epoch : ℕ) {y y' : ℕ} (h : y ≤ y') :
    daysBeforeYear epoch y ≤ daysBeforeYear epoch y' :=
  Finset.sum_le_sum_of_subset (Finset.Ico_subset_Ico_right h)

theorem daysBeforeYear_add_le {epoch y y' : ℕ} (hepoch : epoch ≤ y) (h : y < y') :
    daysBeforeYear epoch y + daysInYear y ≤ daysBeforeYear epoch y' := by
  rw [← daysBeforeYear_succ hepoch]
  exact daysBeforeYear_mono epoch h

theorem daysBeforeYear_between {epoch y y' : ℕ} (hepoch : epoch ≤ y) (h : y ≤ y') :
    daysBeforeYear epoch y + 365 * (y' - y) ≤ daysBeforeYear epoch y' ∧
      daysBeforeYear epoch y' ≤ daysBeforeYear epoch y + 366 * (y' - y) := by
  induction y', h using Nat.le_induction with
  | base => simp
  | succ y' h ih =>
      rw [daysBeforeYear_succ (hepoch.trans h), daysInYear]
      split <;> omega

theorem daysBeforeMonth_succ (y : ℕ) {m : ℕ} (h : 1 ≤ m) :
    daysBeforeMonth y (m + 1) = daysBeforeMonth y m + daysInMonth y m :=
  Finset.sum_Ico_succ_top h _

theorem daysBeforeMonth_mono (y : ℕ) {m m' : ℕ} (h : m ≤ m') :
    daysBeforeMonth y m ≤ daysBeforeMonth y m' :=
  Finset.sum_le_sum_of_subset (Finset.Ico_subset_Ico_right h)

theorem daysBeforeMonth_add_le (y : ℕ) {m m' : ℕ} (hm : 1 ≤ m) (h : m < m') :
    daysBeforeMonth y m + daysInMonth y m ≤ daysBeforeMonth y m' := by
  rw [← daysBeforeMonth_succ y hm]
  exact daysBeforeMonth_mono y h

/-- The months fill the year. -/
theorem daysBeforeMonth_thirteen (y : ℕ) : daysBeforeMonth y 13 = daysInYear y := by
  unfold daysBeforeMonth daysInYear
  simp only [Finset.sum_Ico_succ_top, Nat.reduceLeDiff, Finset.Ico_self, Finset.sum_empty,
    daysInMonth]
  split <;> rfl

theorem daysInMonth_le (y m : ℕ) : daysInMonth y m ≤ 31 := by
  unfold daysInMonth
  split
  all_goals try split
  all_goals omega

theorem daysInMonth_congr (y y' : ℕ) {m : ℕ} (h : m ≠ 2) : daysInMonth y m = daysInMonth y' m := by
  unfold daysInMonth
  split
  all_goals first | rfl | exact absurd rfl h

/-- Before a month of a leap year there is one day more than in a common year, from March on. -/
theorem daysBeforeMonth_eq (y : ℕ) {c m : ℕ} (hcommon : ¬ Leap c) (hpos : 1 ≤ m) :
    daysBeforeMonth y m = daysBeforeMonth c m + if Leap y ∧ 2 < m then 1 else 0 := by
  induction m, hpos using Nat.le_induction with
  | base => simp [daysBeforeMonth]
  | succ m hpos ih =>
      rw [daysBeforeMonth_succ y hpos, daysBeforeMonth_succ c hpos, ih]
      by_cases hm : m = 2
      · subst hm
        simp [daysInMonth, hcommon]
        split <;> rfl
      · have hlater : (Leap y ∧ 2 < m + 1) ↔ (Leap y ∧ 2 < m) := and_congr_right fun _ => by omega
        rw [daysInMonth_congr y c hm]
        simp only [hlater]
        omega

namespace Moment

variable {a b : Moment}

theorem dayOfYear_lt (a : Moment) : a.dayOfYear < daysInYear a.year := by
  have hmonth : daysBeforeMonth a.year a.month + daysInMonth a.year a.month ≤
      daysBeforeMonth a.year 13 :=
    daysBeforeMonth_add_le a.year a.month_pos (Nat.lt_succ_of_le a.month_le)
  have hpos := a.day_pos
  have hle := a.day_le
  rw [daysBeforeMonth_thirteen] at hmonth
  unfold dayOfYear
  omega

theorem secondOfDay_lt (a : Moment) : a.secondOfDay < secondsInDay := by
  have hhour := a.hour_lt
  have hminute := a.minute_lt
  have hsecond := a.second_lt
  unfold secondOfDay secondsInDay
  omega

/-! ## The order -/

theorem dayOfYear_lt_dayOfYear (hyear : a.year = b.year)
    (h : a.month < b.month ∨ a.month = b.month ∧ a.day < b.day) : a.dayOfYear < b.dayOfYear := by
  have hpos := a.day_pos
  have hle := a.day_le
  unfold dayOfYear
  rw [← hyear]
  rcases h with hmonth | ⟨hmonth, hday⟩
  · have hbefore := daysBeforeMonth_add_le a.year a.month_pos hmonth
    omega
  · rw [hmonth]
    omega

theorem days_lt (epoch : ℕ) (hepoch : epoch ≤ a.year)
    (h : a.year < b.year ∨ a.year = b.year ∧ a.dayOfYear < b.dayOfYear) :
    daysBeforeYear epoch a.year + a.dayOfYear < daysBeforeYear epoch b.year + b.dayOfYear := by
  have hyearDay := a.dayOfYear_lt
  rcases h with hyear | ⟨hyear, hday⟩
  · have hbefore := daysBeforeYear_add_le hepoch hyear
    omega
  · rw [hyear]
    omega

theorem date_eq {epoch : ℕ} (ha : epoch ≤ a.year) (hb : epoch ≤ b.year)
    (h : daysBeforeYear epoch a.year + a.dayOfYear = daysBeforeYear epoch b.year + b.dayOfYear) :
    a.year = b.year ∧ a.month = b.month ∧ a.day = b.day := by
  have hyear : a.year = b.year := by
    rcases lt_trichotomy a.year b.year with hlt | heq | hgt
    · exact absurd h (days_lt epoch ha (Or.inl hlt)).ne
    · exact heq
    · exact absurd h (days_lt epoch hb (Or.inl hgt)).ne'
  have hsame : a.dayOfYear = b.dayOfYear := by
    rw [hyear] at h
    omega
  have hmonth : a.month = b.month := by
    rcases lt_trichotomy a.month b.month with hlt | heq | hgt
    · exact absurd hsame (dayOfYear_lt_dayOfYear hyear (Or.inl hlt)).ne
    · exact heq
    · exact absurd hsame (dayOfYear_lt_dayOfYear hyear.symm (Or.inl hgt)).ne'
  refine ⟨hyear, hmonth, ?_⟩
  rcases lt_trichotomy a.day b.day with hlt | heq | hgt
  · exact absurd hsame (dayOfYear_lt_dayOfYear hyear (Or.inr ⟨hmonth, hlt⟩)).ne
  · exact heq
  · exact absurd hsame (dayOfYear_lt_dayOfYear hyear.symm (Or.inr ⟨hmonth.symm, hgt⟩)).ne'

theorem seconds_add_le (epoch : ℕ)
    (h : daysBeforeYear epoch a.year + a.dayOfYear <
      daysBeforeYear epoch b.year + b.dayOfYear) :
    a.seconds epoch + secondsInDay ≤ b.seconds epoch + a.secondOfDay := by
  have hmul := Nat.mul_le_mul_right secondsInDay (Nat.succ_le_of_lt h)
  rw [Nat.succ_mul] at hmul
  unfold seconds
  omega

theorem secondOfDay_lt_secondOfDay
    (h : a.hour < b.hour ∨ a.hour = b.hour ∧
      (a.minute < b.minute ∨ a.minute = b.minute ∧ a.second < b.second)) :
    a.secondOfDay < b.secondOfDay := by
  have hminute := a.minute_lt
  have hsecond := a.second_lt
  unfold secondOfDay
  omega

theorem fields_lt_iff : a.fields < b.fields ↔
    a.year < b.year ∨ a.year = b.year ∧ (a.month < b.month ∨ a.month = b.month ∧
      (a.day < b.day ∨ a.day = b.day ∧ (a.hour < b.hour ∨ a.hour = b.hour ∧
        (a.minute < b.minute ∨ a.minute = b.minute ∧ a.second < b.second)))) := by
  simp [fields, List.cons_lt_cons_iff]

/-- Of two moments the earlier one is on an earlier day, or earlier on the same day. -/
theorem days_lt_or_eq (epoch : ℕ) (hepoch : epoch ≤ a.year) (h : a.fields < b.fields) :
    daysBeforeYear epoch a.year + a.dayOfYear < daysBeforeYear epoch b.year + b.dayOfYear ∨
      (a.year = b.year ∧ a.month = b.month ∧ a.day = b.day) ∧
        a.secondOfDay < b.secondOfDay := by
  rw [fields_lt_iff] at h
  rcases h with hyear | ⟨hyear, hmonth | ⟨hmonth, hday | ⟨hday, htime⟩⟩⟩
  · exact Or.inl (days_lt epoch hepoch (Or.inl hyear))
  · exact Or.inl (days_lt epoch hepoch
      (Or.inr ⟨hyear, dayOfYear_lt_dayOfYear hyear (Or.inl hmonth)⟩))
  · exact Or.inl (days_lt epoch hepoch
      (Or.inr ⟨hyear, dayOfYear_lt_dayOfYear hyear (Or.inr ⟨hmonth, hday⟩)⟩))
  · exact Or.inr ⟨⟨hyear, hmonth, hday⟩, secondOfDay_lt_secondOfDay htime⟩

theorem dayOfYear_congr (hyear : a.year = b.year) (hmonth : a.month = b.month)
    (hday : a.day = b.day) : a.dayOfYear = b.dayOfYear := by
  rw [dayOfYear, dayOfYear, hyear, hmonth, hday]

/-- The count of seconds follows the order of the moments. -/
theorem seconds_lt_seconds (epoch : ℕ) (hepoch : epoch ≤ a.year) (h : a.fields < b.fields) :
    a.seconds epoch < b.seconds epoch := by
  rcases days_lt_or_eq epoch hepoch h with hdays | ⟨⟨hyear, hmonth, hday⟩, htime⟩
  · have hstep := seconds_add_le epoch hdays
    have hlt := a.secondOfDay_lt
    omega
  · have hsame := dayOfYear_congr hyear hmonth hday
    unfold seconds
    rw [hyear, hsame]
    omega

end Moment

end Yak.Calendar
