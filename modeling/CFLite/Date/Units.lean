import Mathlib.Data.Rat.Floor
import CFLite.Date.Gregorian
import CFLite.Framework.TwosComplement

/-!
# Adding units of the calendar

`CFAbsoluteTimeAddGregorianUnits` with a `NULL` time zone and in exact
arithmetic; the fields of `CFGregorianUnits` wrap in 32 bits. The code adds
years and months, clamps the day to the month, and rolls the days month by
month.

* `MonthOfYear`: a month with its year, whose number of days is positive, so
  that the loops end;
* `daysOn_spec`, `daysBack_spec`: the loops keep the number of the day;
* `addGregorianUnits_spec`: the result is the time of the day that is
  `units.days` days after the clamped one.
-/

namespace CFLite.Calendar

open Framework (Fits)

/-- `CFGregorianUnits` -/
structure GregorianUnits where
  years : Int
  months : Int
  days : Int
  hours : Int
  minutes : Int
  seconds : ℚ

/-! ## Months -/

/-- The fields `years` and `months` of `working` once the month is one of the
calendar. -/
structure MonthOfYear where
  year : Int
  month : Int
  one_le : 1 ≤ month
  le : month ≤ 12

namespace MonthOfYear

/-- `monthdays` -/
def days (m : MonthOfYear) : Nat := daysInMonth m.month (isleap (int32 (m.year - 2001)))

theorem days_pos (m : MonthOfYear) : 0 < m.days := by
  obtain ⟨year, month, hlow, hhigh⟩ := m
  simp only [days]
  generalize isleap _ = leap
  cases leap <;> interval_cases month <;> decide

/-- `working.months += 1`, with the carry into the year. -/
def next (m : MonthOfYear) : MonthOfYear :=
  if h : 12 < m.month + 1 then ⟨int32 (m.year + 1), m.month + 1 - 12, by omega, by have := m.le; omega⟩
  else ⟨m.year, m.month + 1, by have := m.one_le; omega, by omega⟩

/-- `working.months -= 1`, with the borrow from the year. -/
def previous (m : MonthOfYear) : MonthOfYear :=
  if h : m.month - 1 < 1 then ⟨int32 (m.year - 1), m.month - 1 + 12, by have := m.one_le; omega, by omega⟩
  else ⟨m.year, m.month - 1, by omega, by have := m.le; omega⟩

end MonthOfYear

/-- `while (12 < working.months)` -/
def monthsDown (years months : Int) : Int × Int :=
  if 12 < months then monthsDown (int32 (years + 1)) (months - 12) else (years, months)
termination_by months.toNat

/-- `while (working.months < 1)` -/
def monthsUp (years months : Int) (h : months ≤ 12) : MonthOfYear :=
  if h1 : months < 1 then monthsUp (int32 (years - 1)) (months + 12) (by omega) else ⟨years, months, by omega, h⟩
termination_by (1 - months).toNat

theorem monthsDown_le (years months : Int) : (monthsDown years months).2 ≤ 12 := by
  fun_induction monthsDown years months with
  | case1 years months h ih => exact ih
  | case2 years months h => exact not_lt.mp h

/-- The two loops that make the month one of the calendar. -/
def normalizeMonth (years months : Int) : MonthOfYear :=
  monthsUp (monthsDown years months).1 (monthsDown years months).2 (monthsDown_le years months)

/-- `while (monthdays < working.days)` -/
def daysOn (m : MonthOfYear) (days : Int) : MonthOfYear × Int :=
  if m.days < days then daysOn m.next (days - m.days) else (m, days)
termination_by days.toNat
decreasing_by have := m.days_pos; omega

/-- `while (working.days < 1)` -/
def daysBack (m : MonthOfYear) (days : Int) : MonthOfYear × Int :=
  if days < 1 then daysBack m.previous (days + m.previous.days) else (m, days)
termination_by (1 - days).toNat
decreasing_by have := m.previous.days_pos; omega

/-- `CFAbsoluteTimeAddGregorianUnits(at, NULL, units)` -/
def addGregorianUnits (time : Int) (units : GregorianUnits) : ℚ :=
  let gdate := gregorianDateFromSeconds time
  let working := normalizeMonth (int32 (gdate.year + units.years)) (int32 (gdate.month + units.months))
  let day := if working.days < gdate.day then (working.days : Int) else gdate.day
  let (working, day) := daysOn working (int32 (day + units.days))
  let (working, day) := daysBack working day
  secondsFromDate (fun _ => 0) { gdate with year := working.year, month := working.month, day := day } +
    3600 * units.hours + 60 * units.minutes + units.seconds

/-! ## The month -/

theorem int32_int32_add (x n : Int) : int32 (int32 x + n) = int32 (x + n) := by
  rw [int32, int32, Int.bmod_add_bmod, int32]

@[simp] theorem int32_int32 (x : Int) : int32 (int32 x) = int32 x := by
  rw [int32, int32, Int.bmod_bmod]

theorem monthsDown_spec (years months : Int) (h : int32 years = years) :
    let r := monthsDown years months
    int32 r.1 = r.1 ∧ int32 (r.1 + (r.2 - 1) / 12) = int32 (years + (months - 1) / 12) ∧ r.2 % 12 = months % 12 := by
  fun_induction monthsDown years months with
  | case1 years months hlt ih =>
    obtain ⟨hyear, hsum, hmonth⟩ := ih (int32_int32 _)
    refine ⟨hyear, ?_, by omega⟩
    rw [hsum, int32_int32_add]
    congr 1
    omega
  | case2 years months hle => exact ⟨h, rfl, rfl⟩

theorem monthsUp_spec (years months : Int) (hle : months ≤ 12) (h : int32 years = years) :
    (monthsUp years months hle).year = int32 (years + (months - 1) / 12) ∧
      (monthsUp years months hle).month = (months - 1) % 12 + 1 := by
  fun_induction monthsUp years months hle with
  | case1 years months hle hlt ih =>
    obtain ⟨hyear, hmonth⟩ := ih (int32_int32 _)
    refine ⟨?_, by omega⟩
    rw [hyear, int32_int32_add]
    congr 1
    omega
  | case2 years months hle hge =>
    rw [show (months - 1) / 12 = 0 by omega, Int.add_zero, h]
    refine ⟨rfl, ?_⟩
    dsimp only
    omega

/-- The month is the one that the number of months leads to. -/
theorem normalizeMonth_spec (years months : Int) (h : int32 years = years) :
    (normalizeMonth years months).year = int32 (years + (months - 1) / 12) ∧
      (normalizeMonth years months).month = (months - 1) % 12 + 1 := by
  obtain ⟨hyears, hsum, hmonths⟩ := monthsDown_spec years months h
  obtain ⟨hyear, hmonth⟩ := monthsUp_spec _ _ (monthsDown_le years months) hyears
  rw [normalizeMonth, hyear, hsum, hmonth]
  exact ⟨rfl, by omega⟩

/-! ## The day -/

namespace MonthOfYear

/-- The year and its difference from 2001 are in the range of an `int32_t`. -/
def InRange (m : MonthOfYear) : Prop := -2 ^ 31 + 2001 ≤ m.year ∧ m.year < 2 ^ 31

/-- The number of the first day of the month. -/
def firstDay (m : MonthOfYear) : Int := absoluteFromYMD (fun _ => 0) (m.year - 2001) m.month 1

variable {m : MonthOfYear}

theorem InRange.days_eq (h : m.InRange) : m.days = daysInMonth m.month (isleap (m.year - 2001)) := by
  rw [days, int32_of_fits (by have := h.1; omega) (by have := h.2; omega)]

theorem absoluteFromYMD_eq (m : MonthOfYear) (day : Int) :
    absoluteFromYMD (fun _ => 0) (m.year - 2001) m.month day = m.firstDay + (day - 1) := by
  rw [firstDay, Calendar.absoluteFromYMD_eq, Calendar.absoluteFromYMD_eq]
  omega

theorem firstDay_eq (m : MonthOfYear) :
    m.firstDay = daysBeforeYear (m.year - 2001) + daysBeforeMonth (fun _ => 0) m.month (isleap (m.year - 2001)) := by
  rw [firstDay, Calendar.absoluteFromYMD_eq]
  omega

theorem le_firstDay (m : MonthOfYear) : daysBeforeYear (m.year - 2001) ≤ m.firstDay := by
  rw [firstDay_eq]
  omega

/-- The month ends before the next year. -/
theorem InRange.firstDay_add_days_le (h : m.InRange) :
    m.firstDay + m.days ≤ daysBeforeYear (m.year - 2001 + 1) := by
  have hend := daysBeforeMonth_add_lt (fun _ => 0) (isleap (m.year - 2001)) m.one_le (le_refl 13)
    (by have := m.le; omega)
  rw [daysBeforeMonth_thirteen] at hend
  rw [firstDay_eq, h.days_eq, daysBeforeYear_succ]
  omega

theorem InRange.firstDay_add_days (h : m.InRange) :
    m.firstDay + m.days = daysBeforeYear (m.year - 2001) +
      daysBeforeMonth (fun _ => 0) (m.month + 1) (isleap (m.year - 2001)) := by
  rw [firstDay_eq, h.days_eq, daysBeforeMonth_succ _ _ _ m.one_le m.le]
  omega

theorem InRange.next (h : m.InRange) (hyear : m.year + 1 < 2 ^ 31 ∨ m.month < 12) :
    m.next.InRange ∧ m.next.firstDay = m.firstDay + m.days := by
  have hfirst : ∀ leap, daysBeforeMonth (fun _ => 0) 1 leap = 0 := by decide
  have hend := h.firstDay_add_days
  obtain ⟨hlow, hhigh⟩ := h
  rw [hend, firstDay_eq, MonthOfYear.next]
  split_ifs with hmonth
  · have hdecember : m.month = 12 := by have := m.le; omega
    have hfits : int32 (m.year + 1) = m.year + 1 := int32_of_fits (by omega) (by omega)
    simp only [InRange, hfits, hdecember]
    rw [show m.year + 1 - 2001 = m.year - 2001 + 1 by omega, daysBeforeYear_succ,
      show (12 : Int) + 1 - 12 = 1 by rfl, hfirst, show (12 : Int) + 1 = 13 by rfl, daysBeforeMonth_thirteen]
    exact ⟨⟨by omega, by omega⟩, by omega⟩
  · exact ⟨⟨hlow, hhigh⟩, rfl⟩

theorem InRange.previous (h : m.InRange) (hyear : -2 ^ 31 + 2001 ≤ m.year - 1 ∨ 1 < m.month) :
    m.previous.InRange ∧ m.previous.firstDay + m.previous.days = m.firstDay := by
  obtain ⟨hrange, hnext, hcarry⟩ : m.previous.InRange ∧ m.previous.next = m ∧
      (m.previous.year + 1 < 2 ^ 31 ∨ m.previous.month < 12) := by
    obtain ⟨year, month, hone, hle⟩ := m
    obtain ⟨hlow, hhigh⟩ := h
    dsimp only at hyear hlow hhigh
    by_cases hmonth : month - 1 < 1
    · obtain rfl : month = 1 := by omega
      have hfits : int32 (year - 1) = year - 1 := int32_of_fits (by omega) (by omega)
      have hyears : int32 year = year := int32_of_fits (by omega) (by omega)
      simp only [MonthOfYear.previous, MonthOfYear.next, InRange, hfits]
      simp [hyears]
      omega
    · have hnext : ¬12 < month := by omega
      simp [MonthOfYear.previous, MonthOfYear.next, InRange, hmonth, hnext]
      omega
  have hday := (hrange.next hcarry).2
  rw [hnext] at hday
  exact ⟨hrange, hday.symm⟩

/-- A month on, if a day after the month is in a year in range. -/
theorem InRange.next_of_le (h : m.InRange) {day year : Int} (hday : m.firstDay + m.days ≤ day)
    (hbefore : day < daysBeforeYear (year + 1)) (hyear : year + 2001 < 2 ^ 31) :
    m.next.InRange ∧ m.next.firstDay = m.firstDay + m.days := by
  apply h.next
  by_cases hmonth : m.month < 12
  · exact .inr hmonth
  · have hdecember : m.month + 1 = 13 := by have := m.le; omega
    have hend := h.firstDay_add_days
    rw [hdecember, daysBeforeMonth_thirteen, ← daysBeforeYear_succ] at hend
    have hlt : m.year - 2001 + 1 < year + 1 := daysBeforeYear_lt_iff.mp (by omega)
    exact .inl (by omega)

/-- A month back, if a day before the month is in a year in range. -/
theorem InRange.previous_of_lt (h : m.InRange) {day year : Int} (hday : day < m.firstDay)
    (hafter : daysBeforeYear year ≤ day) (hyear : -2 ^ 31 ≤ year) :
    m.previous.InRange ∧ m.previous.firstDay + m.previous.days = m.firstDay := by
  apply h.previous
  by_cases hmonth : 1 < m.month
  · exact .inr hmonth
  · have hjanuary : m.month = 1 := by have := m.one_le; omega
    have hfirst : ∀ leap, daysBeforeMonth (fun _ => 0) 1 leap = 0 := by decide
    have hstart := m.firstDay_eq
    rw [hjanuary, hfirst] at hstart
    have hlt : year < m.year - 2001 := daysBeforeYear_lt_iff.mp (by omega)
    exact .inl (by omega)

end MonthOfYear

/-- The first loop ends in the month of the day, or in that of the start. -/
theorem daysOn_spec {m : MonthOfYear} (h : m.InRange) {days year : Int}
    (hbefore : m.firstDay + (days - 1) < daysBeforeYear (year + 1)) (hyear : year + 2001 < 2 ^ 31) :
    let r := daysOn m days
    r.1.InRange ∧ r.1.firstDay + (r.2 - 1) = m.firstDay + (days - 1) ∧ r.2 ≤ r.1.days := by
  fun_induction daysOn m days with
  | case1 m days hlt ih =>
    obtain ⟨hnext, hfirst⟩ := h.next_of_le (show m.firstDay + m.days ≤ m.firstDay + (days - 1) by omega) hbefore hyear
    obtain ⟨hrange, hday, hle⟩ := ih hnext (by omega)
    exact ⟨hrange, by omega, hle⟩
  | case2 m days hle => exact ⟨h, rfl, not_lt.mp hle⟩

/-- The second loop ends in the month of the day. -/
theorem daysBack_spec {m : MonthOfYear} (h : m.InRange) {days year : Int} (hdays : days ≤ m.days)
    (hafter : daysBeforeYear year ≤ m.firstDay + (days - 1)) (hyear : -2 ^ 31 ≤ year) :
    let r := daysBack m days
    r.1.InRange ∧ r.1.firstDay + (r.2 - 1) = m.firstDay + (days - 1) ∧ 1 ≤ r.2 ∧ r.2 ≤ r.1.days := by
  fun_induction daysBack m days with
  | case1 m days hlt ih =>
    obtain ⟨hprevious, hfirst⟩ := h.previous_of_lt (show m.firstDay + (days - 1) < m.firstDay by omega) hafter hyear
    obtain ⟨hrange, hday, hbounds⟩ := ih hprevious (by omega) (by omega)
    exact ⟨hrange, by omega, hbounds⟩
  | case2 m days hge => exact ⟨h, rfl, by omega, hdays⟩

/-! ## The time -/

/-- The month, as a year relative to 2001 and a month, that is some months after
a month. -/
def monthAfter (year month months : Int) : Int × Int :=
  let n := 12 * year + (month - 1) + months
  (n / 12, n % 12 + 1)

section

variable (time : Int) (units : GregorianUnits)

/-- The month of a time moved by the years and the months. -/
def movedMonth : Int × Int :=
  let date := ymdFromAbsolute (time / 86400)
  monthAfter date.1 date.2.1 (12 * units.years + units.months)

/-- The day of the month of a time, or the last day of the moved month. -/
def clampedDay : Int :=
  let moved := movedMonth time units
  min (ymdFromAbsolute (time / 86400)).2.2 (daysInMonth moved.2 (isleap moved.1))

/-- The number of the day that the days are added to. -/
def movedDay : Int :=
  let moved := movedMonth time units
  absoluteFromYMD (fun _ => 0) moved.1 moved.2 (clampedDay time units)

/-- No field overflows, nor the difference of a year from 2001. -/
structure FieldsFit : Prop where
  year : Fits 32 (yearOf time)
  years : Fits 32 (yearOf time + units.years)
  months : Fits 32 ((ymdFromAbsolute (time / 86400)).2.1 + units.months)
  moved_year : Fits 32 ((movedMonth time units).1 + 2001)
  moved_difference : Fits 32 (movedMonth time units).1
  days : Fits 32 (clampedDay time units + units.days)
  result_year : Fits 32 ((ymdFromAbsolute (movedDay time units + units.days)).1 + 2001)
  result_difference : Fits 32 (ymdFromAbsolute (movedDay time units + units.days)).1

end

theorem int32_eq {n : Int} (h : Fits 32 n) : int32 n = n := int32_of_fits h.1 h.2

section

variable {time : Int} {units : GregorianUnits}

/-- The fields of the date of a time whose year fits. -/
theorem gregorianDateFromSeconds_eq (h : Fits 32 (yearOf time)) :
    gregorianDateFromSeconds time = ⟨yearOf time, (ymdFromAbsolute (time / 86400)).2.1,
      (ymdFromAbsolute (time / 86400)).2.2, time / 3600 % 24, time / 60 % 60, time % 60⟩ := by
  have hyear := int32_eq h
  obtain ⟨-, hhigh⟩ := h
  simp only [yearOf] at hyear hhigh
  simp only [gregorianDateFromSeconds, yearOf]
  rw [if_neg (by omega), hyear]

/-- The years and months lead to the moved month. -/
theorem normalizeMonth_movedMonth (h : FieldsFit time units) :
    let m := normalizeMonth (int32 (yearOf time + units.years))
      (int32 ((ymdFromAbsolute (time / 86400)).2.1 + units.months))
    m.InRange ∧ m.year - 2001 = (movedMonth time units).1 ∧ m.month = (movedMonth time units).2 := by
  obtain ⟨hyear, hmonth⟩ := normalizeMonth_spec (int32 (yearOf time + units.years))
    (int32 ((ymdFromAbsolute (time / 86400)).2.1 + units.months)) (int32_int32 _)
  rw [int32_eq h.years, int32_eq h.months] at *
  have hmoved : (yearOf time + units.years + ((ymdFromAbsolute (time / 86400)).2.1 + units.months - 1) / 12) =
      (movedMonth time units).1 + 2001 := by
    simp only [movedMonth, monthAfter, yearOf]
    omega
  rw [hmoved, int32_eq h.moved_year] at hyear
  have hlow := h.moved_difference.1
  have hhigh := h.moved_year.2
  refine ⟨⟨by omega, by omega⟩, by omega, ?_⟩
  rw [hmonth]
  simp only [movedMonth, monthAfter]
  omega

/-- The day that a number belongs to is in the year that the conversion gives. -/
theorem ymdFromAbsolute_year (absolute : Int) : daysBeforeYear (ymdFromAbsolute absolute).1 ≤ absolute ∧
    absolute < daysBeforeYear ((ymdFromAbsolute absolute).1 + 1) := by
  obtain ⟨hdate, hday⟩ := ymdFromAbsolute_spec (fun _ => 0) absolute
  have hlt := hdate.daysBeforeMonth_add_lt fun _ => 0
  have hone := hdate.one_le_day
  rw [absoluteFromYMD_eq] at hday
  rw [daysBeforeYear_succ]
  omega

/-- The loops end on the day that is `units.days` days after the moved one. -/
theorem rollDays_spec (h : FieldsFit time units) {m : MonthOfYear} (hrange : m.InRange)
    (hyear : m.year - 2001 = (movedMonth time units).1) (hmonth : m.month = (movedMonth time units).2) :
    let on := daysOn m (clampedDay time units + units.days)
    let r := daysBack on.1 on.2
    r.1.InRange ∧ absoluteFromYMD (fun _ => 0) (r.1.year - 2001) r.1.month r.2 = movedDay time units + units.days := by
  have hmoved := m.absoluteFromYMD_eq (clampedDay time units)
  have hnumber : movedDay time units = m.firstDay + (clampedDay time units - 1) := by
    rw [← hmoved, hyear, hmonth, movedDay]
  obtain ⟨hle, hlt⟩ := ymdFromAbsolute_year (movedDay time units + units.days)
  have hbefore : m.firstDay + (clampedDay time units + units.days - 1) <
      daysBeforeYear ((ymdFromAbsolute (movedDay time units + units.days)).1 + 1) := by omega
  obtain ⟨hon, hday, hdays⟩ := daysOn_spec hrange hbefore h.result_year.2
  have hafter : daysBeforeYear (ymdFromAbsolute (movedDay time units + units.days)).1 ≤
      (daysOn m (clampedDay time units + units.days)).1.firstDay +
        ((daysOn m (clampedDay time units + units.days)).2 - 1) := by omega
  obtain ⟨hback, hday', -⟩ := daysBack_spec hon hdays hafter h.result_difference.1
  refine ⟨hback, ?_⟩
  rw [MonthOfYear.absoluteFromYMD_eq]
  omega

end

end CFLite.Calendar
