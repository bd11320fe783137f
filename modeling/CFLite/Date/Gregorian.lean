import Mathlib.Tactic.IntervalCases
import CFLite.Base.Calendar

/-!
# Days, dates and seconds

The conversions of `CFDate.c` from a day number to a date and back, in exact
integer arithmetic. Both remove blocks of 400 years with a division that
truncates, and then step through the years that are left; both agree with the
closed form `daysBeforeYear`.

* `absoluteFromYMD_eq`, `ymdFromAbsolute_eq`: the two conversions in terms of
  `daysBeforeYear`;
* `conversions_inverse_iff`: they are mutually inverse, and a time is the time
  of its date, except for the years whose difference from 2001 does not fit the
  `int32_t` it is computed in.
-/

namespace CFLite.Calendar

/-! ## The conversion of a day number -/

/-- `__CFDaysInMonth` -/
def daysInMonth (month : Int) (leap : Bool) : Nat :=
  [0, 31, 28, 31, 30, 31, 30, 31, 31, 30, 31, 30, 31, 0, 0, 0].getD month.toNat 0 +
    if month = 2 ∧ leap then 1 else 0

/-- `while (absolute < 0)`: years back until the day is not before the year. -/
def yearsBack (y absolute : Int) : Int × Int :=
  if absolute < 0 then yearsBack (y - 1) (absolute + daysOfYear (y - 1)) else (y, absolute)
termination_by (-absolute).toNat
decreasing_by simp only [daysOfYear]; split <;> omega

/-- `while (ydays <= absolute)`: years on until the day is in the year. -/
def yearsOn (y absolute : Int) : Int × Int :=
  if daysOfYear y ≤ absolute then yearsOn (y + 1) (absolute - daysOfYear y) else (y, absolute)
termination_by absolute.toNat
decreasing_by simp only [daysOfYear] at *; split <;> grind

/-- `while (__CFDaysBeforeMonth(m + 1, y, leap) <= absolute) m++;`, for at most
`n` months. -/
def monthsOn (absolute : Int) (leap : Bool) : (n : Nat) → (m : Int) → Int
  | 0, m => m
  | n + 1, m => if daysBeforeMonth (fun _ => 0) (m + 1) leap ≤ absolute then monthsOn absolute leap n (m + 1) else m

/-- `__CFYMDFromAbsolute`: the year, relative to 2001, the month and the day. -/
def ymdFromAbsolute (absolute : Int) : Int × Int × Int :=
  let b := absolute.tdiv 146097
  let (y, absolute) := yearsBack (b * 400) (absolute - b * 146097)
  let (y, absolute) := yearsOn y absolute
  let leap := isleap y
  let m := monthsOn absolute leap 12 (absolute.tdiv 33 + 1)
  (y, m, absolute - daysBeforeMonth (fun _ => 0) m leap + 1)

/-- `CFAbsoluteTimeGetGregorianDate(at, NULL)` for a whole number of seconds. A
year above the range of `gdate.year` is made the last one. -/
def gregorianDateFromSeconds (time : Int) : GregorianDate :=
  let (year, month, day) := ymdFromAbsolute (time / 86400)
  let year := if 2 ^ 31 - 1 - 2001 < year then 2 ^ 31 - 1 - 2001 else year
  ⟨int32 (year + 2001), month, day, time / 3600 % 24, time / 60 % 60, time % 60⟩

/-! ## Leap years and years -/

theorem isleap_iff (year : Int) :
    isleap year = true ↔ (year + 1) % 4 = 0 ∧ ((year + 1) % 100 ≠ 0 ∨ (year + 1) % 400 = 0) := by
  have hmod : ((year + 1).tmod 400).natAbs = (year + 1).natAbs % 400 := by
    rw [Int.natAbs_tmod]; rfl
  have habs : ∀ k : Nat, (year + 1) % k = 0 ↔ (year + 1).natAbs % k = 0 := fun k => by
    rw [← Int.dvd_iff_emod_eq_zero, ← Nat.dvd_iff_mod_eq_zero, Int.natCast_dvd]
  have hfour := habs 4
  have hcentury := habs 100
  have hquadcentury := habs 400
  -- the remainder by 400 tells the other two
  rw [← Nat.mod_mod_of_dvd _ (by decide : 4 ∣ 400)] at hfour
  rw [← Nat.mod_mod_of_dvd _ (by decide : 100 ∣ 400)] at hcentury
  have hlt := Nat.mod_lt (year + 1).natAbs (by decide : 400 > 0)
  simp only [isleap, hmod, Bool.and_eq_true, decide_eq_true_eq, ne_eq]
  rw [show (4 : Int) = (4 : Nat) from rfl, show (100 : Int) = (100 : Nat) from rfl, show (400 : Int) = (400 : Nat) from rfl,
    hfour, hcentury, hquadcentury]
  clear habs hfour hcentury hquadcentury hmod
  generalize (year + 1).natAbs % 400 = y at hlt ⊢
  have hhundreds : y % 100 = 0 ↔ y = 0 ∨ y = 100 ∨ y = 200 ∨ y = 300 := by omega
  rw [hhundreds]
  omega

/-- The Gregorian rule: every fourth year, but of the centuries only every
fourth. -/
def IsGregorianLeapYear (year : Int) : Prop := year % 4 = 0 ∧ (year % 100 = 0 → year % 400 = 0)

theorem isleap_iff_gregorian (year : Int) : isleap year = true ↔ IsGregorianLeapYear (year + 2001) := by
  rw [isleap_iff, IsGregorianLeapYear]
  omega

/-- The number of the first day of a year. -/
def daysBeforeYear (year : Int) : Int := 365 * year + year / 4 - year / 100 + year / 400

theorem daysBeforeYear_succ (year : Int) : daysBeforeYear (year + 1) = daysBeforeYear year + daysOfYear year := by
  have hleap := isleap_iff year
  have hfour : (year + 1) / 4 = year / 4 + if (year + 1) % 4 = 0 then 1 else 0 := by split <;> omega
  have hcentury : (year + 1) / 100 = year / 100 + if (year + 1) % 100 = 0 then 1 else 0 := by split <;> omega
  have hquadcentury : (year + 1) / 400 = year / 400 + if (year + 1) % 400 = 0 then 1 else 0 := by split <;> omega
  have hmultiple : (year + 1) % 400 = 0 → (year + 1) % 100 = 0 := by omega
  have hmultiple' : (year + 1) % 100 = 0 → (year + 1) % 4 = 0 := by omega
  simp only [daysBeforeYear, daysOfYear, hleap, hfour, hcentury, hquadcentury]
  clear hleap hfour hcentury hquadcentury
  generalize year / 4 = fours
  generalize year / 100 = centuries
  generalize year / 400 = quadcenturies
  by_cases h4 : (year + 1) % 4 = 0
  · by_cases h100 : (year + 1) % 100 = 0
    · by_cases h400 : (year + 1) % 400 = 0
      · rw [if_pos h4, if_pos h100, if_pos h400, if_pos ⟨h4, .inr h400⟩]
        clear hmultiple hmultiple' h4 h100 h400
        omega
      · rw [if_pos h4, if_pos h100, if_neg h400, if_neg fun h => h.2.elim (absurd h100) h400]
        clear hmultiple hmultiple' h4 h100 h400
        omega
    · rw [if_pos h4, if_neg h100, if_neg (mt hmultiple h100), if_pos ⟨h4, .inl h100⟩]
      clear hmultiple hmultiple' h4 h100
      omega
  · rw [if_neg h4, if_neg (mt hmultiple' h4), if_neg (mt hmultiple (mt hmultiple' h4)), if_neg fun h => h4 h.1]
    clear hmultiple hmultiple' h4
    omega

theorem daysOfYear_pos (year : Int) : 0 < daysOfYear year := by
  simp only [daysOfYear]
  split <;> omega

theorem daysBeforeYear_lt {x y : Int} (h : x < y) : daysBeforeYear x < daysBeforeYear y := by
  simp only [daysBeforeYear]
  omega

theorem daysBeforeYear_lt_iff {x y : Int} : daysBeforeYear x < daysBeforeYear y ↔ x < y := by
  refine ⟨fun h => ?_, daysBeforeYear_lt⟩
  rcases lt_trichotomy x y with hlt | rfl | hlt
  · exact hlt
  · omega
  · have := daysBeforeYear_lt hlt
    omega

theorem daysBeforeYear_add (year b : Int) : daysBeforeYear (year + b * 400) = daysBeforeYear year + b * 146097 := by
  simp only [daysBeforeYear]
  omega

theorem isleap_add (year b : Int) : isleap (year + b * 400) = isleap year := by
  rw [Bool.eq_iff_iff, isleap_iff, isleap_iff]
  omega

theorem daysOfYears_eq (year : Int) (n : Nat) :
    (daysOfYears year n : Int) = daysBeforeYear (year + n) - daysBeforeYear year := by
  induction n generalizing year with
  | zero => simp [daysOfYears]
  | succ n ih =>
    rw [daysOfYears, Int.natCast_add, ih, daysBeforeYear_succ]
    rw [show year + 1 + (n : Int) = year + ((n + 1 : Nat) : Int) by omega]
    omega

/-- A date's day number is the one of its year's first day and the days before
it in the year. -/
theorem absoluteFromYMD_eq (beyond : Nat → UInt16) (year month day : Int) :
    absoluteFromYMD beyond year month day =
      daysBeforeYear year + (daysBeforeMonth beyond month (isleap year) + day - 1) := by
  have hrest : year = year - year.tdiv 400 * 400 + year.tdiv 400 * 400 := by omega
  have hdays := daysBeforeYear_add (year - year.tdiv 400 * 400) (year.tdiv 400)
  have hleap := isleap_add (year - year.tdiv 400 * 400) (year.tdiv 400)
  rw [← hrest] at hdays hleap
  rw [hdays, hleap]
  simp only [absoluteFromYMD, daysOfYears_eq]
  have hzero : daysBeforeYear 0 = 0 := by decide
  split <;> rename_i hneg
  · rw [show year - year.tdiv 400 * 400 + ((year - year.tdiv 400 * 400).natAbs : Int) = 0 by omega, hzero]
    omega
  · rw [show (0 : Int) + ((year - year.tdiv 400 * 400).natAbs : Int) = year - year.tdiv 400 * 400 by omega, hzero]
    omega

/-! ## Stepping through years and months -/

theorem yearsBack_spec (y absolute : Int) :
    let r := yearsBack y absolute
    0 ≤ r.2 ∧ daysBeforeYear r.1 + r.2 = daysBeforeYear y + absolute := by
  fun_induction yearsBack y absolute with
  | case1 y absolute h ih =>
    have := daysBeforeYear_succ (y - 1)
    simp only [Int.sub_add_cancel] at this
    exact ⟨ih.1, by rw [ih.2]; omega⟩
  | case2 y absolute h => exact ⟨by simpa using h, rfl⟩

theorem yearsOn_spec (y absolute : Int) (h : 0 ≤ absolute) :
    let r := yearsOn y absolute
    0 ≤ r.2 ∧ r.2 < daysOfYear r.1 ∧ daysBeforeYear r.1 + r.2 = daysBeforeYear y + absolute := by
  fun_induction yearsOn y absolute with
  | case1 y absolute hle ih =>
    obtain ⟨h0, hlt, hsum⟩ := ih (by omega)
    exact ⟨h0, hlt, by rw [hsum, daysBeforeYear_succ]; omega⟩
  | case2 y absolute hlt => exact ⟨h, by dsimp; omega, rfl⟩

/-- The months of a table are those of the calendar. -/
theorem daysBeforeMonth_succ (beyond : Nat → UInt16) (month : Int) (leap : Bool) (h1 : 1 ≤ month) (h12 : month ≤ 12) :
    daysBeforeMonth beyond (month + 1) leap = daysBeforeMonth beyond month leap + daysInMonth month leap := by
  cases leap <;> interval_cases month <;> rfl

theorem daysBeforeMonth_bounds (beyond : Nat → UInt16) (month : Int) (leap : Bool) (h1 : 1 ≤ month)
    (h12 : month ≤ 12) : (daysBeforeMonth beyond month leap : Int) ≤ 33 * (month - 1) := by
  cases leap <;> interval_cases month <;> simp [daysBeforeMonth, daysBeforeMonthTable]

theorem daysBeforeMonth_thirteen (beyond : Nat → UInt16) (year : Int) :
    daysBeforeMonth beyond 13 (isleap year) = daysOfYear year := by
  simp only [daysOfYear]
  cases isleap year <;> rfl

theorem daysBeforeMonth_congr (beyond : Nat → UInt16) {month : Int} (leap : Bool) (h1 : 1 ≤ month)
    (h13 : month ≤ 13) : daysBeforeMonth beyond month leap = daysBeforeMonth (fun _ => 0) month leap := by
  cases leap <;> interval_cases month <;> rfl

theorem monthsOn_spec (absolute : Int) (leap : Bool) (n : Nat) (m : Int) (h1 : 1 ≤ m) (h12 : m ≤ 12)
    (hn : 13 ≤ m + n) (hle : daysBeforeMonth (fun _ => 0) m leap ≤ absolute)
    (hlt : absolute < daysBeforeMonth (fun _ => 0) 13 leap) :
    let r := monthsOn absolute leap n m
    1 ≤ r ∧ r ≤ 12 ∧ daysBeforeMonth (fun _ => 0) r leap ≤ absolute ∧
      absolute < daysBeforeMonth (fun _ => 0) (r + 1) leap := by
  induction n generalizing m with
  | zero => omega
  | succ n ih =>
    simp only [monthsOn]
    split
    · rename_i hnext
      have hm : m ≠ 12 := by
        rintro rfl
        rw [show (12 : Int) + 1 = 13 by rfl] at hnext
        omega
      exact ih (m + 1) (by omega) (by omega) (by omega) hnext
    · rename_i hnext
      exact ⟨h1, h12, hle, by omega⟩

/-! ## The two conversions -/

/-- A date of the calendar. -/
structure IsDate (year month day : Int) : Prop where
  one_le_month : 1 ≤ month
  month_le : month ≤ 12
  one_le_day : 1 ≤ day
  day_le : day ≤ daysInMonth month (isleap year)

theorem daysBeforeMonth_add_lt (beyond : Nat → UInt16) (leap : Bool) {m m' : Int} (h1 : 1 ≤ m) (h13 : m' ≤ 13)
    (h : m < m') : daysBeforeMonth beyond m leap + daysInMonth m leap ≤ daysBeforeMonth beyond m' leap := by
  obtain ⟨n, rfl⟩ : ∃ n : Nat, m' = m + 1 + n := ⟨(m' - m - 1).toNat, by omega⟩
  induction n with
  | zero =>
    rw [Int.natCast_zero, Int.add_zero, daysBeforeMonth_succ beyond m leap h1 (by omega)]
  | succ n ih =>
    have hsucc := daysBeforeMonth_succ beyond (m + 1 + n) leap (by omega) (by omega)
    have := ih (by omega) (by omega)
    rw [show m + 1 + ((n + 1 : Nat) : Int) = m + 1 + n + 1 by omega, hsucc]
    omega

theorem IsDate.daysBeforeMonth_add_lt (beyond : Nat → UInt16) {year month day : Int} (h : IsDate year month day) :
    (daysBeforeMonth beyond month (isleap year) : Int) + (day - 1) < daysOfYear year := by
  have hle := Calendar.daysBeforeMonth_add_lt beyond (isleap year) h.one_le_month (le_refl 13)
    (by have := h.month_le; omega)
  rw [daysBeforeMonth_thirteen] at hle
  have := h.day_le
  omega

theorem ymdFromAbsolute_spec (beyond : Nat → UInt16) (absolute : Int) :
    let r := ymdFromAbsolute absolute
    IsDate r.1 r.2.1 r.2.2 ∧ absoluteFromYMD beyond r.1 r.2.1 r.2.2 = absolute := by
  simp only [ymdFromAbsolute]
  have hback := yearsBack_spec (absolute.tdiv 146097 * 400) (absolute - absolute.tdiv 146097 * 146097)
  generalize yearsBack (absolute.tdiv 146097 * 400) (absolute - absolute.tdiv 146097 * 146097) = back at hback ⊢
  obtain ⟨hback, hsum₁⟩ := hback
  have hon := yearsOn_spec back.1 back.2 hback
  generalize yearsOn back.1 back.2 = r at hon ⊢
  obtain ⟨y, rest⟩ := r
  obtain ⟨hon, hlt, hsum₂⟩ := hon
  dsimp only at hon hlt hsum₂ ⊢
  have hdays : daysBeforeMonth (fun _ => 0) 13 (isleap y) = daysOfYear y := daysBeforeMonth_thirteen _ y
  have hyear : daysOfYear y ≤ 366 := by simp only [daysOfYear]; split <;> omega
  rw [Int.tdiv_eq_ediv_of_nonneg hon]
  have hstart := daysBeforeMonth_bounds (fun _ => 0) (rest / 33 + 1) (isleap y) (by omega) (by omega)
  have hmonths := monthsOn_spec rest (isleap y) 12 (rest / 33 + 1) (by omega) (by omega) (by omega) (by omega)
    (by omega)
  generalize monthsOn rest (isleap y) 12 (rest / 33 + 1) = m at hmonths ⊢
  obtain ⟨h1, h12, hle, hnext⟩ := hmonths
  have hsucc := daysBeforeMonth_succ (fun _ => 0) m (isleap y) h1 h12
  refine ⟨⟨h1, h12, by omega, by omega⟩, ?_⟩
  rw [absoluteFromYMD_eq, daysBeforeMonth_congr beyond _ h1 (by omega)]
  have hblocks := daysBeforeYear_add 0 (absolute.tdiv 146097)
  simp only [Int.zero_add] at hblocks
  have hzero : daysBeforeYear 0 = 0 := by decide
  omega

/-- A day number belongs to one date. -/
theorem IsDate.eq_of_absoluteFromYMD {beyond : Nat → UInt16} {y m d y' m' d' : Int} (h : IsDate y m d)
    (h' : IsDate y' m' d') (heq : absoluteFromYMD beyond y m d = absoluteFromYMD beyond y' m' d') :
    (y, m, d) = (y', m', d') := by
  rw [absoluteFromYMD_eq, absoluteFromYMD_eq] at heq
  have hlt := h.daysBeforeMonth_add_lt beyond
  have hlt' := h'.daysBeforeMonth_add_lt beyond
  have hd := h.one_le_day
  have hd' := h'.one_le_day
  have hyear : y = y' := by
    rcases lt_trichotomy y y' with hy | hy | hy
    · have hsucc := daysBeforeYear_succ y
      have hmono : daysBeforeYear (y + 1) ≤ daysBeforeYear y' := by
        rcases eq_or_lt_of_le (show y + 1 ≤ y' by omega) with hy | hy
        · rw [hy]
        · exact le_of_lt (daysBeforeYear_lt hy)
      omega
    · exact hy
    · have hsucc := daysBeforeYear_succ y'
      have hmono : daysBeforeYear (y' + 1) ≤ daysBeforeYear y := by
        rcases eq_or_lt_of_le (show y' + 1 ≤ y by omega) with hy | hy
        · rw [hy]
        · exact le_of_lt (daysBeforeYear_lt hy)
      omega
  subst hyear
  have hday := h.day_le
  have hday' := h'.day_le
  have hmonth : m = m' := by
    rcases lt_trichotomy m m' with hm | hm | hm
    · have := Calendar.daysBeforeMonth_add_lt beyond (isleap y) h.one_le_month (by have := h'.month_le; omega) hm
      omega
    · exact hm
    · have := Calendar.daysBeforeMonth_add_lt beyond (isleap y) h'.one_le_month (by have := h.month_le; omega) hm
      omega
  subst hmonth
  rw [show d = d' by omega]

theorem ymdFromAbsolute_absoluteFromYMD (beyond : Nat → UInt16) {y m d : Int} (h : IsDate y m d) :
    ymdFromAbsolute (absoluteFromYMD beyond y m d) = (y, m, d) := by
  obtain ⟨hdate, heq⟩ := ymdFromAbsolute_spec beyond (absoluteFromYMD beyond y m d)
  exact hdate.eq_of_absoluteFromYMD h heq

/-! ## Times -/

/-- The year of a time. -/
def yearOf (time : Int) : Int := (ymdFromAbsolute (time / 86400)).1 + 2001

theorem int32_of_lt {n : Int} (hlow : -2 ^ 31 - 2001 ≤ n) (hhigh : n < -2 ^ 31) : int32 n = n + 2 ^ 32 := by
  rw [int32, ← Int.add_bmod_right]
  exact Int.bmod_eq_of_le_mul_two (by omega) (by omega)

/-- The time of the date of a time, with the year that the `int32_t` holds. -/
theorem secondsFromDate_gregorianDateFromSeconds (beyond : Nat → UInt16) {time : Int} (hlow : -2 ^ 31 ≤ yearOf time)
    (hhigh : yearOf time < 2 ^ 31) :
    secondsFromDate beyond (gregorianDateFromSeconds time) = time + 86400 *
      (daysBeforeYear (int32 (yearOf time - 2001)) +
          daysBeforeMonth beyond (ymdFromAbsolute (time / 86400)).2.1 (isleap (int32 (yearOf time - 2001))) -
        (daysBeforeYear (yearOf time - 2001) +
          daysBeforeMonth beyond (ymdFromAbsolute (time / 86400)).2.1 (isleap (yearOf time - 2001)))) := by
  have hspec := ymdFromAbsolute_spec beyond (time / 86400)
  simp only [yearOf, secondsFromDate, gregorianDateFromSeconds] at hlow hhigh ⊢
  generalize ymdFromAbsolute (time / 86400) = date at *
  obtain ⟨year, month, day⟩ := date
  obtain ⟨-, heq⟩ := hspec
  dsimp only at *
  rw [absoluteFromYMD_eq] at heq ⊢
  rw [if_neg (by omega), int32_of_fits hlow hhigh, show year + 2001 - 2001 = year by omega]
  omega

theorem secondsFromDate_gregorianDateFromSeconds_eq_iff (beyond : Nat → UInt16) {time : Int}
    (hlow : -2 ^ 31 ≤ yearOf time) (hhigh : yearOf time < 2 ^ 31) :
    secondsFromDate beyond (gregorianDateFromSeconds time) = time ↔ -2 ^ 31 + 2001 ≤ yearOf time := by
  rw [secondsFromDate_gregorianDateFromSeconds beyond hlow hhigh]
  constructor
  · intro h
    by_contra hyear
    rw [int32_of_lt (by omega) (by omega)] at h
    -- the wrapped year is later by `2 ^ 32`, which no month makes up for
    have hdays := daysBeforeYear_add (yearOf time - 2001) 10737418
    have hlt := daysBeforeYear_lt (show yearOf time - 2001 + 10737418 * 400 < yearOf time - 2001 + 2 ^ 32 by omega)
    obtain ⟨hdate, -⟩ := ymdFromAbsolute_spec beyond (time / 86400)
    have hbound := daysBeforeMonth_bounds beyond _ (isleap (yearOf time - 2001)) hdate.one_le_month hdate.month_le
    have := hdate.month_le
    omega
  · intro hyear
    rw [int32_of_fits (by omega) (by omega)]
    omega

/-- Day numbers and dates correspond, by the Gregorian leap rule, and a time
whose year fits 32 bits is the time of its date exactly when the difference of
the year from 2001 fits as well. -/
theorem conversions_inverse_iff (beyond : Nat → UInt16) :
    (∀ day, let (year, month, dayOfMonth) := ymdFromAbsolute day
      (1 ≤ month ∧ month ≤ 12 ∧ 1 ≤ dayOfMonth ∧ dayOfMonth ≤ daysInMonth month (isleap year)) ∧
        absoluteFromYMD beyond year month dayOfMonth = day) ∧
    (∀ year month day : Int, 1 ≤ month → month ≤ 12 → 1 ≤ day → day ≤ daysInMonth month (isleap year) →
      ymdFromAbsolute (absoluteFromYMD beyond year month day) = (year, month, day)) ∧
    (∀ year, isleap year = true ↔ IsGregorianLeapYear (year + 2001)) ∧
    ∀ time, -2 ^ 31 ≤ yearOf time → yearOf time < 2 ^ 31 →
      (secondsFromDate beyond (gregorianDateFromSeconds time) = time ↔ -2 ^ 31 + 2001 ≤ yearOf time) := by
  refine ⟨fun day => ?_, fun year month day h1 h12 hd hle => ?_, isleap_iff_gregorian, fun time hlow hhigh => ?_⟩
  · obtain ⟨h, heq⟩ := ymdFromAbsolute_spec beyond day
    exact ⟨⟨h.one_le_month, h.month_le, h.one_le_day, h.day_le⟩, heq⟩
  · exact ymdFromAbsolute_absoluteFromYMD beyond ⟨h1, h12, hd, hle⟩
  · exact secondsFromDate_gregorianDateFromSeconds_eq_iff beyond hlow hhigh

/-- The first day of a year that ends a block of 400 years. -/
theorem ymdFromAbsolute_block (b : Int) : ymdFromAbsolute (b * 146097) = (b * 400, 1, 1) := by
  have h : IsDate (b * 400) 1 1 := ⟨le_refl _, by omega, le_refl _, by cases isleap (b * 400) <;> decide⟩
  have hday : absoluteFromYMD (fun _ => 0) (b * 400) 1 1 = b * 146097 := by
    have hblocks := daysBeforeYear_add 0 b
    rw [Int.zero_add, show daysBeforeYear 0 = 0 by decide, Int.zero_add] at hblocks
    have hmonth : ∀ leap, daysBeforeMonth (fun _ => 0) 1 leap = 0 := by decide
    rw [absoluteFromYMD_eq, hblocks, hmonth]
    omega
  rw [← hday, ymdFromAbsolute_absoluteFromYMD _ h]

/-- The start of 1 January 2401. -/
theorem conversions_inverse_iff_2401 : yearOf (86400 * 146097) = 2401 ∧
    secondsFromDate (fun _ => 0) (gregorianDateFromSeconds (86400 * 146097)) = 86400 * 146097 := by
  have hyear : yearOf (86400 * 146097) = 2401 := by
    have := ymdFromAbsolute_block 1
    rw [yearOf, show (86400 * 146097 : Int) / 86400 = 1 * 146097 by decide, this]
    decide
  refine ⟨hyear, ((conversions_inverse_iff fun _ => 0).2.2.2 _ ?_ ?_).mpr ?_⟩ <;> rw [hyear] <;> decide

/-- The start of the year -2147481999, which fits 32 bits. -/
theorem early_year_wraps : ∃ time, (-2 ^ 31 ≤ yearOf time ∧ yearOf time < 2 ^ 31) ∧
    secondsFromDate (fun _ => 0) (gregorianDateFromSeconds time) ≠ time := by
  have hyear : yearOf (86400 * (-5368710 * 146097)) = -2147481999 := by
    rw [yearOf, show (86400 * (-5368710 * 146097) : Int) / 86400 = -5368710 * 146097 by decide,
      ymdFromAbsolute_block]
    decide
  refine ⟨86400 * (-5368710 * 146097), by rw [hyear]; decide, fun h => ?_⟩
  rw [secondsFromDate_gregorianDateFromSeconds_eq_iff _ (by rw [hyear]; decide) (by rw [hyear]; decide), hyear] at h
  exact absurd h (by decide)

end CFLite.Calendar
