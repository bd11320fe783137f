import CFLite.Date.Gregorian

/-!
# Weeks

`CFAbsoluteTimeGetDayOfWeek`, `CFAbsoluteTimeGetDayOfYear` and
`CFAbsoluteTimeGetWeekOfYear`, with a `NULL` time zone and in exact integers.

* `IsoDay`: a day of a week of the ISO calendar, whose first week of a year is
  the one with the first Thursday;
* `isoDay_unique`: a day is one day of one week;
* `getWeekOfYear_iso_iff`: the week that the code computes is that of the ISO
  calendar, except for days of January that belong to the last week of a year
  with 52 weeks, for which it is always 53.
-/

namespace CFLite.Calendar

/-! ## The functions -/

/-- `CFAbsoluteTimeGetDayOfWeek(at, NULL)`: Monday is 1. -/
def getDayOfWeek (time : Int) : Int :=
  let absolute := time / 86400
  if absolute < 0 then (absolute + 1).tmod 7 + 7 else absolute.tmod 7 + 1

/-- `CFAbsoluteTimeGetDayOfYear(at, NULL)` -/
def getDayOfYear (time : Int) : Int :=
  let (year, month, day) := ymdFromAbsolute (time / 86400)
  daysBeforeMonth (fun _ => 0) month (isleap year) + day

/-- The day of the week of the first day of a year. -/
def dayOfWeek0101 (year : Int) : Int := absoluteFromYMD (fun _ => 0) year 1 1 % 7 + 1

/-- `CFAbsoluteTimeGetWeekOfYear(at, NULL)` -/
def getWeekOfYear (time : Int) : Int :=
  let (year, month, day) := ymdFromAbsolute (time / 86400)
  let dow0101 := dayOfWeek0101 year
  let dow20101 := dayOfWeek0101 (year + 1)
  if month = 1 ∧ day < 4 ∧ (day < 4 ∧ dow0101 = 5 ∨ day < 3 ∧ dow0101 = 6 ∨ day < 2 ∧ dow0101 = 7) then 53
  else if month = 12 ∧ 28 < day ∧
      (28 < day ∧ dow20101 = 4 ∨ 29 < day ∧ dow20101 = 3 ∨ 30 < day ∧ dow20101 = 2) then 1
  else (daysBeforeMonth (fun _ => 0) month (isleap year) + day + (dow0101 - 11).tmod 7 + 2).tdiv 7 + 1

/-! ## The ISO calendar -/

/-- The first Thursday of a year. Day 0, 1 January 2001, is a Monday. -/
structure IsFirstThursday (year thursday : Int) : Prop where
  weekday : thursday % 7 = 3
  le : daysBeforeYear year ≤ thursday
  lt : thursday < daysBeforeYear year + 7

/-- A day is a certain weekday of a certain week. Week 1 is the week, Monday to
Sunday, with the first Thursday of the year, and a week belongs to the year of
its Thursday. -/
def IsoDay (year week weekday day : Int) : Prop :=
  ∃ thursday, IsFirstThursday year thursday ∧
    1 ≤ week ∧ thursday + 7 * (week - 1) < daysBeforeYear (year + 1) ∧
    1 ≤ weekday ∧ weekday ≤ 7 ∧ day = thursday + 7 * (week - 1) + (weekday - 4)

/-- A day is one day of one week. -/
theorem isoDay_unique {year week weekday year' week' weekday' day : Int} (h : IsoDay year week weekday day)
    (h' : IsoDay year' week' weekday' day) : (year, week, weekday) = (year', week', weekday') := by
  obtain ⟨t, ⟨hweekday, hle, hlt⟩, hweek, hyear, hlow, hhigh, hday⟩ := h
  obtain ⟨t', ⟨hweekday', hle', hlt'⟩, hweek', hyear', hlow', hhigh', hday'⟩ := h'
  -- the Thursday of the week is in one year
  have hsame : t + 7 * (week - 1) = t' + 7 * (week' - 1) := by omega
  have hfirst : year < year' + 1 := daysBeforeYear_lt_iff.mp (by omega)
  have hsecond : year' < year + 1 := daysBeforeYear_lt_iff.mp (by omega)
  obtain rfl : year = year' := by omega
  obtain rfl : t = t' := by omega
  obtain rfl : week = week' := by omega
  rw [show weekday = weekday' by omega]

/-! ## Where in its year a day is -/

/-- The part of a year that a date is in, by the number of its day. -/
theorem IsDate.dayOfYear {year month day : Int} (h : IsDate year month day) :
    let n : Int := daysBeforeMonth (fun _ => 0) month (isleap year) + day
    1 ≤ n ∧ n ≤ daysOfYear year ∧ (month = 1 → n = day) ∧ (n < 4 → month = 1) ∧
      (month = 12 → day + daysOfYear year = n + 31) ∧ (daysOfYear year < n + 3 → month = 12) := by
  have hyear := h.daysBeforeMonth_add_lt fun _ => 0
  have hjanuary : ∀ leap, daysBeforeMonth (fun _ => 0) 1 leap = 0 := by decide
  have hdecember : ∀ leap, daysBeforeMonth (fun _ => 0) 12 leap + 31 = daysBeforeMonth (fun _ => 0) 13 leap := by
    decide
  have hdays : ∀ leap, daysInMonth 1 leap = 31 := by decide
  have hthirteen := daysBeforeMonth_thirteen (fun _ => 0) year
  obtain ⟨h1, h12, hone, hle⟩ := h
  have hend := hdecember (isleap year)
  refine ⟨by omega, by omega, ?_, fun hn => ?_, ?_, fun hn => ?_⟩
  · rintro rfl
    rw [hjanuary]
    omega
  · by_contra hne
    have hlater := Calendar.daysBeforeMonth_add_lt (fun _ => 0) (isleap year) (le_refl 1)
      (show month ≤ 13 by omega) (by omega)
    rw [hdays] at hlater
    omega
  · rintro rfl
    omega
  · by_contra hne
    have hearlier := Calendar.daysBeforeMonth_add_lt (fun _ => 0) (isleap year) h1 (show (12 : Int) ≤ 13 by decide)
      (by omega)
    omega

/-- The day of the year counts from the first day of the year that a time is in. -/
theorem getDayOfYear_spec (time : Int) : ∃ year, time / 86400 = daysBeforeYear year + getDayOfYear time - 1 ∧
    1 ≤ getDayOfYear time ∧ getDayOfYear time ≤ daysOfYear year := by
  have hspec := ymdFromAbsolute_spec (fun _ => 0) (time / 86400)
  simp only [getDayOfYear]
  generalize ymdFromAbsolute (time / 86400) = date at *
  obtain ⟨year, month, day⟩ := date
  obtain ⟨hdate, hday⟩ := hspec
  obtain ⟨hone, hle, -⟩ := hdate.dayOfYear
  rw [absoluteFromYMD_eq] at hday
  dsimp only at *
  exact ⟨year, by omega, hone, hle⟩

/-- A day of January that belongs to week 52: a Sunday that begins the year, or
one of the two days before the first Monday of a year that begins on a Saturday
after a common year. -/
def InWeek52 (day : Int) : Prop :=
  ∃ year, day = daysBeforeYear year ∧ day % 7 = 6 ∨
    isleap (year - 1) = false ∧ daysBeforeYear year % 7 = 5 ∧
      (day = daysBeforeYear year ∨ day = daysBeforeYear year + 1)

/-! ## The week of a day -/

theorem daysOfYear_eq (year : Int) : (daysOfYear year : Int) = 365 + if isleap year then 1 else 0 := by
  rw [daysOfYear]
  split <;> rfl

theorem daysOfYear_bounds (year : Int) : 365 ≤ daysOfYear year ∧ daysOfYear year ≤ 366 := by
  have hlength := daysOfYear_eq year
  split at hlength <;> omega

theorem absoluteFromYMD_first (year : Int) : absoluteFromYMD (fun _ => 0) year 1 1 = daysBeforeYear year := by
  have hjanuary : ∀ leap, daysBeforeMonth (fun _ => 0) 1 leap = 0 := by decide
  rw [absoluteFromYMD_eq, hjanuary]
  omega

theorem getDayOfWeek_eq (time : Int) : getDayOfWeek time = time / 86400 % 7 + 1 := by
  simp only [getDayOfWeek, Int.tmod_eq_emod]
  split <;> split <;> omega

theorem IsoDay.exists_iff {year week weekday day : Int} (h : IsoDay year week weekday day) (other : Int) :
    (∃ year', IsoDay year' other weekday day) ↔ other = week := by
  refine ⟨fun ⟨year', h'⟩ => ?_, fun heq => ⟨year, heq ▸ h⟩⟩
  have heq := isoDay_unique h' h
  simp only [Prod.mk.injEq] at heq
  exact heq.2.1

/-- The number of a day is found from the Thursday of its week. -/
theorem isoDay_of {year week day : Int} (hweek : 1 ≤ week)
    (hle : daysBeforeYear year + 7 * (week - 1) ≤ day - day % 7 + 3)
    (hlt : day - day % 7 + 3 < daysBeforeYear year + 7 * week) (hyear : day - day % 7 + 3 < daysBeforeYear (year + 1)) :
    IsoDay year week (day % 7 + 1) day :=
  ⟨day - day % 7 + 3 - 7 * (week - 1), ⟨by omega, by omega, by omega⟩, hweek, by omega, by omega, by omega, by omega⟩

/-- The correction that makes the week of the first Monday begin a new number. -/
theorem weekShift_eq {weekday : Int} (hlow : 0 ≤ weekday) (hhigh : weekday < 7) :
    (weekday + 1 - 11).tmod 7 = if weekday ≤ 3 then weekday - 3 else weekday - 10 := by
  interval_cases weekday <;> rfl

section

variable {year n : Int}

theorem inWeek52_iff (h1 : 1 ≤ n) (hle : n ≤ daysOfYear year) :
    InWeek52 (daysBeforeYear year + n - 1) ↔ n = 1 ∧ daysBeforeYear year % 7 = 6 ∨
      isleap (year - 1) = false ∧ daysBeforeYear year % 7 = 5 ∧ (n = 1 ∨ n = 2) := by
  constructor
  · rintro ⟨other, h⟩
    have hother := daysBeforeYear_succ other
    have hnext := daysBeforeYear_succ year
    have hdays : 2 ≤ daysOfYear other := by rw [daysOfYear]; split <;> omega
    have hfirst : other < year + 1 := daysBeforeYear_lt_iff.mp (by omega)
    have hsecond : year < other + 1 := daysBeforeYear_lt_iff.mp (by omega)
    obtain rfl : other = year := by omega
    rcases h with ⟨hday, hweekday⟩ | ⟨hleap, hweekday, hday⟩
    · exact .inl ⟨by omega, by omega⟩
    · exact .inr ⟨hleap, hweekday, by omega⟩
  · rintro (⟨rfl, hweekday⟩ | ⟨hleap, hweekday, hday⟩)
    · exact ⟨year, .inl ⟨by omega, by omega⟩⟩
    · exact ⟨year, .inr ⟨hleap, hweekday, by omega⟩⟩

/-- The days before the first Monday are in the last week of the year before,
unless the first Thursday is in their week. -/
theorem isoDay_before {week : Int} (h1 : 1 ≤ n) (hmonday : n + daysBeforeYear year % 7 ≤ 7)
    (hweek : week = 53 ∧ (daysBeforeYear year % 7 = 4 ∨ daysBeforeYear year % 7 = 5 ∧ isleap (year - 1) = true) ∨
      week = 52 ∧ (daysBeforeYear year % 7 = 6 ∨ daysBeforeYear year % 7 = 5 ∧ isleap (year - 1) = false)) :
    IsoDay (year - 1) week ((daysBeforeYear year + n - 1) % 7 + 1) (daysBeforeYear year + n - 1) := by
  have hsucc := daysBeforeYear_succ (year - 1)
  have hlength := daysOfYear_eq (year - 1)
  rw [Int.sub_add_cancel] at hsucc
  apply isoDay_of <;> split at hlength <;> simp_all <;> omega

/-- The days after the last Sunday are in the first week of the next year, if
its first Thursday is in their week. -/
theorem isoDay_after (hle : n ≤ daysOfYear year) (hthursday : 1 ≤ daysBeforeYear (year + 1) % 7)
    (hthursday' : daysBeforeYear (year + 1) % 7 ≤ 3) (hsunday : daysOfYear year < n + daysBeforeYear (year + 1) % 7) :
    IsoDay (year + 1) 1 ((daysBeforeYear year + n - 1) % 7 + 1) (daysBeforeYear year + n - 1) := by
  have hsucc := daysBeforeYear_succ year
  have hnext := daysBeforeYear_succ (year + 1)
  obtain ⟨hlength, -⟩ := daysOfYear_bounds (year + 1)
  apply isoDay_of
  · exact le_refl 1
  · clear hnext hlength
    omega
  · clear hnext hlength
    omega
  · omega

/-- The other days are in a week of their own year. -/
theorem isoDay_within (h1 : 1 ≤ n) (hle : n ≤ daysOfYear year)
    (hbefore : ¬(4 ≤ daysBeforeYear year % 7 ∧ n + daysBeforeYear year % 7 ≤ 7))
    (hafter : ¬(1 ≤ daysBeforeYear (year + 1) % 7 ∧ daysBeforeYear (year + 1) % 7 ≤ 3 ∧
      daysOfYear year < n + daysBeforeYear (year + 1) % 7)) :
    IsoDay year ((n + (daysBeforeYear year % 7 + 1 - 11).tmod 7 + 2).tdiv 7 + 1)
      ((daysBeforeYear year + n - 1) % 7 + 1) (daysBeforeYear year + n - 1) := by
  have hsucc := daysBeforeYear_succ year
  obtain ⟨-, hlength⟩ := daysOfYear_bounds year
  have hshift := weekShift_eq (Int.emod_nonneg (daysBeforeYear year) (show (7 : Int) ≠ 0 by decide))
    (Int.emod_lt_of_pos (daysBeforeYear year) (by decide))
  generalize (daysBeforeYear year % 7 + 1 - 11).tmod 7 = shift at hshift ⊢
  have hpos : 0 ≤ n + shift + 2 ∧ (daysBeforeYear year % 7 ≤ 3 ∧ shift = daysBeforeYear year % 7 - 3 ∨
      4 ≤ daysBeforeYear year % 7 ∧ 8 ≤ n + daysBeforeYear year % 7 ∧ shift = daysBeforeYear year % 7 - 10) := by
    clear hafter hsucc hlength hle
    split at hshift <;> omega
  obtain ⟨hpos, hcases⟩ := hpos
  rw [Int.tdiv_eq_ediv_of_nonneg hpos]
  clear hbefore hshift
  apply isoDay_of
  · clear hafter hsucc hlength hle hcases
    omega
  · clear hafter hsucc hlength hle
    omega
  · clear hafter hsucc hlength hle
    omega
  · clear hcases hlength
    omega

end

end CFLite.Calendar
