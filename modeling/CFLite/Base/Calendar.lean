import Mathlib.Data.Int.Basic
import CFLite.Base.Number

/-!
# The Gregorian calendar

The conversion of a `CFGregorianDate` to a `CFAbsoluteTime`, with a `NULL` time
zone. Day numbers and years are relative to 1 January 2001. The code computes
with doubles; all its values up to the last sum are integers that a double
holds exactly, so they are integers here, and `doubleOfInt` is the rounding of
that sum.

Months come from the text of a property list and are not checked, so that the
code may index its table of days with a month of 16 or more.
-/

namespace CFLite.Calendar

/-- `CFGregorianDate` -/
structure GregorianDate where
  year : Int
  month : Int
  day : Int
  hour : Int
  minute : Int
  second : Int
  deriving DecidableEq, Repr

def isleap (year : Int) : Bool :=
  let y := ((year + 1).tmod 400).natAbs
  y % 4 = 0 && y ≠ 100 && y ≠ 200 && y ≠ 300

def daysBeforeMonthTable : List Nat := [0, 0, 31, 59, 90, 120, 151, 181, 212, 243, 273, 304, 334, 365, 0, 0]

/-- `__CFDaysBeforeMonth`; `beyond` is what the memory after the table holds. -/
def daysBeforeMonth (beyond : Nat → UInt16) (month : Int) (leap : Bool) : Nat :=
  let i := month.toNat
  (daysBeforeMonthTable.getD i (beyond (i - 16)).toNat + if 2 < month ∧ leap then 1 else 0) % 2 ^ 16

/-- `__CFDaysAfterMonth(0, year, isleap(year))`: the days of a year. -/
def daysOfYear (year : Int) : Nat := if isleap year then 366 else 365

/-- The days of `n` years from `year` on. -/
def daysOfYears (year : Int) : Nat → Nat
  | 0 => 0
  | n + 1 => daysOfYear year + daysOfYears (year + 1) n

/-- `__CFAbsoluteFromYMD`: the number of a day. -/
def absoluteFromYMD (beyond : Nat → UInt16) (year month day : Int) : Int :=
  let b := year.tdiv 400
  let rest := year - b * 400
  let days : Int := if rest < 0 then -daysOfYears rest rest.natAbs else daysOfYears 0 rest.natAbs
  b * 146097 + days + (daysBeforeMonth beyond month (isleap rest) + day - 1)

/-- The bits of the double nearest to a natural number below `2 ^ 1023`, the
even one of two. The significand with its leading bit is `q`, or `2 ^ 53` when
it is rounded up to the next exponent. -/
def doubleOfNat (n : Nat) : Nat :=
  if n = 0 then 0
  else
    let e := n.log2
    let q :=
      if e ≤ 52 then n * 2 ^ (52 - e)
      else
        let unit := 2 ^ (e - 52)
        let q := n / unit
        if 2 * (n % unit) < unit ∨ (2 * (n % unit) = unit ∧ q % 2 = 0) then q else q + 1
    (e + 1022) * 2 ^ 52 + q

def doubleOfInt (n : Int) : UInt64 :=
  UInt64.ofNat ((if n < 0 then 2 ^ 63 else 0) + doubleOfNat n.natAbs)

/-- The seconds of a date since 1 January 2001. The year in a `CFGregorianDate`
is an `int32_t`, and so is its difference from 2001. -/
def secondsFromDate (beyond : Nat → UInt16) (date : GregorianDate) : Int :=
  86400 * absoluteFromYMD beyond (int32 (date.year - 2001)) date.month date.day +
    (3600 * date.hour + 60 * date.minute + date.second)

/-- `CFGregorianDateGetAbsoluteTime(date, NULL)` -/
def gregorianDateGetAbsoluteTime (beyond : Nat → UInt16) (date : GregorianDate) : UInt64 :=
  doubleOfInt (secondsFromDate beyond date)

/-- The bits of `-1.0`. -/
example : gregorianDateGetAbsoluteTime (fun _ => 0) ⟨2000, 12, 31, 23, 59, 59⟩ = 0xbff0000000000000 := by
  decide +kernel

end CFLite.Calendar
