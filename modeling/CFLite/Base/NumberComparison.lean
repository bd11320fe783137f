import Mathlib.Data.Prod.Lex
import CFLite.Base.Int128
import CFLite.Base.IntegerConversion
import CFLite.Date.DoubleTimes
import CFLite.Framework.Significands

/-!
# The order of numbers

`CFNumberCompare` for integers and doubles. An integer and a double are compared
as 128-bit integers first, and as doubles if these are the same. The double is
split into words with operations on `long double`, whose number of digits
depends on the platform.

* `value_cvtFloat64ToSInt128`: which integer a double is read as;
* `numberCompare_iff`: the order is that of the exact values, unless a negative
  double is read as an integer on the other side of the one it is compared with,
  or both numbers are `-2 ^ 127`.
-/

namespace CFLite.NumberComparison

open Framework.Rounding CFSInt128Struct
open Calendar (doubleValue double)
open IntegerNumber (getSInt128)

/-! ## Doubles and integers -/

/-- What the platform's arithmetic leaves open: the digits of a `long double`,
the word that a cast of a number that is too large gives, and what a NaN is
split into. -/
structure Platform where
  digits : Nat
  le_digits : 53 ≤ digits
  outOfRange : BitVec 64
  splitNaN : CFSInt128Struct

/-- The result of an operation with `long double`s. -/
def Platform.longDouble (P : Platform) (q : ℚ) : ℚ := nearest P.digits q

def isnan (bits : UInt64) : Bool := 2047 * 2 ^ 52 < bits.toNat % 2 ^ 63

/-- `copysign(1.0, d) < 0` -/
def signbit (bits : UInt64) : Bool := 2 ^ 63 ≤ bits.toNat

def cvtFloat64ToSInt128 (P : Platform) (d : ℚ) : CFSInt128Struct :=
  if d < -2 ^ 127 then ⟨0x8000000000000000, 0⟩
  else if 2 ^ 127 ≤ d then ⟨0x7fffffffffffffff, 0xffffffffffffffff⟩
  else
    let t := ⌊double (P.longDouble (d / 2 ^ 64))⌋
    let rest := P.longDouble (d - P.longDouble (t * 2 ^ 64))
    ⟨BitVec.ofInt 64 t, if rest < 2 ^ 64 then BitVec.ofInt 64 ⌊rest⌋ else P.outOfRange⟩

def cvtSInt128ToFloat64 (P : Platform) (input : CFSInt128Struct) : ℚ :=
  let wasNeg := input.isNeg128
  let tmp := if wasNeg then input.neg128 else input
  let d := double (P.longDouble (P.longDouble (double tmp.high.toInt * 2 ^ 64) + double tmp.low.toNat))
  if wasNeg then -d else d

/-- `__CFNumberGetValue(number, kCFNumberSInt128Type, …)` of an integer. -/
def integerToSInt128 (number : IntegerNumber.CFNumber) : CFSInt128Struct :=
  ⟨(getSInt128 number).2.extractLsb' 64 64, (getSInt128 number).2.extractLsb' 0 64⟩

/-- `__CFNumberGetValue(number, kCFNumberFloat64Type, …)` of an integer. -/
def integerToFloat64 (P : Platform) (number : IntegerNumber.CFNumber) : ℚ :=
  if number.type.storageBit then cvtSInt128ToFloat64 P ⟨number.pad, number.low⟩ else double number.pad.toInt

/-! ## Comparison -/

/-- An integer number, or a number that holds the bits of a double. -/
inductive Number where
  | integer (number : IntegerNumber.CFNumber)
  | float (bits : UInt64)

/-- Both numbers are floats. -/
def compareFloats (bits1 bits2 : UInt64) : CFComparisonResult :=
  let s1 := signbit bits1
  let s2 := signbit bits2
  if isnan bits1 && isnan bits2 then .eq
  else if isnan bits1 then if s2 then .gt else .lt
  else if isnan bits2 then if s1 then .lt else .gt
  else if s1 && !s2 then .lt
  else if s2 && !s1 then .gt
  else if doubleValue bits1 < doubleValue bits2 then .lt
  else if doubleValue bits2 < doubleValue bits1 then .gt
  else .eq

/-- The first number is a float and the second one an integer. -/
def compareMixed (P : Platform) (bits : UInt64) (number : IntegerNumber.CFNumber) : CFComparisonResult :=
  let d1 := doubleValue bits
  if !isnan bits && decide (d1 < -2 ^ 127) then .lt
  else if !isnan bits && decide (2 ^ 127 ≤ d1) then .gt
  else
    let i1 := if isnan bits then P.splitNaN else cvtFloat64ToSInt128 P d1
    let i2 := integerToSInt128 number
    let res := cmp128 i1 i2
    if res ≠ .eq then res
    else if isnan bits then if isNeg128 i2 then .gt else .lt
    else
      let s1 := signbit bits
      let s2 := isNeg128 i2
      if s1 && !s2 then .lt
      else if s2 && !s1 then .gt
      else
        let d2 := integerToFloat64 P number
        if d1 < d2 then .lt else if d2 < d1 then .gt else .eq

/-- `CFNumberCompare`; the results of an integer and a float are those of the
swapped numbers, the other way around. -/
def numberCompare (P : Platform) : Number → Number → CFComparisonResult
  | .integer number1, .integer number2 => cmp128 (integerToSInt128 number1) (integerToSInt128 number2)
  | .float bits1, .float bits2 => compareFloats bits1 bits2
  | .float bits1, .integer number2 => compareMixed P bits1 number2
  | .integer number1, .float bits2 => (compareMixed P bits2 number1).swap

/-! ## The exact order -/

/-- A double that is neither infinite nor a NaN. -/
def IsFinite (bits : UInt64) : Prop := bits.toNat % 2 ^ 63 < 2047 * 2 ^ 52

namespace Number

def Finite : Number → Prop
  | integer _ => True
  | float bits => IsFinite bits

def value : Number → ℚ
  | integer number => number.value
  | float bits => doubleValue bits

def isNegative : Number → Bool
  | integer number => number.value < 0
  | float bits => signbit bits

/-- What numbers are ordered by: the value, and of the zeros `-0.0` first. -/
def key (number : Number) : ℚ ×ₗ Bool := toLex (number.value, !number.isNegative)

end Number

def exactCompare (a b : Number) : CFComparisonResult := compare a.key b.key

theorem exactCompare_totalPreorder : TotalPreorder exactCompare where
  swap a b := Std.OrientedOrd.eq_swap
  trans a b c hab hbc := by
    rw [exactCompare, ne_eq, compare_gt_iff_gt, not_lt] at *
    exact hab.trans hbc

/-! ## The integer that a double is read as -/

section Reading

variable (P : Platform) {d : ℚ}

theorem double_eq (hd : HasDigits 53 d) : double d = d := hd.nearest_eq (by decide)

theorem Platform.longDouble_eq (hd : HasDigits 53 d) : P.longDouble d = d :=
  (hd.mono P.le_digits).nearest_eq (by have := P.le_digits; omega)

theorem hasDigits_doubleValue (bits : UInt64) : HasDigits 53 (doubleValue bits) := by
  have hmagnitude : ∀ n, HasDigits 53 (Calendar.magnitudeValue n) := by
    intro n
    rw [Calendar.magnitudeValue]
    split_ifs with h
    · exact ⟨n, -1074, by rw [Int.cast_natCast], by rw [Nat.abs_cast]; omega⟩
    · exact ⟨(2 ^ 52 + n % 2 ^ 52 : ℕ), _, by rw [Int.cast_natCast], by rw [Nat.abs_cast]; omega⟩
  rw [doubleValue]
  split_ifs
  · exact (hmagnitude _).neg
  · exact hmagnitude _

theorem hasDigits_block (hd : HasDigits 53 d) : HasDigits 53 (d / 2 ^ 64) := by
  have hscaled := hd.mul_zpow (-64)
  rwa [zpow_neg, ← div_eq_mul_inv] at hscaled

theorem value_words {t : ℤ} {low : BitVec 64} (hlow : -2 ^ 63 ≤ t) (hhigh : t < 2 ^ 63) :
    value ⟨BitVec.ofInt 64 t, low⟩ = 2 ^ 64 * t + low.toNat := by
  rw [value_eq, BitVec.toInt_ofInt_eq_self (by decide) hlow hhigh]

theorem toNat_ofInt_floor {q : ℚ} (hlow : 0 ≤ q) (hhigh : q < 2 ^ 64) :
    ((BitVec.ofInt 64 ⌊q⌋).toNat : ℤ) = ⌊q⌋ := by
  have hnonneg : 0 ≤ ⌊q⌋ := Int.floor_nonneg.mpr hlow
  have hlt : ⌊q⌋ < 2 ^ 64 := Int.floor_lt.mpr (by exact_mod_cast hhigh)
  rw [BitVec.toNat_ofInt]
  omega

/-- The high word is right for every double in range; the low one is the rest,
which may be rounded. -/
theorem value_cvtFloat64ToSInt128 (hd : HasDigits 53 d) (hlow : -2 ^ 127 ≤ d) (hhigh : d < 2 ^ 127) :
    let rest := P.longDouble (d - ⌊d / 2 ^ 64⌋ * 2 ^ 64)
    (cvtFloat64ToSInt128 P d).value =
      2 ^ 64 * ⌊d / 2 ^ 64⌋ + (if rest < 2 ^ 64 then BitVec.ofInt 64 ⌊rest⌋ else P.outOfRange).toNat := by
  have hquot := hasDigits_block hd
  have hblock : P.longDouble (⌊d / 2 ^ 64⌋ * 2 ^ 64) = ⌊d / 2 ^ 64⌋ * 2 ^ 64 :=
    P.longDouble_eq (hquot.floor.mul_zpow 64)
  have hfloor : ⌊double (P.longDouble (d / 2 ^ 64))⌋ = ⌊d / 2 ^ 64⌋ := by
    rw [P.longDouble_eq hquot, double_eq hquot]
  rw [cvtFloat64ToSInt128, if_neg hlow.not_gt, if_neg hhigh.not_ge]
  dsimp only
  rw [hfloor, hblock]
  refine value_words (Int.le_floor.mpr ?_) (Int.floor_lt.mpr ?_)
  · rw [le_div_iff₀ (by norm_num)]
    norm_num
    linarith
  · rw [div_lt_iff₀ (by norm_num)]
    norm_num
    linarith

/-- A double that is not between `-2 ^ 63` and zero is read as its floor. -/
theorem value_cvtFloat64ToSInt128_floor (hd : HasDigits 53 d) (hlow : -2 ^ 127 ≤ d) (hhigh : d < 2 ^ 127)
    (hd' : 0 ≤ d ∨ d < -2 ^ 63) : (cvtFloat64ToSInt128 P d).value = ⌊d⌋ := by
  have hexact := P.longDouble_eq (hd.sub_block 64 (hd'.imp_right fun h => by linarith))
  have hfloor := Int.floor_le (d / 2 ^ 64)
  have hnext := Int.lt_floor_add_one (d / 2 ^ 64)
  rw [le_div_iff₀ (by norm_num)] at hfloor
  rw [div_lt_iff₀ (by norm_num)] at hnext
  rw [value_cvtFloat64ToSInt128 P hd hlow hhigh, hexact, if_pos (by linarith),
    toNat_ofInt_floor (by linarith) (by linarith)]
  have hsplit : d - ⌊d / 2 ^ 64⌋ * 2 ^ 64 = d - ((2 ^ 64 * ⌊d / 2 ^ 64⌋ : ℤ) : ℚ) := by
    push_cast
    ring
  rw [hsplit, Int.floor_sub_intCast]
  omega

/-- The multiple of the unit of the rounded rest that is nearest to a double. -/
def nearestRead (d : ℚ) : ℚ := nearestMultiple (2 ^ (64 - P.digits : ℤ)) d

/-- What a double between `-2 ^ 63` and zero is read as. -/
def reading (d : ℚ) : ℤ := if nearestRead P d = 0 then P.outOfRange.toNat - 2 ^ 64 else ⌊nearestRead P d⌋

theorem nearestRead_bounds (hlow : -2 ^ 63 ≤ d) (hneg : d < 0) : -2 ^ 63 ≤ nearestRead P d ∧ nearestRead P d ≤ 0 := by
  have hunit : (0 : ℚ) < 2 ^ (64 - P.digits : ℤ) := zpow_pos (by norm_num) _
  have hhalf : ((2 ^ (P.digits - 1) : ℤ) : ℚ) * 2 ^ (64 - P.digits : ℤ) = 2 ^ 63 := by
    have hdigits := P.le_digits
    push_cast
    rw [← zpow_natCast, ← zpow_add₀ (by norm_num), show ((P.digits - 1 : ℕ) : ℤ) + (64 - P.digits) = 63 by omega]
    norm_num
  rw [nearestRead, nearestMultiple]
  generalize (2 : ℚ) ^ (64 - P.digits : ℤ) = unit at *
  constructor
  · have hbound : |d / unit| ≤ ((2 ^ (P.digits - 1) : ℤ) : ℚ) := by
      rw [abs_div, abs_of_neg hneg, abs_of_pos hunit, div_le_iff₀ hunit, hhalf]
      linarith
    have hround := (abs_le.mp (abs_roundEven_le hbound)).1
    calc -2 ^ 63 = ((-2 ^ (P.digits - 1) : ℤ) : ℚ) * unit := by rw [← hhalf]; push_cast; ring
      _ ≤ roundEven (d / unit) * unit := mul_le_mul_of_nonneg_right (by exact_mod_cast hround) hunit.le
  · have herror := (abs_le.mp (abs_roundEven_sub_le (d / unit))).2
    have hquot : d / unit < 0 := div_neg_of_neg_of_pos hneg hunit
    have hlt : roundEven (d / unit) < 1 := by
      have hcast : (roundEven (d / unit) : ℚ) < ((1 : ℤ) : ℚ) := by
        push_cast
        linarith
      exact_mod_cast hcast
    exact mul_nonpos_of_nonpos_of_nonneg (by exact_mod_cast Int.lt_add_one_iff.mp hlt) hunit.le

theorem value_cvtFloat64ToSInt128_reading (hd : HasDigits 53 d) (hlow : -2 ^ 63 ≤ d) (hneg : d < 0) :
    (cvtFloat64ToSInt128 P d).value = reading P d := by
  obtain ⟨hbelow, habove⟩ := nearestRead_bounds P hlow hneg
  have hhigh : ⌊d / 2 ^ 64⌋ = -1 := by
    rw [Int.floor_eq_iff, le_div_iff₀ (by norm_num), div_lt_iff₀ (by norm_num)]
    push_cast
    exact ⟨by linarith, by linarith⟩
  have hdigits := P.le_digits
  have hrest : P.longDouble (d - (-1 : ℤ) * 2 ^ 64) = 2 ^ 64 + nearestRead P d := by
    have hround := nearest_block_add (p := P.digits) (q := d) (by omega) 64 (by linarith) hneg
    rw [Platform.longDouble, show d - (-1 : ℤ) * 2 ^ 64 = 2 ^ 64 + d by push_cast; ring]
    exact hround
  rw [value_cvtFloat64ToSInt128 P hd (by linarith) (by linarith), hhigh, hrest, reading]
  split_ifs with hlt hzero hzero
  · linarith
  · rw [toNat_ofInt_floor (by linarith) hlt]
    have hsplit : (2 : ℚ) ^ 64 + nearestRead P d = ((2 ^ 64 : ℤ) : ℚ) + nearestRead P d := by push_cast; rfl
    rw [hsplit, Int.floor_intCast_add]
    omega
  · omega
  · exact absurd (le_antisymm habove (by linarith)) hzero

end Reading

/-! ## The double of an integer -/

section Integers

variable (P : Platform)

/-- The two words of an integer of 53 digits are added without a rounding. -/
theorem words_of_hasDigits {tmp : CFSInt128Struct} (htmp : 0 ≤ tmp.value ∨ tmp.value < -2 ^ 63) (hd : HasDigits 53 tmp.value) :
    double (P.longDouble (P.longDouble (double tmp.high.toInt * 2 ^ 64) + double tmp.low.toNat)) = tmp.value := by
  have hlow := tmp.low.isLt
  have hvalue := tmp.value_eq
  have hhigh : ⌊(tmp.value : ℚ) / 2 ^ 64⌋ = tmp.high.toInt := by
    have hcast : (tmp.value : ℚ) / 2 ^ 64 = (tmp.value : ℚ) / ((2 ^ 64 : ℕ) : ℚ) := by push_cast; rfl
    rw [hcast, Rat.floor_intCast_div_natCast]
    push_cast
    omega
  have hhighDigits : HasDigits 53 (tmp.high.toInt : ℚ) := hhigh ▸ (hasDigits_block hd).floor
  have hlowDigits : HasDigits 53 (tmp.low.toNat : ℚ) := by
    have hrest := hd.sub_block 64 (htmp.imp (fun h => by exact_mod_cast h) fun h => by
      have hcast : (tmp.value : ℚ) < ((-2 ^ 63 : ℤ) : ℚ) := by exact_mod_cast h
      push_cast at hcast
      linarith)
    have hcast : (tmp.value : ℚ) - (tmp.high.toInt : ℚ) * 2 ^ 64 = (tmp.low.toNat : ℚ) := by
      rw [hvalue]
      push_cast
      ring
    rwa [hhigh, hcast] at hrest
  have hsum : (tmp.high.toInt : ℚ) * 2 ^ 64 + tmp.low.toNat = tmp.value := by
    rw [hvalue]
    push_cast
    ring
  have hblock : P.longDouble (tmp.high.toInt * 2 ^ 64) = tmp.high.toInt * 2 ^ 64 :=
    P.longDouble_eq (hhighDigits.mul_zpow 64)
  rw [double_eq hhighDigits, double_eq hlowDigits, hblock, hsum, P.longDouble_eq hd, double_eq hd]

/-- One word is rounded once. -/
theorem words_of_high_zero {tmp : CFSInt128Struct} (hhigh : tmp.high.toInt = 0) :
    double (P.longDouble (P.longDouble (double tmp.high.toInt * 2 ^ 64) + double tmp.low.toNat)) =
      double tmp.low.toNat := by
  have hzero : HasDigits 53 0 := ⟨0, 0, by simp, by simp⟩
  have hlow := hasDigits_nearest 53 (tmp.low.toNat : ℚ)
  rw [hhigh, Int.cast_zero, double_eq hzero, zero_mul, P.longDouble_eq hzero, zero_add, P.longDouble_eq hlow,
    double_eq hlow]

variable {number : IntegerNumber.CFNumber}

theorem value_integerToSInt128 (number : IntegerNumber.CFNumber) : (integerToSInt128 number).value = number.value := by
  rw [← IntegerNumber.toInt_getSInt128, integerToSInt128, value, bits]
  congr 1
  exact (BitVec.extractLsb'_append_extractLsb'_eq_extractLsb' rfl).trans BitVec.extractLsb'_eq_self

theorem value_of_storageBit (h : number.type.storageBit = true) :
    value ⟨number.pad, number.low⟩ = number.value := by
  rw [IntegerNumber.CFNumber.value, if_pos h]
  rfl

theorem value_of_word (h : ¬number.type.storageBit = true) : number.pad.toInt = number.value := by
  rw [IntegerNumber.CFNumber.value, if_neg h]

/-- An integer of 53 digits has itself as its double, unless its negation does
not fit. -/
theorem integerToFloat64_of_hasDigits (hd : HasDigits 53 number.value) (hleast : number.value ≠ -2 ^ 127) :
    integerToFloat64 P number = number.value := by
  rw [integerToFloat64]
  split_ifs with h
  · have hvalue := value_of_storageBit h
    rw [cvtSInt128ToFloat64]
    split_ifs with hneg
    · have hnegated := value_neg128 (a := ⟨number.pad, number.low⟩) (by rwa [hvalue])
      rw [words_of_hasDigits P, hnegated, hvalue]
      · push_cast
        ring
      · have := isNeg128_iff.mp hneg
        exact .inl (by omega)
      · rw [hnegated, hvalue]
        push_cast
        exact hd.neg
    · rw [words_of_hasDigits P, hvalue]
      · exact .inl (not_lt.mp (mt isNeg128_iff.mpr hneg))
      · rwa [hvalue]
  · rw [value_of_word h, double_eq hd]

/-- The double of an integer of one word and a sign. -/
theorem integerToFloat64_of_lt (hlow : -2 ^ 64 < number.value) (hneg : number.value < 0) :
    integerToFloat64 P number = double number.value := by
  rw [integerToFloat64]
  split_ifs with h
  · have hvalue := value_of_storageBit h
    have hnegated := value_neg128 (a := ⟨number.pad, number.low⟩) (by omega)
    have hwords := value_eq (a := (neg128 ⟨number.pad, number.low⟩))
    rw [cvtSInt128ToFloat64, if_pos (isNeg128_iff.mpr (by omega)), if_pos (isNeg128_iff.mpr (by omega))]
    have hlowWord := (neg128 ⟨number.pad, number.low⟩).low.isLt
    rw [words_of_high_zero P (by omega), double, double, ← nearest_neg]
    congr 1
    have hcast : ((neg128 ⟨number.pad, number.low⟩).low.toNat : ℤ) = -number.value := by omega
    rw [← Int.cast_natCast, hcast]
    push_cast
    ring
  · rw [value_of_word h]

/-- The least 128-bit integer gets the double with the other sign. -/
theorem integerToFloat64_least (hleast : number.value = -2 ^ 127) : integerToFloat64 P number = 2 ^ 127 := by
  have hdigits : HasDigits 53 ((-2 ^ 127 : ℤ) : ℚ) := ⟨-1, 127, by norm_num, by norm_num⟩
  rw [integerToFloat64]
  split_ifs with h
  · have hvalue := value_of_storageBit h
    have hnegated := value_neg128_least (a := ⟨number.pad, number.low⟩) (by rw [hvalue, hleast])
    rw [cvtSInt128ToFloat64, if_pos (isNeg128_iff.mpr (by omega)), if_pos (isNeg128_iff.mpr (by omega)),
      words_of_hasDigits P (.inr (by omega)) (by rwa [hnegated]), hnegated]
    norm_num
  · have hpad := BitVec.le_toInt number.pad
    rw [value_of_word h] at hpad
    omega

end Integers

/-! ## An integer and a double -/

section Mixed

variable (P : Platform) {bits : UInt64} {number : IntegerNumber.CFNumber}

theorem magnitudeValue_nonneg (n : ℕ) : 0 ≤ Calendar.magnitudeValue n := by
  rw [Calendar.magnitudeValue]
  split_ifs
  · exact mul_nonneg (Nat.cast_nonneg _) (zpow_nonneg (by norm_num) _)
  · exact mul_nonneg (Nat.cast_nonneg _) (zpow_nonneg (by norm_num) _)

theorem doubleValue_nonpos (h : signbit bits = true) : doubleValue bits ≤ 0 := by
  rw [doubleValue, if_pos (by simpa [signbit] using h)]
  exact neg_nonpos.mpr (magnitudeValue_nonneg _)

theorem doubleValue_nonneg (h : ¬signbit bits = true) : 0 ≤ doubleValue bits := by
  rw [doubleValue, if_neg (by simpa [signbit] using h)]
  exact magnitudeValue_nonneg _

theorem IsFinite.isnan_eq (h : IsFinite bits) : isnan bits = false := by
  rw [isnan, decide_eq_false_iff_not]
  exact not_lt.mpr h.le

/-- What a negative double is read as is negative. -/
theorem reading_neg {d : ℚ} (hlow : -2 ^ 63 ≤ d) (hneg : d < 0) : reading P d < 0 ∧ -2 ^ 64 ≤ reading P d := by
  obtain ⟨hbelow, habove⟩ := nearestRead_bounds P hlow hneg
  have hword := P.outOfRange.isLt
  rw [reading]
  split_ifs with hzero
  · omega
  · refine ⟨Int.floor_lt.mpr ?_, Int.le_floor.mpr ?_⟩
    · exact_mod_cast lt_of_le_of_ne habove hzero
    · push_cast
      linarith

/-- The integer that a double in range is read as. -/
theorem value_read {d : ℚ} (hd : HasDigits 53 d) (hlow : -2 ^ 127 ≤ d) (hhigh : d < 2 ^ 127) :
    (cvtFloat64ToSInt128 P d).value = if -2 ^ 63 ≤ d ∧ d < 0 then reading P d else ⌊d⌋ := by
  split_ifs with h
  · exact value_cvtFloat64ToSInt128_reading P hd h.1 h.2
  · refine value_cvtFloat64ToSInt128_floor P hd hlow hhigh ?_
    rcases le_or_gt 0 d with h0 | h0
    · exact .inl h0
    · exact .inr (not_le.mp fun hle => h ⟨hle, h0⟩)

/-- Only doubles near zero are rounded to zero. -/
theorem le_of_nearestRead {d : ℚ} (hzero : nearestRead P d = 0) : -2 ^ 10 ≤ d := by
  have hunit : (0 : ℚ) < 2 ^ (64 - P.digits : ℤ) := zpow_pos (by norm_num) _
  have hle : (2 : ℚ) ^ (64 - P.digits : ℤ) ≤ 2 ^ (11 : ℤ) :=
    zpow_le_zpow_right₀ (by norm_num) (by have := P.le_digits; omega)
  rw [nearestRead, nearestMultiple, mul_eq_zero, or_iff_left hunit.ne', Int.cast_eq_zero] at hzero
  have herror := (abs_le.mp (abs_roundEven_sub_le (d / 2 ^ (64 - P.digits : ℤ)))).2
  rw [hzero, Int.cast_zero, zero_sub, neg_le, le_div_iff₀ hunit] at herror
  have hpow : (2 : ℚ) ^ (11 : ℤ) = 2 * 2 ^ 10 := by norm_num
  linarith

/-- Rounding keeps a large negative integer away from zero. -/
theorem double_le_half {i : ℤ} (h : i < 0) : double i ≤ i / 2 := by
  have hne : (i : ℚ) ≠ 0 := Int.cast_ne_zero.mpr h.ne
  have hneg : (i : ℚ) < 0 := by exact_mod_cast h
  have herror := (abs_le.mp (abs_nearest_sub_le 53 (i : ℚ))).2
  have hulp := ulp_le (p := 53) hne
  have hunit : (2 : ℚ) ^ (1 - (53 : ℕ) : ℤ) ≤ 1 := zpow_le_one_of_nonpos₀ (by norm_num) (by norm_num)
  have hbound : |(i : ℚ)| * 2 ^ (1 - (53 : ℕ) : ℤ) ≤ |(i : ℚ)| * 1 := mul_le_mul_of_nonneg_left hunit (abs_nonneg _)
  rw [abs_of_neg hneg] at *
  rw [double]
  linarith

/-- If a double is read as the integer it is compared with, the integer's double
is on the same side of it as the integer. -/
theorem integerToFloat64_of_read (hlow : -2 ^ 127 ≤ doubleValue bits) (hhigh : doubleValue bits < 2 ^ 127)
    (hread : (cvtFloat64ToSInt128 P (doubleValue bits)).value = number.value) (hleast : number.value ≠ -2 ^ 127) :
    integerToFloat64 P number = number.value ∨
      integerToFloat64 P number < doubleValue bits ∧ (number.value : ℚ) < doubleValue bits := by
  have hd := hasDigits_doubleValue bits
  generalize doubleValue bits = d at *
  rw [value_read P hd hlow hhigh] at hread
  split_ifs at hread with hneg
  · have hbounds := reading_neg P hneg.1 hneg.2
    by_cases hzero : nearestRead P d = 0
    · -- the word is the one that an out-of-range cast gives
      by_cases hsmall : -2 ^ 53 ≤ number.value ∨ number.value = -2 ^ 64
      · refine .inl (integerToFloat64_of_hasDigits P ?_ hleast)
        rcases hsmall with hsmall | hblock
        · exact hasDigits_intCast (abs_le.mpr ⟨hsmall, by omega⟩)
        · exact ⟨-1, 64, by rw [hblock]; norm_num, by norm_num⟩
      · have hlt : (number.value : ℚ) < ((-2 ^ 53 : ℤ) : ℚ) := by exact_mod_cast (show number.value < -2 ^ 53 by omega)
        have hhalf := double_le_half (i := number.value) (by omega)
        have hnear := le_of_nearestRead P hzero
        rw [integerToFloat64_of_lt P (by omega) (by omega)]
        push_cast at hlt
        exact .inr ⟨by linarith, by linarith⟩
    · rw [reading, if_neg hzero] at hread
      have hdigits : HasDigits 53 (nearestRead P d) := hd.nearestMultiple _
      exact .inl (integerToFloat64_of_hasDigits P (hread ▸ hdigits.floor) hleast)
  · exact .inl (integerToFloat64_of_hasDigits P (hread ▸ hd.floor) hleast)

/-- A negative double in the range of the low word that is read as an integer on
the other side of the one it is compared with, or of the same value. -/
def ReadAcross (d : ℚ) (i : ℤ) : Prop :=
  (-2 ^ 63 ≤ d ∧ d < 0) ∧ ((reading P d < i ∧ (i : ℚ) ≤ d) ∨ (d ≤ i ∧ i < reading P d))

theorem exactCompare_lt {a b : Number} (h : a.value < b.value) : exactCompare a b = .lt :=
  compare_lt_iff_lt.mpr (Prod.Lex.toLex_lt_toLex.mpr (.inl h))

theorem exactCompare_gt {a b : Number} (h : b.value < a.value) : exactCompare a b = .gt :=
  compare_gt_iff_gt.mpr (Prod.Lex.toLex_lt_toLex.mpr (.inl h))

theorem exactCompare_of_eq {a b : Number} (h : a.value = b.value) :
    exactCompare a b = compare (!a.isNegative) (!b.isNegative) := by
  rcases lt_trichotomy (!a.isNegative) (!b.isNegative) with hlt | heq | hgt
  · rw [compare_lt_iff_lt.mpr hlt]
    exact compare_lt_iff_lt.mpr (Prod.Lex.toLex_lt_toLex.mpr (.inr ⟨h, hlt⟩))
  · rw [compare_eq_iff_eq.mpr heq]
    exact compare_eq_iff_eq.mpr (by rw [Number.key, Number.key, h, heq])
  · rw [compare_gt_iff_gt.mpr hgt]
    exact compare_gt_iff_gt.mpr (Prod.Lex.toLex_lt_toLex.mpr (.inr ⟨h.symm, hgt⟩))

/-- The comparison of the integers decides. -/
theorem compareMixed_of_ne (hfinite : IsFinite bits) (hlow : -2 ^ 127 ≤ doubleValue bits)
    (hhigh : doubleValue bits < 2 ^ 127)
    (hne : (cvtFloat64ToSInt128 P (doubleValue bits)).value ≠ number.value) :
    compareMixed P bits number = compare (cvtFloat64ToSInt128 P (doubleValue bits)).value number.value := by
  rw [compareMixed, hfinite.isnan_eq]
  simp only [Bool.not_false, Bool.true_and, decide_eq_true_iff, Bool.false_eq_true, if_false]
  rw [if_neg hlow.not_gt, if_neg hhigh.not_ge, cmp128_eq, value_integerToSInt128,
    if_pos (mt compare_eq_iff_eq.mp hne)]

/-- The comparison of the signs and the doubles decides. -/
theorem compareMixed_of_eq (hfinite : IsFinite bits) (hlow : -2 ^ 127 ≤ doubleValue bits)
    (hhigh : doubleValue bits < 2 ^ 127)
    (heq : (cvtFloat64ToSInt128 P (doubleValue bits)).value = number.value) :
    compareMixed P bits number =
      if signbit bits = true ∧ ¬number.value < 0 then .lt
      else if number.value < 0 ∧ ¬signbit bits = true then .gt
      else if doubleValue bits < integerToFloat64 P number then .lt
      else if integerToFloat64 P number < doubleValue bits then .gt else .eq := by
  have hneg : isNeg128 (integerToSInt128 number) = decide (number.value < 0) := by
    rw [Bool.eq_iff_iff, isNeg128_iff, value_integerToSInt128, decide_eq_true_iff]
  rw [compareMixed, hfinite.isnan_eq]
  simp only [Bool.not_false, Bool.true_and, decide_eq_true_iff, Bool.false_eq_true, if_false]
  rw [if_neg hlow.not_gt, if_neg hhigh.not_ge, cmp128_eq, value_integerToSInt128,
    if_neg (not_not.mpr (compare_eq_iff_eq.mpr heq)), hneg]
  simp only [Bool.and_eq_true, Bool.not_eq_true', decide_eq_false_iff_not, decide_eq_true_iff, Bool.not_eq_true]

/-- A double out of the range of the integers is on the side of its sign. -/
theorem compareMixed_out_of_range (hfinite : IsFinite bits)
    (h : doubleValue bits < -2 ^ 127 ∨ 2 ^ 127 ≤ doubleValue bits) :
    compareMixed P bits number = exactCompare (.float bits) (.integer number) := by
  obtain ⟨hbelow, habove⟩ := (integerToSInt128 number).value_bounds
  rw [value_integerToSInt128] at hbelow habove
  have hbelow' : ((-2 ^ 127 : ℤ) : ℚ) ≤ number.value := by exact_mod_cast hbelow
  have habove' : (number.value : ℚ) < ((2 ^ 127 : ℤ) : ℚ) := by exact_mod_cast habove
  push_cast at hbelow' habove'
  rw [compareMixed, hfinite.isnan_eq]
  simp only [Bool.not_false, Bool.true_and, decide_eq_true_iff]
  rcases h with h | h
  · rw [if_pos h, exactCompare_lt]
    exact h.trans_le hbelow'
  · rw [if_neg (by linarith), if_pos h, exactCompare_gt]
    exact habove'.trans_le h

theorem exactCompare_mixed_lt (h : doubleValue bits < number.value) :
    exactCompare (.float bits) (.integer number) = .lt := exactCompare_lt h

theorem exactCompare_mixed_gt (h : (number.value : ℚ) < doubleValue bits) :
    exactCompare (.float bits) (.integer number) = .gt := exactCompare_gt h

theorem exactCompare_mixed_of_eq (h : doubleValue bits = number.value) :
    exactCompare (.float bits) (.integer number) = compare (!signbit bits) (!decide (number.value < 0)) :=
  exactCompare_of_eq (a := .float bits) (b := .integer number) h

/-- Equal negative numbers have the same sign. -/
theorem exactCompare_eq_of_neg (heq : doubleValue bits = number.value) (hneg : doubleValue bits < 0) :
    exactCompare (.float bits) (.integer number) = .eq := by
  have hsign : signbit bits = true := by
    by_contra h
    exact absurd hneg (doubleValue_nonneg h).not_gt
  have hvalue : number.value < 0 := by
    rw [heq] at hneg
    exact_mod_cast hneg
  rw [exactCompare_mixed_of_eq heq, hsign, decide_eq_true hvalue]
  rfl

section InRange

variable (hfinite : IsFinite bits) (hlow : -2 ^ 127 ≤ doubleValue bits) (hhigh : doubleValue bits < 2 ^ 127)
include hfinite hlow hhigh

/-- The double is read as an integer below the one it is compared with. -/
theorem compareMixed_of_lt (hlt : (cvtFloat64ToSInt128 P (doubleValue bits)).value < number.value) :
    compareMixed P bits number = exactCompare (.float bits) (.integer number) ↔
      ¬(ReadAcross P (doubleValue bits) number.value ∨ doubleValue bits = -2 ^ 127 ∧ number.value = -2 ^ 127) := by
  rw [compareMixed_of_ne P hfinite hlow hhigh hlt.ne, compare_lt_iff_lt.mpr hlt]
  rw [value_read P (hasDigits_doubleValue bits) hlow hhigh] at hlt
  by_cases hbefore : doubleValue bits < number.value
  · refine iff_of_true (exactCompare_mixed_lt hbefore).symm ?_
    rintro (⟨hneg, ⟨-, hle⟩ | ⟨-, hacross⟩⟩ | ⟨hd, hi⟩)
    · exact absurd hbefore hle.not_gt
    · rw [if_pos hneg] at hlt
      omega
    · rw [hd, hi] at hbefore
      norm_num at hbefore
  · have hle := not_lt.mp hbefore
    split_ifs at hlt with hneg
    · refine iff_of_false ?_ (not_not.mpr (.inl ⟨hneg, .inl ⟨hlt, hle⟩⟩))
      rcases lt_or_eq_of_le hle with hgt | heq
      · rw [exactCompare_mixed_gt hgt]
        decide
      · rw [exactCompare_eq_of_neg heq.symm hneg.2]
        decide
    · exact absurd (Int.floor_lt.mp hlt) hbefore

/-- The double is read as an integer above the one it is compared with. -/
theorem compareMixed_of_gt (hgt : number.value < (cvtFloat64ToSInt128 P (doubleValue bits)).value) :
    compareMixed P bits number = exactCompare (.float bits) (.integer number) ↔
      ¬(ReadAcross P (doubleValue bits) number.value ∨ doubleValue bits = -2 ^ 127 ∧ number.value = -2 ^ 127) := by
  rw [compareMixed_of_ne P hfinite hlow hhigh hgt.ne', compare_gt_iff_gt.mpr hgt]
  rw [value_read P (hasDigits_doubleValue bits) hlow hhigh] at hgt
  by_cases hafter : (number.value : ℚ) < doubleValue bits
  · refine iff_of_true (exactCompare_mixed_gt hafter).symm ?_
    rintro (⟨hneg, ⟨hacross, -⟩ | ⟨hle, -⟩⟩ | ⟨hd, hi⟩)
    · rw [if_pos hneg] at hgt
      omega
    · exact absurd hafter hle.not_gt
    · rw [hd, hi] at hafter
      norm_num at hafter
  · have hle := not_lt.mp hafter
    split_ifs at hgt with hneg
    · refine iff_of_false ?_ (not_not.mpr (.inl ⟨hneg, .inr ⟨hle, hgt⟩⟩))
      rcases lt_or_eq_of_le hle with hlt | heq
      · rw [exactCompare_mixed_lt hlt]
        decide
      · rw [exactCompare_eq_of_neg heq hneg.2]
        decide
    · have hcast : (number.value : ℚ) < ⌊doubleValue bits⌋ := by exact_mod_cast hgt
      exact absurd (hcast.trans_le (Int.floor_le _)) hafter

/-- Both are the least integer, which is compared with the double of the other
sign. -/
theorem compareMixed_least (hleast : number.value = -2 ^ 127)
    (heq : (cvtFloat64ToSInt128 P (doubleValue bits)).value = number.value) :
    doubleValue bits = -2 ^ 127 ∧ compareMixed P bits number ≠ exactCompare (.float bits) (.integer number) := by
  have hd := hasDigits_doubleValue bits
  have hread := heq
  rw [value_read P hd hlow hhigh, hleast] at hread
  split_ifs at hread with hneg
  · have := (reading_neg P hneg.1 hneg.2).2
    omega
  have hvalue : doubleValue bits = -2 ^ 127 := by
    have hnext := Int.lt_floor_add_one (doubleValue bits)
    rw [hread] at hnext
    push_cast at hnext
    have hfloor := hd.floor_eq (by rw [abs_of_neg (by linarith)]; linarith)
    rw [← hfloor, hread]
    push_cast
    rfl
  refine ⟨hvalue, ?_⟩
  have hsign : signbit bits = true := by
    by_contra h
    have := doubleValue_nonneg h
    linarith
  rw [compareMixed_of_eq P hfinite hlow hhigh heq, if_neg (by rw [hleast]; simp), if_neg (by simp [hsign]),
    integerToFloat64_least P hleast, if_pos hhigh,
    exactCompare_eq_of_neg (by rw [hvalue, hleast]; push_cast; rfl) (by linarith)]
  decide

/-- The double is read as the integer it is compared with. -/
theorem compareMixed_of_read (hleast : number.value ≠ -2 ^ 127)
    (heq : (cvtFloat64ToSInt128 P (doubleValue bits)).value = number.value) :
    compareMixed P bits number = exactCompare (.float bits) (.integer number) := by
  have hread := heq
  rw [value_read P (hasDigits_doubleValue bits) hlow hhigh] at hread
  rw [compareMixed_of_eq P hfinite hlow hhigh heq]
  split_ifs with hminus hplus hlt hgt
  · -- `-0.0` and zero
    have hzero : doubleValue bits = 0 := by
      refine le_antisymm (doubleValue_nonpos hminus.1) (not_lt.mp fun hneg => hminus.2 ?_)
      rw [← hread]
      split_ifs with h
      · exact (reading_neg P h.1 h.2).1
      · exact Int.floor_lt.mpr (by exact_mod_cast hneg)
    rw [hzero, if_neg (by norm_num), Int.floor_zero] at hread
    rw [exactCompare_mixed_of_eq (by rw [hzero, ← hread, Int.cast_zero]), hminus.1, ← hread]
    decide
  · have hnonneg := doubleValue_nonneg hplus.2
    rw [if_neg (fun h => absurd h.2 hnonneg.not_gt)] at hread
    exact absurd hplus.1 (by rw [← hread]; exact (Int.floor_nonneg.mpr hnonneg).not_gt)
  · rcases integerToFloat64_of_read P hlow hhigh heq hleast with hvalue | ⟨hbelow, -⟩
    · rw [hvalue] at hlt
      exact (exactCompare_mixed_lt hlt).symm
    · exact absurd hlt hbelow.not_gt
  · rcases integerToFloat64_of_read P hlow hhigh heq hleast with hvalue | ⟨-, hbelow⟩
    · rw [hvalue] at hgt
      exact (exactCompare_mixed_gt hgt).symm
    · exact (exactCompare_mixed_gt hbelow).symm
  · rcases integerToFloat64_of_read P hlow hhigh heq hleast with hvalue | ⟨hbelow, -⟩
    · rw [hvalue] at hlt hgt
      rw [exactCompare_mixed_of_eq (le_antisymm (not_lt.mp hgt) (not_lt.mp hlt))]
      refine (compare_eq_iff_eq.mpr ?_).symm
      by_cases hneg : number.value < 0
      · rw [not_and, not_not] at hplus
        rw [hplus hneg, decide_eq_true hneg]
      · rw [not_and_not_right] at hminus
        rw [decide_eq_false hneg]
        cases hsign : signbit bits with
        | true => exact absurd (hminus hsign) hneg
        | false => rfl
    · exact absurd hbelow hgt

end InRange

/-- The result of an integer and a double is right unless the double is read
across the integer, or both are the least integer. -/
theorem compareMixed_iff (hfinite : IsFinite bits) :
    compareMixed P bits number = exactCompare (.float bits) (.integer number) ↔
      ¬(ReadAcross P (doubleValue bits) number.value ∨ doubleValue bits = -2 ^ 127 ∧ number.value = -2 ^ 127) := by
  by_cases hrange : doubleValue bits < -2 ^ 127 ∨ 2 ^ 127 ≤ doubleValue bits
  · refine iff_of_true (compareMixed_out_of_range P hfinite hrange) ?_
    rintro (⟨⟨hlow, hneg⟩, -⟩ | ⟨heq, -⟩)
    · rcases hrange with h | h <;> linarith
    · rcases hrange with h | h <;> linarith
  rw [not_or, not_lt, not_le] at hrange
  obtain ⟨hlow, hhigh⟩ := hrange
  rcases lt_trichotomy (cvtFloat64ToSInt128 P (doubleValue bits)).value number.value with hlt | heq | hgt
  · exact compareMixed_of_lt P hfinite hlow hhigh hlt
  · by_cases hleast : number.value = -2 ^ 127
    · obtain ⟨hvalue, hne⟩ := compareMixed_least P hfinite hlow hhigh hleast heq
      exact iff_of_false hne (not_not.mpr (.inr ⟨hvalue, hleast⟩))
    · refine iff_of_true (compareMixed_of_read P hfinite hlow hhigh hleast heq) ?_
      rw [value_read P (hasDigits_doubleValue bits) hlow hhigh] at heq
      rintro (⟨hneg, hacross⟩ | ⟨-, h⟩)
      · rw [if_pos hneg] at heq
        rcases hacross with ⟨h, -⟩ | ⟨-, h⟩ <;> omega
      · exact hleast h
  · exact compareMixed_of_gt P hfinite hlow hhigh hgt

end Mixed

/-! ## Numbers -/

theorem compareFloats_eq {bits1 bits2 : UInt64} (h1 : IsFinite bits1) (h2 : IsFinite bits2) :
    compareFloats bits1 bits2 = exactCompare (.float bits1) (.float bits2) := by
  simp only [compareFloats, h1.isnan_eq, h2.isnan_eq, Bool.and_self, Bool.false_eq_true, if_false]
  rcases lt_trichotomy (doubleValue bits1) (doubleValue bits2) with hlt | heq | hgt
  · rw [exactCompare_lt (a := .float bits1) (b := .float bits2) hlt, if_pos hlt]
    cases h : signbit bits1 <;> cases h' : signbit bits2 <;> simp
    have hnonneg : 0 ≤ doubleValue bits1 := doubleValue_nonneg (by simp [h])
    linarith [doubleValue_nonpos h']
  · rw [exactCompare_of_eq (a := .float bits1) (b := .float bits2) heq, heq, Number.isNegative, Number.isNegative]
    simp only [lt_irrefl, if_false]
    cases signbit bits1 <;> cases signbit bits2 <;> rfl
  · rw [exactCompare_gt (a := .float bits1) (b := .float bits2) hgt, if_neg hgt.not_gt, if_pos hgt]
    cases h : signbit bits1 <;> cases h' : signbit bits2 <;> simp
    have hnonneg : 0 ≤ doubleValue bits2 := doubleValue_nonneg (by simp [h'])
    linarith [doubleValue_nonpos h]

theorem compareIntegers_eq (number1 number2 : IntegerNumber.CFNumber) :
    cmp128 (integerToSInt128 number1) (integerToSInt128 number2) =
      exactCompare (.integer number1) (.integer number2) := by
  rw [cmp128_eq, value_integerToSInt128, value_integerToSInt128]
  rcases lt_trichotomy number1.value number2.value with h | h | h
  · rw [compare_lt_iff_lt.mpr h,
      exactCompare_lt (a := .integer number1) (b := .integer number2) (Int.cast_lt.mpr h)]
  · rw [compare_eq_iff_eq.mpr h,
      exactCompare_of_eq (a := .integer number1) (b := .integer number2) (Int.cast_inj.mpr h)]
    simp [Number.isNegative, h]
  · rw [compare_gt_iff_gt.mpr h,
      exactCompare_gt (a := .integer number1) (b := .integer number2) (Int.cast_lt.mpr h)]

/-- An integer and a double whose comparison goes wrong. -/
def Misread (P : Platform) : Number → Number → Prop
  | .float bits, .integer number | .integer number, .float bits =>
    ReadAcross P (doubleValue bits) number.value ∨ doubleValue bits = -2 ^ 127 ∧ number.value = -2 ^ 127
  | .integer _, .integer _ | .float _, .float _ => False

/-- Integers and finite doubles are ordered by their exact values exactly if they
are not misread, and any set of them without misread ones is totally
preordered. -/
theorem numberCompare_iff (P : Platform) :
    (∀ a b : Number, a.Finite → b.Finite → (numberCompare P a b = exactCompare a b ↔ ¬Misread P a b)) ∧
      ∀ numbers : Set Number, (∀ a ∈ numbers, a.Finite) → (∀ a ∈ numbers, ∀ b ∈ numbers, ¬Misread P a b) →
        TotalPreorder fun a b : numbers => numberCompare P a b := by
  have hpair : ∀ a b : Number, a.Finite → b.Finite → (numberCompare P a b = exactCompare a b ↔ ¬Misread P a b) := by
    intro a b ha hb
    cases a with
    | integer number1 =>
      cases b with
      | integer number2 => exact iff_of_true (compareIntegers_eq number1 number2) not_false
      | float bits2 =>
        rw [exactCompare_totalPreorder.swap]
        exact (Ordering.swap_inj).trans (compareMixed_iff P hb)
    | float bits1 =>
      cases b with
      | integer number2 => exact compareMixed_iff P ha
      | float bits2 => exact iff_of_true (compareFloats_eq ha hb) not_false
  refine ⟨hpair, fun numbers hfinite hread => ?_⟩
  have hexact : ∀ a b : numbers, numberCompare P a b = exactCompare a b := fun a b =>
    (hpair a b (hfinite a a.2) (hfinite b b.2)).mpr (hread a a.2 b b.2)
  refine ⟨fun a b => ?_, fun a b c => ?_⟩
  · rw [hexact, hexact, exactCompare_totalPreorder.swap]
  · rw [hexact, hexact, hexact]
    exact exactCompare_totalPreorder.trans _ _ _

/-! ## Concrete numbers -/

/-- The extended doubles of x86-64, and the word that its code for the cast
gives. -/
def x87 : Platform := ⟨64, by decide, 0, ⟨0, 0⟩⟩

/-- The number 1 and the double 1.5. -/
theorem numberCompare_iff_one : TotalPreorder fun a b : ({.integer ⟨.sInt32, 1, 0⟩, .float 0x3FF8000000000000} :
    Set Number) => numberCompare x87 a b := by
  have hvalue : doubleValue 0x3FF8000000000000 = 3 / 2 := by
    rw [doubleValue, if_neg (by decide), show (0x3FF8000000000000 : UInt64).toNat = 0x3FF8000000000000 by decide,
      Calendar.magnitudeValue, if_neg (by decide)]
    norm_num
  have hread : ¬(ReadAcross x87 (doubleValue 0x3FF8000000000000) 1 ∨ doubleValue 0x3FF8000000000000 = -2 ^ 127 ∧
      (1 : ℤ) = -2 ^ 127) := by
    rw [hvalue]
    rintro (⟨⟨-, hneg⟩, -⟩ | ⟨-, h⟩)
    · norm_num at hneg
    · norm_num at h
  have hone : (⟨.sInt32, 1, 0⟩ : IntegerNumber.CFNumber).value = 1 := by decide
  refine (numberCompare_iff x87).2 _ ?_ ?_
  · rintro a (rfl | rfl)
    · trivial
    · show (0x3FF8000000000000 : UInt64).toNat % 2 ^ 63 < 2047 * 2 ^ 52
      decide
  · rintro a (rfl | rfl) b (rfl | rfl)
    · exact not_false
    · simpa only [Misread, hone] using hread
    · simpa only [Misread, hone] using hread
    · exact not_false

/-- `-1025.0` is read as -2048 if a `long double` is a double, `-0.5` as
`-2 ^ 64` on x86-64, and the double of `-2 ^ 127` is positive. -/
theorem numberCompare_misreads :
    (∀ P : Platform, P.digits = 53 →
      numberCompare P (.float 0xC090040000000000) (.integer ⟨.sInt32, BitVec.ofInt 64 (-1025), 0⟩) ≠
        exactCompare (.float 0xC090040000000000) (.integer ⟨.sInt32, BitVec.ofInt 64 (-1025), 0⟩)) ∧
    numberCompare x87 (.float 0xBFE0000000000000) (.integer ⟨.sInt32, BitVec.ofInt 64 (-1), 0⟩) ≠
      exactCompare (.float 0xBFE0000000000000) (.integer ⟨.sInt32, BitVec.ofInt 64 (-1), 0⟩) ∧
    ∀ P : Platform, numberCompare P (.float 0xC7E0000000000000) (.integer ⟨.sInt128, 0x8000000000000000, 0⟩) ≠
      exactCompare (.float 0xC7E0000000000000) (.integer ⟨.sInt128, 0x8000000000000000, 0⟩) := by
  refine ⟨fun P hP => ?_, ?_, fun P => ?_⟩
  · have hvalue : doubleValue 0xC090040000000000 = -1025 := by
      rw [doubleValue, if_pos (by decide),
        show (0xC090040000000000 : UInt64).toNat - 2 ^ 63 = 0x4090040000000000 by decide, Calendar.magnitudeValue,
        if_neg (by decide)]
      norm_num
    have hfloor : ⌊(-1025 : ℚ) / 2048⌋ = -1 := by
      rw [Int.floor_eq_iff]
      norm_num
    have hunit : (2 : ℚ) ^ (64 - P.digits : ℤ) = 2048 := by
      rw [hP]
      norm_num
    have hread : reading P (-1025) = -2048 := by
      have hmultiple : nearestRead P (-1025) = ((-2048 : ℤ) : ℚ) := by
        rw [nearestRead, nearestMultiple, hunit, roundEven, hfloor]
        norm_num
      rw [reading, hmultiple, if_neg (by norm_num), Int.floor_intCast]
    have hone : (⟨.sInt32, BitVec.ofInt 64 (-1025), 0⟩ : IntegerNumber.CFNumber).value = -1025 := by decide
    refine mt (compareMixed_iff P (by show _ < _; decide)).mp (not_not.mpr (.inl ?_))
    rw [hvalue, hone]
    exact ⟨by norm_num, .inl ⟨by rw [hread]; decide, by norm_num⟩⟩
  · have hvalue : doubleValue 0xBFE0000000000000 = -1 / 2 := by
      rw [doubleValue, if_pos (by decide),
        show (0xBFE0000000000000 : UInt64).toNat - 2 ^ 63 = 0x3FE0000000000000 by decide, Calendar.magnitudeValue,
        if_neg (by decide)]
      norm_num
    have hfloor : ⌊(-1 / 2 : ℚ)⌋ = -1 := by
      rw [Int.floor_eq_iff]
      norm_num
    have hread : reading x87 (-1 / 2) = -2 ^ 64 := by
      have hmultiple : nearestRead x87 (-1 / 2) = 0 := by
        rw [nearestRead, nearestMultiple, show (2 : ℚ) ^ (64 - x87.digits : ℤ) = 1 by simp [x87], div_one, roundEven,
          hfloor]
        norm_num
      rw [reading, if_pos hmultiple]
      decide
    have hone : (⟨.sInt32, BitVec.ofInt 64 (-1), 0⟩ : IntegerNumber.CFNumber).value = -1 := by decide
    refine mt (compareMixed_iff x87 (by show _ < _; decide)).mp (not_not.mpr (.inl ?_))
    rw [hvalue, hone]
    exact ⟨by norm_num, .inl ⟨by rw [hread]; decide, by norm_num⟩⟩
  · have hvalue : doubleValue 0xC7E0000000000000 = -2 ^ 127 := by
      rw [doubleValue, if_pos (by decide),
        show (0xC7E0000000000000 : UInt64).toNat - 2 ^ 63 = 0x47E0000000000000 by decide, Calendar.magnitudeValue,
        if_neg (by decide)]
      norm_num
    refine mt (compareMixed_iff P (by show _ < _; decide)).mp (not_not.mpr (.inr ⟨hvalue, ?_⟩))
    decide

end CFLite.NumberComparison
