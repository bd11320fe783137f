import CFLite.Date.Gregorian
import CFLite.Framework.Rounding

/-!
# Times as doubles

A `CFAbsoluteTime` is a double. `CFAbsoluteTimeGetGregorianDate` divides it and
multiplies the floors of the quotients again, with a rounding after each
operation.

* `doubleValue_doubleOfInt`: the time of a date is the double nearest to its
  seconds;
* `gregorianDateOfTime_of_isDouble`: up to `2 ^ 55` seconds away from 2001 no
  rounding changes a field, although a second is less than a unit in the last
  place from `2 ^ 53` seconds on.
-/

namespace CFLite.Calendar

open CFLite.Framework.Rounding

/-! ## The value of a double -/

/-- The value of the bits of a double without its sign. -/
def magnitudeValue (bits : Nat) : ℚ :=
  if bits / 2 ^ 52 = 0 then bits * 2 ^ (-1074 : ℤ)
  else ((2 ^ 52 + bits % 2 ^ 52 : Nat) : ℚ) * 2 ^ ((bits / 2 ^ 52 : Nat) - 1075 : ℤ)

/-- The value of the bits of a finite double. -/
def doubleValue (bits : UInt64) : ℚ :=
  if 2 ^ 63 ≤ bits.toNat then -magnitudeValue (bits.toNat - 2 ^ 63) else magnitudeValue bits.toNat

/-- The number is the value of a double. -/
def IsDouble (x : ℤ) : Prop := ∃ (n : ℤ) (j : ℕ), x = n * 2 ^ j ∧ |n| < 2 ^ 53

/-! ## The date of a time -/

/-- The result of an operation with doubles. -/
abbrev double (q : ℚ) : ℚ := nearest 53 q

/-- `__CFDoubleModToInt` -/
def doubleModToInt (d : ℚ) (modulus : Nat) : Int :=
  let rest := double (d - double (⌊double (d / modulus)⌋ * modulus))
  let result := ⌊nearest 24 ⌊rest⌋⌋
  if result < 0 then result + modulus else result

/-- `__CFDoubleMod` -/
def doubleMod (d : ℚ) (modulus : Nat) : ℚ :=
  let result := double (d - double (⌊double (d / modulus)⌋ * modulus))
  if result < 0 then double (result + modulus) else result

/-- `CFAbsoluteTimeGetGregorianDate(at, NULL)`, with the second as an integer
as the writer of property lists casts it. -/
def gregorianDateOfTime (time : ℚ) : GregorianDate :=
  let (year, month, day) := ymdFromAbsolute ⌊double (time / 86400)⌋
  let year := if 2 ^ 31 - 1 - 2001 < year then 2 ^ 31 - 1 - 2001 else year
  ⟨int32 (year + 2001), month, day, doubleModToInt ⌊double (time / 3600)⌋ 24, doubleModToInt ⌊double (time / 60)⌋ 60,
    ⌊doubleMod time 60⌋⟩

/-! ## Rounding the seconds -/

/-- The significand that `doubleOfNat` computes is the rounded one. -/
theorem doubleOfNat_eq {n : ℕ} (hn : n ≠ 0) : ∃ q : ℕ, doubleOfNat n = (n.log2 + 1022) * 2 ^ 52 + q ∧ 2 ^ 52 ≤ q ∧
    q ≤ 2 ^ 53 ∧ double n = q * 2 ^ (n.log2 - 52 : ℤ) := by
  have hlow : 2 ^ n.log2 ≤ n := Nat.log2_self_le hn
  have hhigh : n < 2 ^ (n.log2 + 1) := Nat.lt_log2_self
  have hulp : ulp 53 (n : ℚ) = 2 ^ (n.log2 - 52 : ℤ) := by
    rw [ulp_eq (e := n.log2)]
    · congr 1
      push_cast
      ring
    · rw [Nat.abs_cast, zpow_natCast]
      exact_mod_cast hlow
    · rw [Nat.abs_cast]
      exact_mod_cast hhigh
  rw [doubleOfNat, if_neg hn, double, nearest, hulp]
  dsimp only
  generalize n.log2 = e at hlow hhigh
  by_cases he : e ≤ 52
  · obtain ⟨k, hk⟩ : ∃ k, e + k = 52 := ⟨52 - e, by omega⟩
    have hshift : 52 - e = k := by omega
    have hunit : (n : ℚ) / 2 ^ (e - 52 : ℤ) = ((n * 2 ^ k : ℕ) : ℤ) := by
      rw [show (e : ℤ) - 52 = -(k : ℤ) by omega, zpow_neg, zpow_natCast, div_inv_eq_mul]
      push_cast
      rfl
    refine ⟨n * 2 ^ k, by rw [if_pos he, hshift], ?_, ?_, by rw [hunit, roundEven_intCast]; rfl⟩
    · calc 2 ^ 52 = 2 ^ e * 2 ^ k := by rw [← pow_add, hk]
        _ ≤ n * 2 ^ k := Nat.mul_le_mul_right _ hlow
    · calc n * 2 ^ k ≤ 2 ^ (e + 1) * 2 ^ k := Nat.mul_le_mul_right _ hhigh.le
        _ = 2 ^ 53 := by rw [← pow_add, show e + 1 + k = 53 by omega]
  · obtain ⟨k, rfl⟩ : ∃ k, e = 52 + k := ⟨e - 52, by omega⟩
    have hlow' : 2 ^ 52 ≤ n / 2 ^ k := by
      rwa [Nat.le_div_iff_mul_le (by positivity), ← pow_add]
    have hhigh' : n / 2 ^ k < 2 ^ 53 := by
      rwa [Nat.div_lt_iff_lt_mul (by positivity), ← pow_add, show 53 + k = 52 + k + 1 by omega]
    have hround := roundEven_div n (b := 2 ^ k) (by positivity)
    rw [if_neg he, Nat.add_sub_cancel_left, show ((52 + k : ℕ) : ℤ) - 52 = (k : ℤ) by omega, zpow_natCast]
    push_cast at hround
    rw [hround]
    split_ifs with h
    · exact ⟨n / 2 ^ k, rfl, hlow', hhigh'.le, rfl⟩
    · exact ⟨n / 2 ^ k + 1, rfl, by omega, hhigh', by push_cast; rfl⟩

theorem magnitudeValue_significand {e q : ℕ} (hlow : 2 ^ 52 ≤ q) (hhigh : q ≤ 2 ^ 53) :
    magnitudeValue ((e + 1022) * 2 ^ 52 + q) = q * 2 ^ (e - 52 : ℤ) := by
  rcases lt_or_eq_of_le hhigh with hlt | rfl
  · have hexponent : ((e + 1022) * 2 ^ 52 + q) / 2 ^ 52 = e + 1023 := by omega
    have hfraction : 2 ^ 52 + ((e + 1022) * 2 ^ 52 + q) % 2 ^ 52 = q := by omega
    rw [magnitudeValue, hexponent, hfraction, if_neg (by omega),
      show ((e + 1023 : ℕ) : ℤ) - 1075 = (e : ℤ) - 52 by omega]
  · -- the carry into the exponent
    have hexponent : ((e + 1022) * 2 ^ 52 + 2 ^ 53) / 2 ^ 52 = e + 1024 := by omega
    have hfraction : 2 ^ 52 + ((e + 1022) * 2 ^ 52 + 2 ^ 53) % 2 ^ 52 = 2 ^ 52 := by omega
    rw [magnitudeValue, hexponent, hfraction, if_neg (by omega)]
    have hsplit : (2 : ℚ) ^ ((e + 1024 : ℕ) - 1075 : ℤ) = 2 * 2 ^ (e - 52 : ℤ) := by
      rw [show ((e + 1024 : ℕ) : ℤ) - 1075 = 1 + (e - 52) by push_cast; ring, zpow_add₀ (by norm_num), zpow_one]
    rw [hsplit]
    push_cast
    ring

theorem magnitudeValue_doubleOfNat (n : ℕ) : magnitudeValue (doubleOfNat n) = double n := by
  rcases eq_or_ne n 0 with rfl | hn
  · rw [doubleOfNat, if_pos rfl, double, nearest, magnitudeValue]
    simp [roundEven]
  · obtain ⟨q, hbits, hlow, hhigh, hround⟩ := doubleOfNat_eq hn
    rw [hbits, magnitudeValue_significand hlow hhigh, hround]

theorem doubleOfNat_lt {n : ℕ} (hn : n < 2 ^ 63) : doubleOfNat n < 2 ^ 63 := by
  rcases eq_or_ne n 0 with rfl | hne
  · decide
  · obtain ⟨q, hbits, -, hhigh, -⟩ := doubleOfNat_eq hne
    have hlog := (Nat.log2_lt hne).mpr hn
    rw [hbits]
    omega

/-- The double of a number of seconds is the nearest one. -/
theorem doubleValue_doubleOfInt {n : ℤ} (hn : |n| < 2 ^ 63) : doubleValue (doubleOfInt n) = double n := by
  have hlt := doubleOfNat_lt (n := n.natAbs) (by rw [abs_lt] at hn; omega)
  have hvalue := magnitudeValue_doubleOfNat n.natAbs
  rw [doubleValue, doubleOfInt, UInt64.toNat_ofNat']
  by_cases hneg : n < 0
  · have hcast : ((n.natAbs : ℕ) : ℚ) = -(n : ℚ) := by
      rw [Nat.cast_natAbs, abs_of_neg hneg, Int.cast_neg]
    rw [if_pos hneg, Nat.mod_eq_of_lt (by omega), if_pos (by omega), Nat.add_sub_cancel_left, hvalue, hcast, double,
      nearest_neg, neg_neg]
  · have hcast : ((n.natAbs : ℕ) : ℚ) = (n : ℚ) := by
      rw [Nat.cast_natAbs, abs_of_nonneg (not_lt.mp hneg)]
    rw [if_neg hneg, Nat.zero_add, Nat.mod_eq_of_lt (by omega), if_neg (by omega), hvalue, hcast]

theorem isDouble_natCast (n : ℕ) : ∃ x : ℤ, double n = x ∧ IsDouble x := by
  rcases eq_or_ne n 0 with rfl | hn
  · refine ⟨0, ?_, 0, 0, by simp, by decide⟩
    rw [double, nearest]
    simp [roundEven]
  by_cases hlog : n.log2 ≤ 52
  · have hlt : n < 2 ^ 53 := Nat.lt_log2_self.trans_le (Nat.pow_le_pow_right (by decide) (by omega))
    have hdigits : |(n : ℤ)| < 2 ^ 53 := by
      rw [Nat.abs_cast]
      exact_mod_cast hlt
    exact ⟨n, by exact_mod_cast nearest_intCast hdigits, n, 0, by simp, hdigits⟩
  · obtain ⟨q, -, hlow, hhigh, hround⟩ := doubleOfNat_eq hn
    obtain ⟨k, hk⟩ : ∃ k, n.log2 = 52 + k := ⟨n.log2 - 52, by omega⟩
    rw [hk, show ((52 + k : ℕ) : ℤ) - 52 = (k : ℤ) by omega, zpow_natCast] at hround
    refine ⟨q * 2 ^ k, by rw [hround]; push_cast; rfl, ?_⟩
    rcases lt_or_eq_of_le hhigh with hlt | rfl
    · exact ⟨q, k, rfl, by rw [Nat.abs_cast]; exact_mod_cast hlt⟩
    · exact ⟨2 ^ 52, k + 1, by push_cast; ring, by decide⟩

theorem isDouble_intCast (s : ℤ) : ∃ x : ℤ, double s = x ∧ IsDouble x := by
  obtain ⟨x, hx, hdouble⟩ := isDouble_natCast s.natAbs
  rcases le_total 0 s with hs | hs
  · refine ⟨x, ?_, hdouble⟩
    rw [← hx, Nat.cast_natAbs, abs_of_nonneg hs]
  · obtain ⟨n, j, rfl, hn⟩ := hdouble
    refine ⟨-(n * 2 ^ j), ?_, -n, j, by ring, by rwa [abs_neg]⟩
    rw [Int.cast_neg, ← hx, Nat.cast_natAbs, abs_of_nonpos hs, Int.cast_neg, double, double, nearest_neg, neg_neg]

theorem IsDouble.nearest_eq {x : ℤ} (h : IsDouble x) : double x = x := by
  obtain ⟨n, j, rfl, hn⟩ := h
  have hdigits := nearest_of_digits (p := 53) (j : ℤ) hn
  push_cast
  rwa [zpow_natCast] at hdigits

/-- What doubles below `2 ^ 55` are multiples of. -/
theorem IsDouble.exists_unit {x : ℤ} (h : IsDouble x) (hx : |x| < 2 ^ 55) :
    ∃ j ≤ 2, (2 : ℤ) ^ j ∣ x ∧ |x| < 2 ^ (53 + j) := by
  obtain ⟨n, j, rfl, hn⟩ := h
  by_cases hj : j ≤ 2
  · refine ⟨j, hj, Dvd.intro_left n rfl, ?_⟩
    rw [abs_mul, abs_of_pos (by positivity : (0 : ℤ) < 2 ^ j), pow_add]
    exact mul_lt_mul_of_pos_right hn (by positivity)
  · exact ⟨2, le_refl 2, (pow_dvd_pow 2 (by omega)).mul_left n, hx⟩

/-! ## Fields of whole numbers -/

section Fields

variable {x : ℤ}

/-- The floor of the quotient of a time is right for all units of time. -/
theorem floor_double_div (h : IsDouble x) (hx : |x| < 2 ^ 55) {m : ℕ} (hm : 0 < m) (hdvd : 4 ∣ m) :
    ⌊double ((x : ℚ) / m)⌋ = x / m := by
  obtain ⟨j, hj, hunit, hdigits⟩ := h.exists_unit hx
  have hdvd' : (2 : ℤ) ^ j ∣ m :=
    (pow_dvd_pow 2 hj).trans (by exact_mod_cast hdvd)
  exact floor_nearest_div hm hdigits hunit hdvd'

theorem double_intCast {n : ℤ} (h : |n| < 2 ^ 53) : double n = n := nearest_intCast h

theorem doubleModToInt_eq {d : ℤ} (hd : |d| < 2 ^ 52) {m : ℕ} (hm : 0 < m) (hm' : m < 2 ^ 24) :
    doubleModToInt d m = d % m := by
  have hquot : ⌊double ((d : ℚ) / m)⌋ = d / m :=
    floor_nearest_div (j := 0) hm (by rw [Nat.add_zero]; omega) (by simp) (by simp)
  have hnonneg := Int.emod_nonneg d (show (m : ℤ) ≠ 0 by omega)
  have hlt := Int.emod_lt_of_pos d (show (0 : ℤ) < m by omega)
  have hsplit := Int.mul_ediv_add_emod d m
  have hrest : (d : ℚ) - ((d / m * m : ℤ) : ℚ) = ((d % m : ℤ) : ℚ) := by
    rw [← Int.cast_sub]
    congr 1
    rw [mul_comm]
    omega
  have hproduct : double ((d / m : ℤ) * (m : ℚ)) = ((d / m * m : ℤ) : ℚ) := by
    have hcast : ((d / m : ℤ) : ℚ) * (m : ℚ) = ((d / m * m : ℤ) : ℚ) := by push_cast; rfl
    rw [hcast, double_intCast]
    rw [mul_comm] at hsplit
    rw [abs_lt] at hd ⊢
    omega
  have hfloat : nearest 24 ((d % m : ℤ) : ℚ) = ((d % m : ℤ) : ℚ) := nearest_intCast (by rw [abs_lt]; omega)
  have hdouble : double ((d % m : ℤ) : ℚ) = ((d % m : ℤ) : ℚ) := double_intCast (by rw [abs_lt]; omega)
  simp only [doubleModToInt, hquot, hproduct, hrest, hdouble, Int.floor_intCast, hfloat]
  rw [if_neg (by omega)]

theorem doubleMod_eq (h : IsDouble x) (hx : |x| < 2 ^ 55 - 60) : doubleMod x 60 = ((x % 60 : ℤ) : ℚ) := by
  have hquot : ⌊double ((x : ℚ) / (60 : ℕ))⌋ = x / 60 := floor_double_div h (by omega) (by decide) (by decide)
  have hproduct : double ((x / 60 : ℤ) * ((60 : ℕ) : ℚ)) = ((x / 60 * 60 : ℤ) : ℚ) := by
    have hcast : ((x / 60 : ℤ) : ℚ) * ((60 : ℕ) : ℚ) = ((x / 60 * 60 : ℤ) : ℚ) := by push_cast; rfl
    have hdouble : IsDouble (x / 60 * 60) := by
      refine ⟨x / 60 * 15, 2, by ring, ?_⟩
      rw [abs_lt] at hx ⊢
      omega
    rw [hcast, hdouble.nearest_eq]
  have hrest : (x : ℚ) - ((x / 60 * 60 : ℤ) : ℚ) = ((x % 60 : ℤ) : ℚ) := by
    rw [← Int.cast_sub]
    congr 1
    omega
  have hdouble : double ((x % 60 : ℤ) : ℚ) = ((x % 60 : ℤ) : ℚ) := double_intCast (by rw [abs_lt]; omega)
  have hneg : ¬((x % 60 : ℤ) : ℚ) < 0 := by
    rw [not_lt, Int.cast_nonneg_iff]
    omega
  simp only [doubleMod, hquot, hproduct, hrest, hdouble, if_neg hneg]

/-- The date of a time that is not too far away is the one of its seconds. -/
theorem gregorianDateOfTime_of_isDouble (h : IsDouble x) (hx : |x| < 2 ^ 55 - 60) :
    gregorianDateOfTime x = gregorianDateFromSeconds x := by
  have hday : ⌊double ((x : ℚ) / 86400)⌋ = x / 86400 :=
    floor_double_div h (by omega) (m := 86400) (by decide) (by decide)
  have hhour : ⌊double ((x : ℚ) / 3600)⌋ = x / 3600 :=
    floor_double_div h (by omega) (m := 3600) (by decide) (by decide)
  have hminute : ⌊double ((x : ℚ) / 60)⌋ = x / 60 := floor_double_div h (by omega) (m := 60) (by decide) (by decide)
  rw [abs_lt] at hx
  have hhours := doubleModToInt_eq (d := x / 3600) (m := 24) (by rw [abs_lt]; omega) (by decide) (by decide)
  have hminutes := doubleModToInt_eq (d := x / 60) (m := 60) (by rw [abs_lt]; omega) (by decide) (by decide)
  have hsecond := doubleMod_eq h (by rw [abs_lt]; exact hx)
  simp only [gregorianDateOfTime, hday, hhour, hminute, hhours, hminutes, hsecond, Int.floor_intCast]
  rfl

end Fields

end CFLite.Calendar
