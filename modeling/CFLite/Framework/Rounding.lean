import Mathlib.Data.Int.Log
import Mathlib.Data.Rat.Floor
import Mathlib.Tactic.FieldSimp
import Mathlib.Tactic.Linarith
import Mathlib.Tactic.Positivity
import Mathlib.Tactic.Ring

/-!
# Rounding to a number of binary digits

`nearest p q` is the number of `p` binary digits that is nearest to `q`, the
even one of two: what an operation with floating-point numbers gives for the
exact result `q`, as long as the exponent is in range.

* `nearest_of_digits`: a number of `p` digits stays as it is;
* `abs_nearest_sub_le`: the error is half a unit in the last place;
* `floor_nearest_div`: the floor of a quotient is right, although the quotient
  is rounded, when dividend and divisor are multiples of a unit that the
  dividend needs no more than `p` digits for.
-/

namespace CFLite.Framework.Rounding

/-- The nearest integer, the even one of two. -/
def roundEven (q : ℚ) : ℤ :=
  if 2 * (q - ⌊q⌋) < 1 ∨ (2 * (q - ⌊q⌋) = 1 ∧ ⌊q⌋ % 2 = 0) then ⌊q⌋ else ⌊q⌋ + 1

/-- The unit in the last place. -/
def ulp (p : ℕ) (q : ℚ) : ℚ := 2 ^ (Int.log 2 |q| + 1 - p)

def nearest (p : ℕ) (q : ℚ) : ℚ := roundEven (q / ulp p q) * ulp p q

/-! ## Integers -/

@[simp] theorem roundEven_intCast (n : ℤ) : roundEven n = n := by
  simp [roundEven]

theorem abs_roundEven_sub_le (q : ℚ) : |roundEven q - q| ≤ 1 / 2 := by
  have hfloor := Int.floor_le q
  have hlt := Int.lt_floor_add_one q
  rw [roundEven, abs_le]
  split_ifs with h
  · constructor
    · rcases h with h | h
      · linarith
      · linarith [h.1]
    · linarith
  · rw [not_or, not_lt] at h
    push_cast
    constructor
    · linarith
    · linarith [h.1]

theorem roundEven_neg (q : ℚ) : roundEven (-q) = -roundEven q := by
  by_cases hq : (⌊q⌋ : ℚ) = q
  · rw [← hq, ← Int.cast_neg, roundEven_intCast, roundEven_intCast]
  · have hfloor := Int.floor_le q
    have hlt := Int.lt_floor_add_one q
    have hneg : ⌊-q⌋ = -⌊q⌋ - 1 := by
      have hne := lt_of_le_of_ne hfloor hq
      refine Int.floor_eq_iff.mpr ⟨?_, ?_⟩
      · push_cast
        linarith
      · push_cast
        linarith
    have hsum : 2 * (-q - ((-⌊q⌋ - 1 : ℤ) : ℚ)) = 2 - 2 * (q - ⌊q⌋) := by
      push_cast
      ring
    rw [roundEven, roundEven, hneg, hsum]
    split_ifs with h h' h'
    · rcases h with h | h <;> rcases h' with h' | h'
      · linarith
      · linarith [h'.1]
      · linarith [h.1]
      · omega
    · ring
    · ring
    · rw [not_or, not_lt] at h h'
      have htie : 2 * (q - ⌊q⌋) = 1 := by linarith [h.1, h'.1]
      have hodd := not_and.mp h'.2 htie
      have hodd' := not_and.mp h.2 (by linarith)
      omega

/-- Rounding a quotient of natural numbers. -/
theorem roundEven_div (a : ℕ) {b : ℕ} (hb : 0 < b) :
    roundEven ((a : ℚ) / b) =
      if 2 * (a % b) < b ∨ (2 * (a % b) = b ∧ a / b % 2 = 0) then ((a / b : ℕ) : ℤ) else ((a / b + 1 : ℕ) : ℤ) := by
  have hpos : (0 : ℚ) < b := Nat.cast_pos.mpr hb
  have hfloor : ⌊(a : ℚ) / b⌋ = ((a / b : ℕ) : ℤ) := by
    rw [Rat.floor_natCast_div_natCast]
    rfl
  have hrest : 2 * ((a : ℚ) / b - ((a / b : ℕ) : ℚ)) = 2 * ((a % b : ℕ) : ℚ) / b := by
    have hsplit : (a : ℚ) = b * ((a / b : ℕ) : ℚ) + ((a % b : ℕ) : ℚ) := by exact_mod_cast (Nat.div_add_mod a b).symm
    field_simp
    linarith
  have hlt : 2 * ((a % b : ℕ) : ℚ) / b < 1 ↔ 2 * (a % b) < b := by
    rw [div_lt_one hpos]
    exact_mod_cast Iff.rfl
  have heq : 2 * ((a % b : ℕ) : ℚ) / b = 1 ↔ 2 * (a % b) = b := by
    rw [div_eq_one_iff_eq hpos.ne']
    exact_mod_cast Iff.rfl
  have heven : ((a / b : ℕ) : ℤ) % 2 = 0 ↔ a / b % 2 = 0 := by omega
  simp only [roundEven, hfloor, Int.cast_natCast, hrest, hlt, heq, heven]
  split_ifs <;> push_cast <;> rfl

/-! ## Units in the last place -/

theorem ulp_pos (p : ℕ) (q : ℚ) : 0 < ulp p q := zpow_pos (by norm_num) _

theorem nearest_neg (p : ℕ) (q : ℚ) : nearest p (-q) = -nearest p q := by
  rw [nearest, nearest, ulp, abs_neg, ← ulp, neg_div, roundEven_neg]
  push_cast
  ring

theorem abs_nearest_sub_le (p : ℕ) (q : ℚ) : |nearest p q - q| ≤ ulp p q / 2 := by
  have hpos := ulp_pos p q
  have hscaled : nearest p q - q = (roundEven (q / ulp p q) - q / ulp p q) * ulp p q := by
    rw [nearest, sub_mul, div_mul_cancel₀ q hpos.ne']
  calc |nearest p q - q| = |roundEven (q / ulp p q) - q / ulp p q| * ulp p q := by
        rw [hscaled, abs_mul, abs_of_pos hpos]
    _ ≤ 1 / 2 * ulp p q := mul_le_mul_of_nonneg_right (abs_roundEven_sub_le _) hpos.le
    _ = ulp p q / 2 := by ring

/-- A multiple of the unit is not rounded. -/
theorem nearest_of_multiple {p : ℕ} {q : ℚ} {n : ℤ} (h : q = n * ulp p q) : nearest p q = q := by
  have hquot : q / ulp p q = n := by
    rw [div_eq_iff (ulp_pos p q).ne']
    exact h
  rw [nearest, hquot, roundEven_intCast]
  exact h.symm

theorem ulp_eq {p : ℕ} {q : ℚ} {e : ℤ} (hlow : (2 : ℚ) ^ e ≤ |q|) (hhigh : |q| < 2 ^ (e + 1)) :
    ulp p q = 2 ^ (e + 1 - p) := by
  have hpos : 0 < |q| := (zpow_pos (by norm_num) e).trans_le hlow
  have hle : e ≤ Int.log 2 |q| := (Int.zpow_le_iff_le_log (b := 2) (by decide) hpos).mp (by exact_mod_cast hlow)
  have hlt : Int.log 2 |q| < e + 1 := (Int.lt_zpow_iff_log_lt (b := 2) (by decide) hpos).mp (by exact_mod_cast hhigh)
  rw [ulp, show Int.log 2 |q| = e by omega]

theorem ulp_le {p : ℕ} {q : ℚ} (hq : q ≠ 0) : ulp p q ≤ |q| * 2 ^ (1 - p : ℤ) := by
  have hle := Int.zpow_log_le_self (b := 2) (by decide) (abs_pos.mpr hq)
  rw [ulp, add_sub_assoc, zpow_add₀ (by norm_num)]
  exact mul_le_mul_of_nonneg_right (by exact_mod_cast hle) (zpow_pos (by norm_num) _).le

/-- A number of `p` digits stays as it is. -/
theorem nearest_of_digits {p : ℕ} {n : ℤ} (j : ℤ) (h : |n| < 2 ^ p) : nearest p (n * 2 ^ j) = n * 2 ^ j := by
  rcases eq_or_ne n 0 with rfl | hn
  · simp [nearest, roundEven]
  have hq : |(n : ℚ) * 2 ^ j| = |(n : ℚ)| * 2 ^ j := by
    rw [abs_mul, abs_of_pos (zpow_pos (by norm_num : (0 : ℚ) < 2) j)]
  have habs : 0 < |(n : ℚ)| := abs_pos.mpr (Int.cast_ne_zero.mpr hn)
  have hlow := Int.zpow_log_le_self (b := 2) (by decide) habs
  have hhigh := Int.lt_zpow_succ_log_self (b := 2) (by decide) |(n : ℚ)|
  have hlog : Int.log 2 |(n : ℚ)| ≤ p - 1 := by
    have hlt : |(n : ℚ)| < ((2 : ℕ) : ℚ) ^ (p : ℤ) := by
      rw [zpow_natCast]
      exact_mod_cast h
    have := (Int.lt_zpow_iff_log_lt (b := 2) (by decide) habs).mp hlt
    omega
  generalize Int.log 2 |(n : ℚ)| = e at hlow hhigh hlog
  push_cast at hlow hhigh
  have hj : (0 : ℚ) < 2 ^ j := zpow_pos (by norm_num) j
  have hulp : ulp p ((n : ℚ) * 2 ^ j) = 2 ^ (e + j + 1 - p) := by
    refine ulp_eq ?_ ?_
    · rw [hq, zpow_add₀ (by norm_num)]
      exact mul_le_mul_of_nonneg_right hlow hj.le
    · rw [hq, show e + j + 1 = e + 1 + j by ring, zpow_add₀ (by norm_num)]
      exact mul_lt_mul_of_pos_right hhigh hj
  obtain ⟨k, hk⟩ : ∃ k : ℕ, (k : ℤ) = p - 1 - e := ⟨(p - 1 - e).toNat, by omega⟩
  refine nearest_of_multiple (n := n * 2 ^ k) ?_
  rw [hulp]
  push_cast
  rw [mul_assoc, ← zpow_natCast, ← zpow_add₀ (by norm_num), hk]
  congr 2
  ring

theorem nearest_intCast {p : ℕ} {n : ℤ} (h : |n| < 2 ^ p) : nearest p n = n := by
  simpa using nearest_of_digits 0 h

/-! ## Quotients -/

/-- What is less than the distance to the next integer away is on the same side
of it. -/
theorem floor_eq_of_abs_sub_lt {q r d : ℚ} (h : |r - q| < d) (hbelow : ⌊q⌋ + d ≤ q) (habove : q + d ≤ ⌊q⌋ + 1) :
    ⌊r⌋ = ⌊q⌋ := by
  rw [abs_lt] at h
  exact Int.floor_eq_iff.mpr ⟨by linarith, by linarith⟩

/-- Quotients of multiples of `2 ^ j` that are not integers are `2 ^ j / m` away
from every integer, and the error of rounding is less than that. -/
theorem floor_nearest_div {p j : ℕ} {n : ℤ} {m : ℕ} (hm : 0 < m) (hn : |n| < 2 ^ (p + j)) (hdvd : (2 : ℤ) ^ j ∣ n)
    (hdvd' : (2 : ℤ) ^ j ∣ m) : ⌊nearest p ((n : ℚ) / m)⌋ = n / m := by
  have hpos : (0 : ℚ) < m := Nat.cast_pos.mpr hm
  have hunit : (0 : ℤ) < 2 ^ j := by positivity
  have hfloor : ⌊(n : ℚ) / m⌋ = n / m := Rat.floor_intCast_div_natCast n m
  have hrest : (n : ℚ) = m * (n / m : ℤ) + (n % m : ℤ) := by exact_mod_cast (Int.mul_ediv_add_emod n m).symm
  have hlt := Int.emod_lt_of_pos n (Int.natCast_pos.mpr hm)
  have hdvdRest : (2 : ℤ) ^ j ∣ n % m := by
    rw [Int.dvd_iff_emod_eq_zero, Int.emod_emod_of_dvd n hdvd', Int.emod_eq_zero_of_dvd hdvd]
  rcases eq_or_ne (n % m) 0 with hzero | hne
  · have hquot : (n : ℚ) / m = (n / m : ℤ) := by
      rw [div_eq_iff hpos.ne', hrest, hzero]
      push_cast
      ring
    have hle : (2 : ℤ) ^ j ≤ m := Int.le_of_dvd (Int.natCast_pos.mpr hm) hdvd'
    have hexact : |n / m| * m = |n| := by
      rw [← Nat.abs_cast m, ← abs_mul, Nat.abs_cast, Int.ediv_mul_cancel (Int.dvd_of_emod_eq_zero hzero)]
    have hdigits : |n / m| < 2 ^ p := by
      refine lt_of_mul_lt_mul_right ?_ hunit.le
      calc |n / m| * 2 ^ j ≤ |n / m| * m := mul_le_mul_of_nonneg_left hle (abs_nonneg _)
        _ = |n| := hexact
        _ < 2 ^ p * 2 ^ j := by rwa [← pow_add]
    rw [hquot, nearest_intCast hdigits, Int.floor_intCast]
  · have hge : 0 ≤ n % m := Int.emod_nonneg n (by omega)
    have hfirst : (2 : ℤ) ^ j ≤ n % m := Int.le_of_dvd (by omega) hdvdRest
    have hlast : (2 : ℤ) ^ j ≤ m - n % m := Int.le_of_dvd (by omega) (Int.dvd_sub hdvd' hdvdRest)
    have hquot : (n : ℚ) / m ≠ 0 := by
      rintro h
      rw [div_eq_zero_iff, Int.cast_eq_zero, Nat.cast_eq_zero] at h
      rcases h with rfl | rfl
      · exact hne (Int.zero_emod _)
      · exact absurd hm (lt_irrefl 0)
    have hbound : |(n : ℚ)| < 2 ^ (p + j) := by exact_mod_cast hn
    have herror : ulp p ((n : ℚ) / m) / 2 < 2 ^ j / m := by
      have hp : (0 : ℚ) < 2 ^ p := by positivity
      have hunits : (2 : ℚ) ^ (1 - p : ℤ) = 2 / 2 ^ p := by rw [zpow_sub₀ (by norm_num), zpow_one, zpow_natCast]
      calc ulp p ((n : ℚ) / m) / 2 ≤ |(n : ℚ) / m| * 2 ^ (1 - p : ℤ) / 2 := by linarith [ulp_le (p := p) hquot]
        _ = |(n : ℚ)| / 2 ^ p / m := by rw [hunits, abs_div, abs_of_pos hpos]; ring
        _ < 2 ^ j / m := by
          refine div_lt_div_of_pos_right ?_ hpos
          rwa [div_lt_iff₀ hp, mul_comm, ← pow_add]
    have hfirst' : (2 : ℚ) ^ j ≤ (n % m : ℤ) := by exact_mod_cast hfirst
    have hlast' : (2 : ℚ) ^ j ≤ m - (n % m : ℤ) := by exact_mod_cast hlast
    have hsum : (n : ℚ) / m = (n / m : ℤ) + ((n % m : ℤ) : ℚ) / m := by
      rw [div_eq_iff hpos.ne', add_mul, div_mul_cancel₀ _ hpos.ne', mul_comm]
      exact hrest
    rw [← hfloor]
    refine floor_eq_of_abs_sub_lt ((abs_nearest_sub_le p _).trans_lt herror) ?_ ?_
    · rw [hfloor, hsum]
      exact add_le_add_right (div_le_div_of_nonneg_right hfirst' hpos.le) _
    · rw [hfloor, hsum, add_assoc, ← add_div]
      refine add_le_add_right ((div_le_one hpos).mpr ?_) _
      linarith

end CFLite.Framework.Rounding
