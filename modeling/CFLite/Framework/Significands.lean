import Mathlib.Tactic.LinearCombination
import CFLite.Framework.Rounding

/-!
# Numbers with a bounded significand

`HasDigits p q`: the number `q` is an integer of at most `p` binary digits times
a power of two, so that rounding to `p` digits keeps it.

* `HasDigits.nearest_eq`, `HasDigits.floor`, `HasDigits.sub_block`: rounding,
  floor and the distance to a multiple of a power of two below;
* `nearest_block_add`: a number that is added to a power of two is rounded to a
  multiple of a fixed unit.
-/

namespace CFLite.Framework.Rounding

/-- An integer of at most `p` binary digits times a power of two. -/
def HasDigits (p : ℕ) (q : ℚ) : Prop := ∃ n e : ℤ, q = n * 2 ^ e ∧ |n| ≤ 2 ^ p

variable {p : ℕ} {q : ℚ}

theorem hasDigits_intCast {n : ℤ} (h : |n| ≤ 2 ^ p) : HasDigits p n := ⟨n, 0, by simp, h⟩

theorem HasDigits.mono {p' : ℕ} (h : HasDigits p q) (hle : p ≤ p') : HasDigits p' q := by
  obtain ⟨n, e, heq, hn⟩ := h
  exact ⟨n, e, heq, hn.trans (pow_le_pow_right₀ (by decide) hle)⟩

theorem HasDigits.neg (h : HasDigits p q) : HasDigits p (-q) := by
  obtain ⟨n, e, rfl, hn⟩ := h
  exact ⟨-n, e, by push_cast; ring, by rwa [abs_neg]⟩

theorem HasDigits.mul_zpow (h : HasDigits p q) (k : ℤ) : HasDigits p (q * 2 ^ k) := by
  obtain ⟨n, e, rfl, hn⟩ := h
  exact ⟨n, e + k, by rw [zpow_add₀ (by norm_num), mul_assoc], hn⟩

theorem HasDigits.nearest_eq (hp : 0 < p) (h : HasDigits p q) : nearest p q = q := by
  obtain ⟨n, e, rfl, hn⟩ := h
  rcases lt_or_eq_of_le hn with hlt | heq
  · exact nearest_of_digits e hlt
  · -- `2 ^ p` has one digit
    obtain ⟨s, hs, hone⟩ : ∃ s : ℤ, n = s * 2 ^ p ∧ |s| = 1 := by
      rcases abs_cases n with ⟨habs, -⟩ | ⟨habs, -⟩
      · exact ⟨1, by omega, by decide⟩
      · exact ⟨-1, by omega, by decide⟩
    have hsplit : (n : ℚ) * 2 ^ e = s * 2 ^ (p + e) := by
      rw [hs, zpow_add₀ (by norm_num), zpow_natCast, ← mul_assoc]
      push_cast
      rfl
    rw [hsplit]
    exact nearest_of_digits _ (by rw [hone]; exact one_lt_pow₀ (by decide) hp.ne')

theorem HasDigits.floor (h : HasDigits p q) : HasDigits p ⌊q⌋ := by
  obtain ⟨n, e, rfl, hn⟩ := h
  rcases le_or_gt 0 e with he | he
  · obtain ⟨k, rfl⟩ := Int.eq_ofNat_of_zero_le he
    refine ⟨n, k, ?_, hn⟩
    have hint : (n : ℚ) * 2 ^ (k : ℤ) = ((n * 2 ^ k : ℤ) : ℚ) := by push_cast; rfl
    rw [hint, Int.floor_intCast]
  · have hone : (2 : ℚ) ^ e ≤ 1 := zpow_le_one_of_nonpos₀ (by norm_num) he.le
    have hbound : |(n : ℚ) * 2 ^ e| ≤ 2 ^ p := by
      rw [abs_mul, abs_of_pos (zpow_pos (by norm_num : (0 : ℚ) < 2) e)]
      calc |(n : ℚ)| * 2 ^ e ≤ |(n : ℚ)| * 1 := mul_le_mul_of_nonneg_left hone (abs_nonneg _)
        _ ≤ 2 ^ p := by rw [mul_one]; exact_mod_cast hn
    rw [abs_le] at hbound
    refine hasDigits_intCast (abs_le.mpr ⟨Int.le_floor.mpr ?_, ?_⟩)
    · push_cast
      exact hbound.1
    · exact Int.floor_le_iff.mpr (by push_cast; linarith)

/-- A number that is too large for its digits to reach below one is an
integer. -/
theorem HasDigits.floor_eq (h : HasDigits p q) (hlarge : 2 ^ p < |q|) : (⌊q⌋ : ℚ) = q := by
  obtain ⟨n, e, rfl, hn⟩ := h
  rcases le_or_gt 0 e with he | he
  · obtain ⟨k, rfl⟩ := Int.eq_ofNat_of_zero_le he
    have hint : (n : ℚ) * 2 ^ (k : ℤ) = ((n * 2 ^ k : ℤ) : ℚ) := by push_cast; rfl
    rw [hint, Int.floor_intCast]
  · have hone : (2 : ℚ) ^ e ≤ 1 := zpow_le_one_of_nonpos₀ (by norm_num) he.le
    rw [abs_mul, abs_of_pos (zpow_pos (by norm_num : (0 : ℚ) < 2) e)] at hlarge
    have hbound : |(n : ℚ)| * 2 ^ e ≤ 2 ^ p := by
      calc |(n : ℚ)| * 2 ^ e ≤ |(n : ℚ)| * 1 := mul_le_mul_of_nonneg_left hone (abs_nonneg _)
        _ ≤ 2 ^ p := by rw [mul_one]; exact_mod_cast hn
    exact absurd hlarge hbound.not_gt

/-- What is left of a number below a multiple of `2 ^ k` needs no more digits,
unless the number is negative and less than half of `2 ^ k` below zero. -/
theorem HasDigits.sub_block (h : HasDigits p q) (k : ℕ) (hq : 0 ≤ q ∨ q < -2 ^ k / 2) :
    HasDigits p (q - ⌊q / 2 ^ k⌋ * 2 ^ k) := by
  obtain ⟨n, e, rfl, hn⟩ := h
  rcases le_or_gt (k : ℤ) e with he | he
  · have hint : (n : ℚ) * 2 ^ e / 2 ^ k = ((n * 2 ^ (e - k).toNat : ℤ) : ℚ) := by
      rw [div_eq_iff (by positivity)]
      push_cast
      rw [mul_assoc, ← zpow_natCast, ← zpow_natCast, ← zpow_add₀ (by norm_num)]
      congr 2
      omega
    rw [hint, Int.floor_intCast, ← hint, div_mul_cancel₀ _ (by positivity), sub_self]
    exact ⟨0, 0, by simp, by simp⟩
  · obtain ⟨j, hj⟩ : ∃ j : ℕ, (k : ℤ) = j + e := ⟨(k - e).toNat, by omega⟩
    have hblock : (2 : ℚ) ^ k = (2 ^ j : ℕ) * 2 ^ e := by
      rw [← zpow_natCast, hj, zpow_add₀ (by norm_num), zpow_natCast]
      push_cast
      rfl
    have he' : (0 : ℚ) < 2 ^ e := zpow_pos (by norm_num) e
    have hquot : ⌊(n : ℚ) * 2 ^ e / 2 ^ k⌋ = n / (2 ^ j : ℕ) := by
      rw [hblock, mul_div_mul_right _ _ he'.ne', Rat.floor_intCast_div_natCast]
    have hsplit := Int.mul_ediv_add_emod n (2 ^ j : ℕ)
    refine ⟨n % (2 ^ j : ℕ), e, ?_, ?_⟩
    · rw [hquot, hblock]
      have hcast : (n : ℚ) = (2 ^ j : ℕ) * ((n / (2 ^ j : ℕ) : ℤ) : ℚ) + ((n % (2 ^ j : ℕ) : ℤ) : ℚ) := by
        exact_mod_cast hsplit.symm
      linear_combination 2 ^ e * hcast
    · have hlow := Int.emod_nonneg n (show ((2 ^ j : ℕ) : ℤ) ≠ 0 by positivity)
      have hhigh := Int.emod_lt_of_pos n (show (0 : ℤ) < (2 ^ j : ℕ) by positivity)
      have hhalf : 0 ≤ n ∨ ((2 ^ j : ℕ) : ℤ) < -2 * n := by
        refine hq.imp (fun hq => ?_) (fun hq => ?_)
        · exact_mod_cast nonneg_of_mul_nonneg_left hq he'
        · rw [hblock] at hq
          have hlt : ((2 ^ j : ℕ) : ℚ) * 2 ^ e < (-2 * n) * 2 ^ e := by linarith
          exact_mod_cast lt_of_mul_lt_mul_right hlt he'.le
      rw [abs_of_nonneg hlow]
      rw [abs_le] at hn
      have hpos : (0 : ℤ) < (2 ^ j : ℕ) := by positivity
      generalize ((2 ^ j : ℕ) : ℤ) = block at *
      rcases hhalf with hnonneg | hneg
      · have hquot := mul_nonneg hpos.le (Int.ediv_nonneg hnonneg hpos.le)
        omega
      · by_cases hlarge : block ≤ -n
        · omega
        · have hrest : n % block = n + block := by
            rw [← Int.add_emod_right, Int.emod_eq_of_lt (by omega) (by omega)]
          omega

theorem roundEven_add_intCast {n : ℤ} (hn : n % 2 = 0) (q : ℚ) : roundEven (n + q) = n + roundEven q := by
  have hfloor : ⌊(n : ℚ) + q⌋ = n + ⌊q⌋ := Int.floor_intCast_add n q
  have hrest : (n : ℚ) + q - ((n + ⌊q⌋ : ℤ) : ℚ) = q - ⌊q⌋ := by
    push_cast
    ring
  have heven : (n + ⌊q⌋) % 2 = 0 ↔ ⌊q⌋ % 2 = 0 := by omega
  simp only [roundEven, hfloor, hrest, heven]
  split_ifs <;> ring

/-- The multiple of a unit that is nearest to a number, the even one of two. -/
def nearestMultiple (unit q : ℚ) : ℚ := roundEven (q / unit) * unit

/-- A number that is added to a power of two, at most down to its half, is
rounded to a multiple of one unit. -/
theorem nearest_block_add (hp : 0 < p) (k : ℕ) (hlow : -2 ^ k / 2 ≤ q) (hneg : q < 0) :
    nearest p (2 ^ k + q) = 2 ^ k + nearestMultiple (2 ^ (k - p : ℤ)) q := by
  have hhalf : (2 : ℚ) ^ (k - 1 : ℤ) = 2 ^ k / 2 := by rw [zpow_sub₀ (by norm_num), zpow_natCast, zpow_one]
  have hblock : (0 : ℚ) < 2 ^ k := by positivity
  have habs : |(2 : ℚ) ^ k + q| = 2 ^ k + q := abs_of_pos (by linarith)
  have hulp : ulp p ((2 : ℚ) ^ k + q) = 2 ^ (k - p : ℤ) := by
    rw [ulp_eq (e := k - 1)]
    · congr 1
      ring
    · rw [habs, hhalf]
      linarith
    · rw [habs, show (k : ℤ) - 1 + 1 = k by ring, zpow_natCast]
      linarith
  have hunit : (2 : ℚ) ^ (k - p : ℤ) ≠ 0 := zpow_ne_zero _ (by norm_num)
  have hdigits : (2 : ℚ) ^ k = ((2 ^ p : ℤ) : ℚ) * 2 ^ (k - p : ℤ) := by
    push_cast
    rw [← zpow_natCast, ← zpow_natCast, ← zpow_add₀ (by norm_num)]
    congr 1
    ring
  have hquot : ((2 : ℚ) ^ k + q) / 2 ^ (k - p : ℤ) = ((2 ^ p : ℤ) : ℚ) + q / 2 ^ (k - p : ℤ) := by
    rw [add_div, hdigits, mul_div_cancel_right₀ _ hunit]
  have heven : (2 ^ p : ℤ) % 2 = 0 := by
    obtain ⟨j, rfl⟩ := Nat.exists_eq_succ_of_ne_zero hp.ne'
    rw [pow_succ, Int.mul_emod_left]
  rw [nearest, hulp, hquot, roundEven_add_intCast heven, nearestMultiple, hdigits]
  push_cast
  ring

theorem abs_roundEven_le {n : ℤ} (h : |q| ≤ n) : |roundEven q| ≤ n := by
  have herror := abs_roundEven_sub_le q
  rw [abs_le] at *
  have hlow : (-n : ℤ) < roundEven q + 1 := by
    have hlt : ((-n : ℤ) : ℚ) < ((roundEven q + 1 : ℤ) : ℚ) := by
      push_cast
      linarith
    exact_mod_cast hlt
  have hhigh : roundEven q < n + 1 := by
    have hlt : (roundEven q : ℚ) < ((n + 1 : ℤ) : ℚ) := by
      push_cast
      linarith
    exact_mod_cast hlt
  omega

/-- A multiple of a unit that is nearest to a number has no more digits. -/
theorem HasDigits.nearestMultiple (h : HasDigits p q) (k : ℤ) : HasDigits p (nearestMultiple (2 ^ k) q) := by
  obtain ⟨n, e, rfl, hn⟩ := h
  have hunit : (2 : ℚ) ^ k ≠ 0 := zpow_ne_zero _ (by norm_num)
  have hquot : (n : ℚ) * 2 ^ e / 2 ^ k = n * 2 ^ (e - k) := by
    rw [zpow_sub₀ (by norm_num), mul_div_assoc]
  rw [Rounding.nearestMultiple, hquot]
  rcases le_or_gt k e with he | he
  · obtain ⟨j, hj⟩ := Int.eq_ofNat_of_zero_le (show 0 ≤ e - k by omega)
    have hint : (n : ℚ) * 2 ^ (e - k) = ((n * 2 ^ j : ℤ) : ℚ) := by
      rw [hj]
      push_cast
      rfl
    refine ⟨n, e, ?_, hn⟩
    rw [hint, roundEven_intCast, ← hint, mul_assoc, ← zpow_add₀ (by norm_num), Int.sub_add_cancel]
  · refine ⟨_, k, rfl, ?_⟩
    refine abs_roundEven_le ?_
    have hone : (2 : ℚ) ^ (e - k) ≤ 1 := zpow_le_one_of_nonpos₀ (by norm_num) (by omega)
    rw [abs_mul, abs_of_pos (zpow_pos (by norm_num : (0 : ℚ) < 2) _)]
    calc |(n : ℚ)| * 2 ^ (e - k) ≤ |(n : ℚ)| * 1 := mul_le_mul_of_nonneg_left hone (abs_nonneg _)
      _ ≤ ((2 ^ p : ℤ) : ℚ) := by rw [mul_one]; exact_mod_cast hn

/-- The result of a rounding has the digits that it was rounded to. -/
theorem hasDigits_nearest (p : ℕ) (q : ℚ) : HasDigits p (nearest p q) := by
  refine ⟨_, _, rfl, abs_roundEven_le ?_⟩
  have hpos := ulp_pos p q
  have hlt := Int.lt_zpow_succ_log_self (b := 2) (by decide) |q|
  push_cast at hlt
  rw [abs_div, abs_of_pos hpos, div_le_iff₀ hpos, ulp]
  push_cast
  rw [← zpow_natCast, ← zpow_add₀ (by norm_num), show (p : ℤ) + (Int.log 2 |q| + 1 - p) = Int.log 2 |q| + 1 by ring]
  exact hlt.le

end CFLite.Framework.Rounding
