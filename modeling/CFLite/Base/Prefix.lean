import Mathlib.Tactic.NormNum

/-!
# Shifts

The parts of `CoreFoundation_Prefix.h` that capacities are computed with:
`flsl`, the number of bits of an integer, and `1 << k`, which is computed in a
32-bit `int`.
-/

namespace CFLite

/-- `flsl` -/
def flsl (mask : Nat) : Nat := if mask = 0 then 0 else flsl (mask / 2) + 1

theorem flsl_le_iff {n k : Nat} : flsl n ≤ k ↔ n < 2 ^ k := by
  induction k generalizing n with
  | zero =>
    rw [flsl]
    split <;> omega
  | succ k ih =>
    rw [flsl]
    split
    · rename_i hn
      simp [hn]
    · rw [Nat.add_le_add_iff_right, ih, Nat.pow_succ]
      omega

theorem flsl_two_pow {k : Nat} (hk : 0 < k) : flsl (2 ^ k + 1) = k + 1 := by
  have h : 2 ≤ 2 ^ k := Nat.le_self_pow (by omega) 2
  have hle : flsl (2 ^ k + 1) ≤ k + 1 := flsl_le_iff.mpr (by rw [Nat.pow_succ]; omega)
  have hgt : ¬ flsl (2 ^ k + 1) ≤ k := by rw [flsl_le_iff]; omega
  omega

/-- `1 << k` -/
def oneShl (k : Nat) : Int := (1#32 <<< k).toInt

theorem oneShl_eq {k : Nat} (h : k < 31) : oneShl k = 2 ^ k := by
  have key : ∀ k < 31, oneShl k = 2 ^ k := by decide
  exact key k h

/-- The sign bit of an `int`. -/
theorem oneShl_31 : oneShl 31 = -2 ^ 31 := by decide

end CFLite
