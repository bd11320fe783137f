import Mathlib.Algebra.Group.Nat.Defs
import Mathlib.Algebra.Group.Int.Defs
import Mathlib.Data.Int.Order.Basic

/-!
# Conversions between integers of fixed widths

The casts of C between signed integer types, on bit vectors: the lower bits
(`setWidth`) and the sign extension (`signExtend`).

* `toInt_setWidth_of_fits`, `widen_narrow_iff`: a value survives a narrowing
  cast if and only if it fits the narrower type;
* `toInt_halves`: an integer stored as two words.
-/

namespace CFLite.Framework

/-- `v` is a value of the signed integers of `w` bits. -/
def Fits (w : Nat) (v : Int) : Prop := -2 ^ (w - 1) ≤ v ∧ v < 2 ^ (w - 1)

instance (w : Nat) (v : Int) : Decidable (Fits w v) := inferInstanceAs (Decidable (_ ∧ _))

/-- The end of the range of `w` bits next to a value outside it. -/
def nearestEnd (w : Nat) (v : Int) : Int := if v < 0 then -2 ^ (w - 1) else 2 ^ (w - 1) - 1

theorem fits_toInt {w : Nat} (x : BitVec w) : Fits w x.toInt := ⟨BitVec.le_toInt x, BitVec.toInt_lt⟩

/-- Narrower ranges lie in wider ones. -/
theorem Fits.mono {w n : Nat} {v : Int} (h : Fits w v) (hle : w ≤ n) : Fits n v := by
  have hpow : 2 ^ (w - 1) ≤ 2 ^ (n - 1) := Nat.pow_le_pow_right (by decide) (show w - 1 ≤ n - 1 by omega)
  have hcast : ((2 ^ (w - 1) : Nat) : Int) ≤ (2 ^ (n - 1) : Nat) := Int.ofNat_le.mpr hpow
  push_cast at hcast
  exact ⟨by have := h.1; omega, by have := h.2; omega⟩

theorem toInt_ofInt_of_fits {w : Nat} (hw : 0 < w) {v : Int} (h : Fits w v) : (BitVec.ofInt w v).toInt = v :=
  BitVec.toInt_ofInt_eq_self hw h.1 h.2

section Narrowing

variable {w n : Nat} {x : BitVec n}

/-- A value that fits is kept by a narrowing cast. -/
theorem toInt_setWidth_of_fits (hw : 0 < w) (hle : w ≤ n) (h : Fits w x.toInt) : (x.setWidth w).toInt = x.toInt := by
  rw [← BitVec.signExtend_eq_setWidth_of_le x hle, BitVec.toInt_signExtend_eq_toInt_bmod_of_le x hle,
    ← BitVec.toInt_ofInt]
  exact toInt_ofInt_of_fits hw h

/-- Narrowed and widened again, exactly the values that fit are the same. -/
theorem widen_narrow_iff (hw : 0 < w) (hle : w ≤ n) : (x.setWidth w).signExtend n = x ↔ Fits w x.toInt := by
  rw [← BitVec.toInt_inj, BitVec.toInt_signExtend_of_le hle]
  exact ⟨fun h => h ▸ fits_toInt _, toInt_setWidth_of_fits hw hle⟩

end Narrowing

/-- Two words as one integer: the high one counts with its sign. -/
theorem toInt_halves {n : Nat} (hn : 0 < n) (high low : BitVec n) :
    (high ++ low).toInt = 2 ^ n * high.toInt + low.toNat := by
  rw [BitVec.toInt_append, if_neg (by simpa using Nat.ne_of_gt hn)]

end CFLite.Framework
