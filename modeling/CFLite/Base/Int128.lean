import CFLite.Base.Comparison
import CFLite.Framework.TwosComplement

/-!
# Integers of two words

`CFSInt128Struct` and its comparison, addition and negation, from `CFNumber.c`:
each works on the two words, the high one with a sign, and is the operation on
128 bits.
-/

namespace CFLite

/-- `CFSInt128Struct` -/
structure CFSInt128Struct where
  high : BitVec 64
  low : BitVec 64
  deriving DecidableEq, Repr

namespace CFSInt128Struct

variable (a b : CFSInt128Struct)

/-- The 128 bits of the two words. -/
def bits : BitVec 128 := a.high ++ a.low

/-- The integer that the two words stand for. -/
def value : Int := a.bits.toInt

def isNeg128 : Bool := a.high.toInt < 0

def cmp128 : CFComparisonResult :=
  if a.high.toInt < b.high.toInt then .lt
  else if b.high.toInt < a.high.toInt then .gt
  else if a.low.toNat < b.low.toNat then .lt
  else if b.low.toNat < a.low.toNat then .gt
  else .eq

def add128 : CFSInt128Struct :=
  let high := a.high + b.high
  ⟨if 2 ^ 64 - 1 - a.low.toNat < b.low.toNat then high + 1 else high, a.low + b.low⟩

def neg128 : CFSInt128Struct :=
  let tmplow := ~~~a.low
  ⟨if 2 ^ 64 - 1 = tmplow.toNat then ~~~a.high + 1 else ~~~a.high, tmplow + 1⟩

variable {a b}

theorem value_eq : a.value = 2 ^ 64 * a.high.toInt + a.low.toNat := Framework.toInt_halves (by decide) a.high a.low

theorem isNeg128_iff : a.isNeg128 = true ↔ a.value < 0 := by
  have hlow := a.low.isLt
  rw [isNeg128, decide_eq_true_iff, value_eq]
  omega

theorem value_bounds (a : CFSInt128Struct) : -2 ^ 127 ≤ a.value ∧ a.value < 2 ^ 127 := Framework.fits_toInt a.bits

theorem toNat_bits (a : CFSInt128Struct) : a.bits.toNat = 2 ^ 64 * a.high.toNat + a.low.toNat := by
  rw [bits, BitVec.toNat_append, ← Nat.shiftLeft_add_eq_or_of_lt a.low.isLt, Nat.shiftLeft_eq, Nat.mul_comm]

theorem bits_add128 (a b : CFSInt128Struct) : (add128 a b).bits = a.bits + b.bits := by
  have ha := a.low.isLt
  have hb := b.low.isLt
  apply BitVec.eq_of_toNat_eq
  have hone : (1 : BitVec 64).toNat = 1 := rfl
  rw [BitVec.toNat_add, toNat_bits, toNat_bits, toNat_bits, add128]
  dsimp only
  split <;> simp only [BitVec.toNat_add, hone] <;> omega

theorem bits_neg128 (a : CFSInt128Struct) : (neg128 a).bits = -a.bits := by
  have hlow := a.low.isLt
  have hhigh := a.high.isLt
  apply BitVec.eq_of_toNat_eq
  have hone : (1 : BitVec 64).toNat = 1 := rfl
  rw [BitVec.toNat_neg, toNat_bits, toNat_bits, neg128]
  dsimp only
  rw [BitVec.toNat_not]
  split <;> simp only [BitVec.toNat_add, BitVec.toNat_not, hone] <;> omega

/-- A sum that fits is the sum of the values. -/
theorem value_add128 (h : Framework.Fits 128 (a.value + b.value)) : (add128 a b).value = a.value + b.value := by
  rw [value, bits_add128, BitVec.toInt_add]
  exact Int.bmod_eq_of_le_mul_two (by have := h.1; simp only [value] at *; omega) (by have := h.2; simp only [value] at *; omega)

/-- All values but the least have a negation. -/
theorem value_neg128 (h : a.value ≠ -2 ^ 127) : (neg128 a).value = -a.value := by
  have hbounds := a.value_bounds
  rw [value, bits_neg128, BitVec.toInt_neg]
  exact Int.bmod_eq_of_le_mul_two (by simp only [value] at *; omega) (by simp only [value] at *; omega)

/-- The least value is its own negation. -/
theorem value_neg128_least (h : a.value = -2 ^ 127) : (neg128 a).value = -2 ^ 127 := by
  rw [value, bits_neg128, BitVec.toInt_neg, show a.bits.toInt = -2 ^ 127 from h]
  decide

/-- The words are compared as the values are. -/
theorem cmp128_eq (a b : CFSInt128Struct) : cmp128 a b = compare a.value b.value := by
  have ha := a.low.isLt
  have hb := b.low.isLt
  have hvalue := a.value_eq
  have hvalue' := b.value_eq
  unfold cmp128
  split_ifs
  · exact (compare_lt_iff_lt.mpr (by omega)).symm
  · exact (compare_gt_iff_gt.mpr (by omega)).symm
  · exact (compare_lt_iff_lt.mpr (by omega)).symm
  · exact (compare_gt_iff_gt.mpr (by omega)).symm
  · exact (compare_eq_iff_eq.mpr (by omega)).symm

end CFSInt128Struct

end CFLite
