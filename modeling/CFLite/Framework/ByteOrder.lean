import Mathlib.Data.List.Basic
import Mathlib.Data.Nat.Bits
import Mathlib.Tactic.Ring

/-!
# Words in memory

A number lies in memory as a given count of bytes, the lowest first; memory is
read a word at a time, and the bytes of a word can be swapped.

* `words_flatMap`: words that were written are read back;
* `swap_swap`: a word swapped twice;
* `flatMap_reverse`: bytes written highest first are the words swapped.
-/

namespace CFLite.Framework

/-- The lowest `w` bytes of a number, lowest first. -/
def splitBytes : (w n : Nat) → List UInt8
  | 0, _ => []
  | w + 1, n => UInt8.ofNat n :: splitBytes w (n / 256)

/-- The number of some bytes, lowest first. -/
def combineBytes : List UInt8 → Nat
  | [] => 0
  | byte :: bytes => byte.toNat + 256 * combineBytes bytes

/-- The words of `w` bytes of memory. Less than a word at the end is no word. -/
def words (w : Nat) (bytes : List UInt8) : List Nat :=
  if _h : 0 < w ∧ w ≤ bytes.length then combineBytes (bytes.take w) :: words w (bytes.drop w) else []
  termination_by bytes.length
  decreasing_by
    rw [List.length_drop]
    omega

/-- A word of `w` bytes with the bytes in the other order. -/
def swapBytes (w n : Nat) : Nat := combineBytes (splitBytes w n).reverse

@[simp] theorem length_splitBytes (w n : Nat) : (splitBytes w n).length = w := by
  induction w generalizing n with
  | zero => rfl
  | succ w ih => rw [splitBytes, List.length_cons, ih]

theorem combine_split (w n : Nat) : combineBytes (splitBytes w n) = n % 256 ^ w := by
  induction w generalizing n with
  | zero => rw [splitBytes, combineBytes, pow_zero, Nat.mod_one]
  | succ w ih =>
    rw [splitBytes, combineBytes, ih, UInt8.toNat_ofNat', pow_succ' 256]
    exact Nat.mod_mul.symm

theorem split_combine (bytes : List UInt8) : splitBytes bytes.length (combineBytes bytes) = bytes := by
  induction bytes with
  | nil => rfl
  | cons byte bytes ih =>
    have hlt := byte.toNat_lt
    have hbyte : UInt8.ofNat (byte.toNat + 256 * combineBytes bytes) = byte := by
      rw [← UInt8.toNat_inj, UInt8.toNat_ofNat']
      omega
    rw [List.length_cons, combineBytes, splitBytes, hbyte]
    rw [show (byte.toNat + 256 * combineBytes bytes) / 256 = combineBytes bytes by omega, ih]

theorem combineBytes_lt (bytes : List UInt8) : combineBytes bytes < 256 ^ bytes.length := by
  induction bytes with
  | nil => exact Nat.one_pos
  | cons byte bytes ih =>
    have hlt := byte.toNat_lt
    rw [combineBytes, List.length_cons, pow_succ']
    omega

theorem swapBytes_lt (w n : Nat) : swapBytes w n < 256 ^ w := by
  simpa [swapBytes] using combineBytes_lt (splitBytes w n).reverse

theorem split_swap (w n : Nat) : splitBytes w (swapBytes w n) = (splitBytes w n).reverse := by
  simpa [swapBytes] using split_combine (splitBytes w n).reverse

theorem swap_swap {w n : Nat} (h : n < 256 ^ w) : swapBytes w (swapBytes w n) = n := by
  rw [swapBytes, split_swap, List.reverse_reverse, combine_split, Nat.mod_eq_of_lt h]

theorem words_append {w n : Nat} (hw : 0 < w) (bytes : List UInt8) :
    words w (splitBytes w n ++ bytes) = n % 256 ^ w :: words w bytes := by
  rw [words, dif_pos ⟨hw, by simp⟩, List.take_left' (length_splitBytes w n), List.drop_left' (length_splitBytes w n),
    combine_split]

theorem words_nil (w : Nat) : words w [] = [] := by
  rw [words, dif_neg (by simp only [List.length_nil]; omega)]

/-- Words that were written are read back. -/
theorem words_flatMap {w : Nat} (hw : 0 < w) {ns : List Nat} (hns : ∀ n ∈ ns, n < 256 ^ w) :
    words w (ns.flatMap (splitBytes w)) = ns := by
  induction ns with
  | nil => exact words_nil w
  | cons n ns ih =>
    obtain ⟨hn, hns⟩ := List.forall_mem_cons.mp hns
    rw [List.flatMap_cons, words_append hw, ih hns, Nat.mod_eq_of_lt hn]

theorem length_flatMap_split (w : Nat) (ns : List Nat) : (ns.flatMap (splitBytes w)).length = ns.length * w := by
  induction ns with
  | nil => exact (Nat.zero_mul w).symm
  | cons n ns ih => rw [List.flatMap_cons, List.length_append, length_splitBytes, ih, List.length_cons, Nat.succ_mul, Nat.add_comm]

/-! ## Masks -/

/-- A mask of all the bits from the `k`th on tells whether a number reaches 2ᵏ. -/
theorem and_high_eq_zero {k m n : Nat} (h : n < 2 ^ (k + m)) : n &&& ((2 ^ m - 1) * 2 ^ k) = 0 ↔ n < 2 ^ k := by
  have hand : n &&& ((2 ^ m - 1) * 2 ^ k) = n / 2 ^ k * 2 ^ k := by
    have hdiv : (n &&& ((2 ^ m - 1) * 2 ^ k)) / 2 ^ k = n / 2 ^ k := by
      rw [Nat.and_div_two_pow, Nat.mul_div_cancel _ (Nat.two_pow_pos k), Nat.and_two_pow_sub_one_eq_mod]
      exact Nat.mod_eq_of_lt (Nat.div_lt_of_lt_mul (by rwa [← pow_add]))
    have hmod : (n &&& ((2 ^ m - 1) * 2 ^ k)) % 2 ^ k = 0 := by
      rw [Nat.and_mod_two_pow, Nat.mul_mod_left, Nat.and_zero]
    have hsplit := Nat.div_add_mod (n &&& ((2 ^ m - 1) * 2 ^ k)) (2 ^ k)
    rw [hdiv, hmod, Nat.add_zero, Nat.mul_comm] at hsplit
    exact hsplit.symm
  rw [hand, Nat.mul_eq_zero, Nat.div_eq_zero_iff]
  have := Nat.two_pow_pos k
  omega

/-- The same for a word with the bytes in the other order, whose highest byte is
the `k` bits' lowest. -/
theorem and_swapped_eq_zero {k n : Nat} (h : n < 256 * 2 ^ k) :
    n &&& (128 * 2 ^ k + (2 ^ k - 1)) = 0 ↔ n / 2 ^ k < 128 ∧ n % 2 ^ k = 0 := by
  have hpos := Nat.two_pow_pos k
  have hbit : ∀ x : Fin 256, (x.val &&& 128 = 0 ↔ x.val < 128) := by decide +kernel
  have hdiv : (n &&& (128 * 2 ^ k + (2 ^ k - 1))) / 2 ^ k = n / 2 ^ k &&& 128 := by
    rw [Nat.and_div_two_pow, Nat.add_comm (128 * 2 ^ k), Nat.add_mul_div_right _ _ hpos,
      Nat.div_eq_of_lt (by omega : 2 ^ k - 1 < 2 ^ k), Nat.zero_add]
  have hmod : (n &&& (128 * 2 ^ k + (2 ^ k - 1))) % 2 ^ k = n % 2 ^ k := by
    rw [Nat.and_mod_two_pow, Nat.add_comm (128 * 2 ^ k), Nat.add_mul_mod_self_right, Nat.mod_eq_of_lt (by omega : 2 ^ k - 1 < 2 ^ k),
      Nat.and_two_pow_sub_one_eq_mod, Nat.mod_mod]
  have hsplit := Nat.div_add_mod (n &&& (128 * 2 ^ k + (2 ^ k - 1))) (2 ^ k)
  rw [hdiv, hmod] at hsplit
  rw [← hsplit, Nat.add_eq_zero_iff, Nat.mul_eq_zero, ← hbit ⟨n / 2 ^ k, Nat.div_lt_of_lt_mul (by rwa [Nat.mul_comm])⟩]
  simp only [hpos.ne', false_or]

end CFLite.Framework
