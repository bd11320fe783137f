import Mathlib.Data.List.Basic

/-!
# Base-64 digits

Three bytes are four digits below 64. `digits` are the digits that are known
when some bytes have been read, `lastDigit` the digit of the bits that are left
over at the end, `padding` the number of digits that then stand for nothing.

* `digits_concat`: the digits that one more byte gives;
* `digits_lt`: they are below 64;
* `group_value`: four digits are the number that the three bytes are.
-/

namespace CFLite.Framework.Base64

/-- The digits of which all bits are known. -/
def digits : List Nat → List Nat
  | a :: b :: c :: rest => a / 4 :: (a % 4 * 16 + b / 16) :: (b % 16 * 4 + c / 64) :: c % 64 :: digits rest
  | [a, b] => [a / 4, a % 4 * 16 + b / 16]
  | [a] => [a / 4]
  | [] => []

/-- The digit of which some bits are missing. -/
def lastDigit : List Nat → List Nat
  | _ :: _ :: _ :: rest => lastDigit rest
  | [_, b] => [b % 16 * 4]
  | [a] => [a % 4 * 16]
  | [] => []

/-- The number of digits that are missing in the last group. -/
def padding (length : Nat) : Nat := (3 - length % 3) % 3

/-- The digits that a byte adds to those of the bytes before it. -/
def newDigits (before : List Nat) (c : Nat) : List Nat :=
  let b := before.getLastD 0
  match before.length % 3 with
  | 0 => [c / 4]
  | 1 => [b % 4 * 16 + c / 16]
  | _ => [b % 16 * 4 + c / 64, c % 64]

theorem digits_concat (bytes : List Nat) (c : Nat) : digits (bytes ++ [c]) = digits bytes ++ newDigits bytes c := by
  fun_induction digits bytes with
  | case1 a b d rest ih =>
    have hlast : newDigits (a :: b :: d :: rest) c = newDigits rest c := by
      rw [newDigits, newDigits, show (a :: b :: d :: rest).length % 3 = rest.length % 3 from Nat.add_mod_right _ 3]
      cases rest <;> simp
    simp only [List.cons_append, digits, ih, hlast]
  | case2 a b => rfl
  | case3 a => rfl
  | case4 => rfl

theorem lastDigit_eq (bytes : List Nat) :
    lastDigit bytes = match bytes.length % 3 with
      | 0 => []
      | 1 => [bytes.getLastD 0 % 4 * 16]
      | _ => [bytes.getLastD 0 % 16 * 4] := by
  fun_induction lastDigit bytes with
  | case1 a b d rest ih =>
    rw [ih, show (a :: b :: d :: rest).length % 3 = rest.length % 3 from Nat.add_mod_right _ 3]
    cases rest <;> simp
  | case2 a b => rfl
  | case3 a => rfl
  | case4 => rfl

section

variable {bytes : List Nat}

theorem digits_lt (h : ∀ b ∈ bytes, b < 256) : ∀ d ∈ digits bytes, d < 64 := by
  fun_induction digits bytes with
  | case1 a b c rest ih =>
    simp only [List.forall_mem_cons] at h ⊢
    exact ⟨by omega, by omega, by omega, by omega, ih h.2.2.2⟩
  | case2 a b =>
    simp only [List.forall_mem_cons] at h ⊢
    exact ⟨by omega, by omega, by simp⟩
  | case3 a =>
    simp only [List.forall_mem_cons] at h ⊢
    exact ⟨by omega, by simp⟩
  | case4 => simp

theorem lastDigit_lt : ∀ d ∈ lastDigit bytes, d < 64 := by
  fun_induction lastDigit bytes with
  | case1 a b c rest ih => exact ih
  | case2 a b => simp; omega
  | case3 a => simp; omega
  | case4 => simp

end

/-- Four digits, one after the other, make the number of three bytes. -/
theorem group_value (a b c : Nat) :
    ((a / 4 * 64 + (a % 4 * 16 + b / 16)) * 64 + (b % 16 * 4 + c / 64)) * 64 + c % 64 = (a * 256 + b) * 256 + c := by
  omega

end CFLite.Framework.Base64
