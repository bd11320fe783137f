import CFLite.Base.IntegerConversion
import CFLite.Base.Number

/-!
# Copies of numbers

`CFPropertyListCreateDeepCopy` reads a number as the type that
`CFNumberGetType` reports and creates one of that type. The report hides the
128-bit type behind the 64-bit one, so of a 128-bit number the low half is
kept, as a signed integer.

* `copyInteger`: the copy of an integer, through the functions of `CFNumber`;
* `CFNumber.copy`: the copy of any number, by its value;
* `copyInteger_represents`: the two agree;
* `CFNumber.copy_equal`: the copy is equal unless a 128-bit number is too large.
-/

namespace CFLite

/-! ## Values -/

namespace CFNumber

/-- The copy of a number. -/
def copy : CFNumber → CFNumber
  | .sint64 value => .sint64 value
  | .sint128 low => .sint64 low.toInt64
  | .float32 bits _ => createFloat32 bits
  | .float64 bits _ => createFloat64 bits

/-- A 128-bit number in the range of the 64-bit type. -/
def isCopyable : CFNumber → Bool
  | .sint128 low => decide (low.toNat < 2 ^ 63)
  | _ => true

theorem copy_equal {number : CFNumber} (h : number.isCopyable = true) : number.copy.equal number = true := by
  cases number with
  | sint64 value => exact equal_refl _
  | sint128 low =>
    have hlow : low.toNat < 2 ^ 63 := by simpa [isCopyable] using h
    have hvalue : low.toInt64.toInt = low.toNat :=
      BitVec.toInt_eq_toNat_of_lt (show 2 * low.toNat < 2 ^ 64 by omega)
    simp [copy, equal, isNaN, negative, significand, exponent, hvalue]
  | float32 bits hbits => rw [copy, createFloat32_of_finite hbits, equal_refl]
  | float64 bits hbits => rw [copy, createFloat64_of_canonical hbits, equal_refl]

end CFNumber

/-! ## Integers -/

namespace IntegerNumber

open Framework

/-- `CFNumberGetValue` and `CFNumberCreate` for the type of `CFNumberGetType`:
the copy, and the cache afterwards. -/
def copyInteger (c : Circumstances) (cache : Cache) (linkedOnOrAfter : Bool) (number : CFNumber) : CFNumber × Cache :=
  createCanonical c cache (getType number) (getValueCompat linkedOnOrAfter number (getType number)).2

/-- A number in one word has a value of its type. -/
def IsStored (number : CFNumber) : Prop := number.type.storageBit = false → Fits number.type.width number.value

/-- The copy has the value of the low half. -/
theorem copyInteger_value {cache : Cache} (hcache : Reached cache) (c : Circumstances) (linkedOnOrAfter : Bool)
    {number : CFNumber} (hstored : IsStored number) :
    (copyInteger c cache linkedOnOrAfter number).1.value = number.lowValue := by
  obtain ⟨type, pad, low⟩ := number
  rw [copyInteger, (createCanonical_spec hcache.holds c _ _).1]
  cases type with
  | sInt128 =>
    rw [lowValue_of_storageBit _ rfl]
    exact congrArg BitVec.toInt (BitVec.setWidth_eq low)
  | sInt64 =>
    rw [lowValue_of_word_storage]
    · exact congrArg BitVec.toInt (BitVec.setWidth_eq pad)
    · exact Bool.false_ne_true
  | sInt8 | sInt16 | sInt32 =>
    rw [lowValue_of_word_storage]
    · exact toInt_setWidth_of_fits (by decide) (by decide) (hstored rfl)
    · exact Bool.false_ne_true

/-- The number with an integer's value. -/
def Represents (number : CFNumber) : CFLite.CFNumber → Prop
  | .sint64 value => number.value = value.toInt
  | .sint128 low => number.type = .sInt128 ∧ number.value = low.toNat
  | _ => False

/-- Copying an integer copies its value. -/
theorem copyInteger_represents {cache : Cache} (hcache : Reached cache) (c : Circumstances) (linkedOnOrAfter : Bool)
    {number : CFNumber} {value : CFLite.CFNumber} (hstored : IsStored number) (h : Represents number value) :
    Represents (copyInteger c cache linkedOnOrAfter number).1 value.copy := by
  have hcopy := copyInteger_value hcache c linkedOnOrAfter hstored
  cases value with
  | sint64 value =>
    refine hcopy.trans ?_
    rw [CFNumber.lowValue, show number.value = value.toInt from h]
    exact BitVec.toInt_bmod_cancel value.toBitVec
  | sint128 low =>
    refine hcopy.trans ?_
    rw [CFNumber.lowValue, h.2]
    exact (BitVec.toInt_eq_toNat_bmod low.toBitVec).symm
  | float32 bits hbits => exact h.elim
  | float64 bits hbits => exact h.elim

end IntegerNumber

end CFLite
