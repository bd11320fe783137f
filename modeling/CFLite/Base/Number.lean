import Mathlib.Algebra.Group.Nat.Defs
import Mathlib.Algebra.Group.Int.Defs
import Mathlib.Data.Nat.Basic

/-!
# CFNumber

A number is stored as one of the types `CFNumberCreate` canonicalises to.
The narrow integer types behave like `kCFNumberSInt64Type` everywhere in the
property list code, so `sint64` stands for all of them. The 128-bit type is
private, and the only 128-bit numbers the code makes have a zero high half.
`CFNumberCreate` replaces every NaN and infinity, of either float type, by one
of three constants of type `kCFNumberFloat64Type`; the two float constructors
carry that as a field, so a number that `CFNumberCreate` cannot return is not
a value of the type.

* `createFloat32`, `createFloat64`: `CFNumberCreate` on a float's bits;
* `sint32Value`: `CFNumberGetValue(…, kCFNumberSInt32Type, …)`;
* `equal`: `CFNumberCompare(a, b) == kCFCompareEqualTo`, by exact value.
-/

namespace CFLite

/-- The value an `int32_t` holds after a computation gave `n`. -/
def int32 (n : Int) : Int := n.bmod (2 ^ 32)

theorem int32_of_fits {n : Int} (hlow : -2 ^ 31 ≤ n) (hhigh : n < 2 ^ 31) : int32 n = n := by
  rw [int32]
  exact Int.bmod_eq_of_le_mul_two (by omega) (by omega)

/-! ## IEEE 754 bit patterns -/

/-- The sign, exponent and fraction fields of a float. -/
structure FloatFields where
  negative : Bool
  exponent : Nat
  fraction : Nat

def float32Fields (bits : UInt32) : FloatFields :=
  ⟨bits.toNat / 2 ^ 31 == 1, bits.toNat / 2 ^ 23 % 2 ^ 8, bits.toNat % 2 ^ 23⟩

def float64Fields (bits : UInt64) : FloatFields :=
  ⟨bits.toNat / 2 ^ 63 == 1, bits.toNat / 2 ^ 52 % 2 ^ 11, bits.toNat % 2 ^ 52⟩

def float32IsFinite (bits : UInt32) : Bool := (float32Fields bits).exponent != 0xff
def float32IsNaN (bits : UInt32) : Bool := !float32IsFinite bits && (float32Fields bits).fraction != 0
def float64IsFinite (bits : UInt64) : Bool := (float64Fields bits).exponent != 0x7ff
def float64IsNaN (bits : UInt64) : Bool := !float64IsFinite bits && (float64Fields bits).fraction != 0

/-- The bits of `kCFNumberNaN`. -/
def bitsForDoubleNaN : UInt64 := 0x7ff8000000000000
def bitsForDoublePosInf : UInt64 := 0x7ff0000000000000
def bitsForDoubleNegInf : UInt64 := 0xfff0000000000000

/-- `d1 == d2` on doubles. -/
def doubleEqual (a b : UInt64) : Bool :=
  !float64IsNaN a && !float64IsNaN b && (a == b || (a.toNat % 2 ^ 63 == 0 && b.toNat % 2 ^ 63 == 0))

/-! ## Numbers -/

/-- A `CFNumberRef`, by its stored type. -/
inductive CFNumber where
  | sint64 (value : Int64)
  /-- `CFSInt128Struct`, whose `high` half is zero. -/
  | sint128 (low : UInt64)
  | float32 (bits : UInt32) (finite : float32IsFinite bits = true)
  | float64 (bits : UInt64) (canonical : float64IsNaN bits = true → bits = bitsForDoubleNaN)
  deriving DecidableEq

namespace CFNumber

/-- `kCFNumberNaN` -/
def nan : CFNumber := .float64 bitsForDoubleNaN fun _ => rfl
def positiveInfinity : CFNumber := .float64 bitsForDoublePosInf (by decide)
def negativeInfinity : CFNumber := .float64 bitsForDoubleNegInf (by decide)

/-- `CFNumberCreate(…, kCFNumberFloat32Type, …)` -/
def createFloat32 (bits : UInt32) : CFNumber :=
  if h : float32IsFinite bits = true then .float32 bits h
  else if float32IsNaN bits then nan
  else if (float32Fields bits).negative then negativeInfinity else positiveInfinity

/-- `CFNumberCreate(…, kCFNumberFloat64Type, …)`; the bits of an infinity are
those of the constant it is replaced by. -/
def createFloat64 (bits : UInt64) : CFNumber :=
  if h : float64IsNaN bits = true then nan else .float64 bits fun hn => absurd hn h

theorem createFloat32_of_finite {bits : UInt32} (h : float32IsFinite bits = true) :
    createFloat32 bits = .float32 bits h := by
  simp only [createFloat32, dif_pos h]

theorem createFloat64_of_canonical {bits : UInt64} (h : float64IsNaN bits = true → bits = bitsForDoubleNaN) :
    createFloat64 bits = .float64 bits h := by
  by_cases hn : float64IsNaN bits = true
  · simp only [createFloat64, dif_pos hn, nan, h hn]
  · simp only [createFloat64, dif_neg hn]

/-- An infinity is replaced by a constant with the same bits. -/
example : createFloat64 bitsForDoubleNegInf = negativeInfinity := by decide

/-- `CFNumberIsFloatType` -/
def isFloatType : CFNumber → Bool
  | .float32 .. => true
  | .float64 .. => true
  | _ => false

/-- The bits of the `int32_t` of `CFNumberGetValue(…, kCFNumberSInt32Type, …)`:
the low half of an integer. `ofReal` is the conversion of a floating point
number. -/
def sint32Value (ofReal : CFNumber → UInt32) : CFNumber → UInt32
  | .sint64 value => UInt32.ofInt value.toInt
  | .sint128 low => UInt32.ofNat low.toNat
  | real => ofReal real

def isNaN : CFNumber → Bool
  | .float64 bits _ => float64IsNaN bits
  | _ => false

/-- The sign that `CFNumberCompare` compares first: a float's sign bit, so
that `-0.0` is negative. -/
def negative : CFNumber → Bool
  | .sint64 value => decide (value.toInt < 0)
  | .sint128 _ => false
  | .float32 bits _ => (float32Fields bits).negative
  | .float64 bits _ => (float64Fields bits).negative

/-- The absolute value of a number other than NaN is `significand * 2 ^
exponent`; an infinity is above every finite number. -/
def significand : CFNumber → Nat
  | .sint64 value => value.toInt.natAbs
  | .sint128 low => low.toNat
  | .float32 bits _ =>
    let f := float32Fields bits
    if f.exponent = 0 then f.fraction else 2 ^ 23 + f.fraction
  | .float64 bits _ =>
    let f := float64Fields bits
    if f.exponent = 0 then f.fraction else 2 ^ 52 + f.fraction

def exponent : CFNumber → Int
  | .sint64 _ => 0
  | .sint128 _ => 0
  | .float32 bits _ => max (float32Fields bits).exponent 1 - 150
  | .float64 bits _ => max (float64Fields bits).exponent 1 - 1075

/-- `CFNumberCompare(a, b, NULL) == kCFCompareEqualTo` -/
def equal (a b : CFNumber) : Bool :=
  if a.isNaN || b.isNaN then a.isNaN && b.isNaN
  else
    let least := min a.exponent b.exponent
    a.negative == b.negative &&
      a.significand * 2 ^ (a.exponent - least).toNat == b.significand * 2 ^ (b.exponent - least).toNat

@[simp] theorem equal_refl (a : CFNumber) : a.equal a = true := by
  by_cases h : a.isNaN <;> simp [equal, h]

/-- `-0.0` and `0.0` are different numbers, `1` and `1.0` are not. -/
example : (createFloat64 0x8000000000000000).equal (createFloat64 0) = false ∧
    (sint64 1).equal (createFloat64 0x3ff0000000000000) = true := by decide

end CFNumber

end CFLite
