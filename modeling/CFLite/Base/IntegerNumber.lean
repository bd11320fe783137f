import CFLite.Framework.TwosComplement

/-!
# Integer numbers

`CFNumberCreate` for the integer types, and the two ways to get a value out of
a number: `__CFNumberGetValue`, which saturates, and `__CFNumberGetValueCompat`,
which casts, and which `CFNumberGetValue` uses. Numbers of up to 64 bits are
stored in one word, those of the private 128-bit type in two. Small integers
come from a cache that is filled as they are asked for.

`__CFTaggedNumberClass` is never set, so no number is a tagged pointer.
-/

namespace CFLite.IntegerNumber

/-! ## Types -/

/-- The integer types of `CFNumberType`. -/
inductive CFNumberType where
  | sInt8Type | sInt16Type | sInt32Type | sInt64Type
  | charType | shortType | intType | longType | longLongType
  | cfIndexType | nsIntegerType
  | sInt128Type
  deriving DecidableEq, Repr

/-- The fixed-width types. -/
inductive Canonical where
  | sInt8 | sInt16 | sInt32 | sInt64 | sInt128
  deriving DecidableEq, Repr

/-- `__CFNumberTypeTable[type].canonicalType`, with 64-bit pointers. -/
def CFNumberType.canonicalType : CFNumberType → Canonical
  | sInt8Type | charType => .sInt8
  | sInt16Type | shortType => .sInt16
  | sInt32Type | intType => .sInt32
  | sInt64Type | longType | longLongType | cfIndexType | nsIntegerType => .sInt64
  | sInt128Type => .sInt128

/-- The bits of a value. -/
def Canonical.width : Canonical → Nat
  | sInt8 => 8
  | sInt16 => 16
  | sInt32 => 32
  | sInt64 => 64
  | sInt128 => 128

/-- `__CFNumberTypeTable[type].storageBit`: the number takes two words. -/
def Canonical.storageBit : Canonical → Bool
  | sInt128 => true
  | _ => false

/-! ## Numbers -/

/-- `struct __CFNumber`, with the word that is allocated after it for the
128-bit type, and is 0 here for the others. Then `pad` is the high half. -/
structure CFNumber where
  type : Canonical
  pad : BitVec 64
  low : BitVec 64
  deriving DecidableEq, Repr

/-- The integer a number stands for. -/
def CFNumber.value (number : CFNumber) : Int :=
  if number.type.storageBit then (number.pad ++ number.low).toInt else number.pad.toInt

/-! ## Creation -/

/-- `MinCachedInt` -/
def minCachedInt : Int := -1
/-- `MaxCachedInt` -/
def maxCachedInt : Int := 12

/-- `__CFNumberCache`, by value. -/
abbrev Cache := Int → Option CFNumber

/-- The cache before any number was made. -/
def emptyCache : Cache := fun _ => none

/-- How `CFNumberCreate` is called: whether the allocator is the system default
one, whether caching is on, and whether the compare-and-swap that fills a slot
of the cache finds it empty. -/
structure Circumstances where
  systemDefault : Bool
  caching : Bool
  swaps : Bool

/-- `valToBeCached` -/
def valToBeCached (c : Circumstances) (type : Canonical) (val : Int) : Option Int :=
  if c.systemDefault && c.caching && !type.storageBit && decide (minCachedInt ≤ val ∧ val ≤ maxCachedInt) then some val
  else none

/-- The words of a new number. -/
def storeValue : (type : Canonical) → BitVec type.width → CFNumber
  | .sInt8, value => ⟨.sInt8, value.signExtend 64, 0⟩
  | .sInt16, value => ⟨.sInt16, value.signExtend 64, 0⟩
  | .sInt32, value => ⟨.sInt32, value.signExtend 64, 0⟩
  | .sInt64, value => ⟨.sInt64, value, 0⟩
  | .sInt128, value => ⟨.sInt128, value.extractLsb' 64 64, value.extractLsb' 0 64⟩

/-- `CFNumberCreate` for a canonical type: the number, and the cache
afterwards. -/
def createCanonical (c : Circumstances) (cache : Cache) (type : Canonical) (value : BitVec type.width) :
    CFNumber × Cache :=
  match valToBeCached c type value.toInt with
  | none => (storeValue type value, cache)
  | some val =>
    match cache val with
    | some cached => (cached, cache)
    | none =>
      let pad := BitVec.ofInt 64 val
      -- every cached number is of one type
      if c.swaps then (⟨.sInt32, pad, 0⟩, fun i => if i = val then some ⟨.sInt32, pad, 0⟩ else cache i)
      else (⟨type, pad, 0⟩, cache)

/-- `CFNumberCreate` -/
def create (c : Circumstances) (cache : Cache) (type : CFNumberType) (valuePtr : BitVec type.canonicalType.width) :
    CFNumber × Cache :=
  createCanonical c cache type.canonicalType valuePtr

/-- The caches that calls of `CFNumberCreate` lead to. -/
inductive Reached : Cache → Prop where
  | empty : Reached emptyCache
  | create {cache : Cache} (h : Reached cache) (c : Circumstances) (type : CFNumberType)
    (valuePtr : BitVec type.canonicalType.width) : Reached (create c cache type valuePtr).2

/-! ## Saturating conversion -/

/-- `DST_MIN` -/
def dstMin (w : Nat) : Int := -2 ^ (w - 1)
/-- `DST_MAX` -/
def dstMax (w : Nat) : Int := 2 ^ (w - 1) - 1

/-- `CVT(int64_t, …)`: what is returned, and what is stored. -/
def cvt (w : Nat) (sv : BitVec 64) : Bool × BitVec w :=
  let dv := if sv.toInt < dstMin w then BitVec.ofInt w (dstMin w)
    else BitVec.ofInt w (if dstMax w < sv.toInt then dstMax w else sv.toInt)
  let vv := dv.signExtend 64
  (vv == sv, dv)

/-- `CVT128ToInt(CFSInt128Struct, …)`. The low halves are compared as
`uint64_t`. -/
def cvt128ToInt (w : Nat) (high low : BitVec 64) : Bool × BitVec w :=
  if 0 < high.toInt ∨ (0 = high.toInt ∧ (BitVec.ofInt 64 (dstMax w)).toNat < low.toNat) then
    (false, BitVec.ofInt w (dstMax w))
  else if high.toInt < -1 ∨ (-1 = high.toInt ∧ low.toNat < (BitVec.ofInt 64 (dstMin w)).toNat) then
    (false, BitVec.ofInt w (dstMin w))
  else (true, low.setWidth w)

/-- The branches of `__CFNumberGetValue` for the narrow targets. -/
def getNarrow (w : Nat) (number : CFNumber) : Bool × BitVec w :=
  if number.type.storageBit then cvt128ToInt w number.pad number.low else cvt w number.pad

/-- `case kCFNumberSInt64Type` of `__CFNumberGetValue` -/
def getSInt64 (number : CFNumber) : Bool × BitVec 64 :=
  if number.type.storageBit then cvt128ToInt 64 number.pad number.low else (true, number.pad)

/-- `case kCFNumberSInt128Type`, the same in both functions. -/
def getSInt128 (number : CFNumber) : Bool × BitVec 128 :=
  if number.type.storageBit then (true, number.pad ++ number.low)
  else
    let j := number.pad
    (true, (if j.toInt < 0 then (-1#64) else 0) ++ j)

/-- `__CFNumberGetValue`, of an integer number for an integer type. -/
def getValueSaturating (number : CFNumber) : (type : Canonical) → Bool × BitVec type.width
  | .sInt8 => getNarrow 8 number
  | .sInt16 => getNarrow 16 number
  | .sInt32 => getNarrow 32 number
  | .sInt64 => getSInt64 number
  | .sInt128 => getSInt128 number

/-! ## Conversion by casts -/

/-- `CVT_COMPAT(int64_t, …)` -/
def cvtCompat (w : Nat) (sv : BitVec 64) : Bool × BitVec w :=
  let dv := sv.setWidth w
  let vv := dv.signExtend 64
  (vv == sv, dv)

/-- `CVT128ToInt_COMPAT(CFSInt128Struct, …)` -/
def cvt128ToIntCompat (w : Nat) (low : BitVec 64) : Bool × BitVec w :=
  let dv := low.setWidth w
  let vv := dv.signExtend 64
  (vv == low, dv)

/-- The branches of `__CFNumberGetValueCompat` for `int8_t` and `int16_t`,
which let small unsigned values pass. -/
def getSmallCompat (linkedOnOrAfter : Bool) (w : Nat) (number : CFNumber) : Bool × BitVec w :=
  if number.type.storageBit then cvt128ToIntCompat w number.low
  else
    let sv := number.pad
    let dv := sv.setWidth w
    let vv := dv.signExtend 64
    (!linkedOnOrAfter || sv.sshiftRight w == 0 || vv == sv, dv)

/-- The branches of `__CFNumberGetValueCompat` for `int32_t` and `int64_t`. -/
def getCompat (w : Nat) (number : CFNumber) : Bool × BitVec w :=
  if number.type.storageBit then cvt128ToIntCompat w number.low else cvtCompat w number.pad

/-- `__CFNumberGetValueCompat`, of an integer number for an integer type.
`linkedOnOrAfter` is `_CFExecutableLinkedOnOrAfter(CFSystemVersionSnowLeopard)`. -/
def getValueCompat (linkedOnOrAfter : Bool) (number : CFNumber) : (type : Canonical) → Bool × BitVec type.width
  | .sInt8 => getSmallCompat linkedOnOrAfter 8 number
  | .sInt16 => getSmallCompat linkedOnOrAfter 16 number
  | .sInt32 => getCompat 32 number
  | .sInt64 => getCompat 64 number
  | .sInt128 => getSInt128 number

/-- `CFNumberGetValue` -/
def getValue (linkedOnOrAfter : Bool) (number : CFNumber) (type : CFNumberType) :
    Bool × BitVec type.canonicalType.width :=
  getValueCompat linkedOnOrAfter number type.canonicalType

/-- `CFNumberGetType`: the 128-bit type is hidden. -/
def getType (number : CFNumber) : Canonical := if number.type = .sInt128 then .sInt64 else number.type

end CFLite.IntegerNumber
