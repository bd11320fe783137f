import CFLite.Base.Prefix
import CFLite.Sorting.MergeSort

/-!
# `CFArray`

A mutable array keeps its values in a deque: buckets with room on both sides. A
replacement leaves the region `A` before the range and the region `C` after it in
the array and moves one of them, or both, to make the gap for the new values fit,
within the deque or into a new one.

The null pointer is `default`. New memory holds `junk`. A step that leaves an
allocation has no result, and neither has an allocation of a negative size or a
shift that is not defined. Ranges and indexes are in range, which the code checks
in debug builds only.
-/

namespace CFLite.Array

open Framework Sorting

/-- `INVOKE_CALLBACK2` of `retain`, with the value it returned, or of
`release`. -/
inductive Event (α : Type) where
  | retain (value : α)
  | release (value : α)
  deriving DecidableEq

/-- `struct __CFArrayDeque` and its buckets, as many as the capacity. -/
structure Deque (α : Type) where
  leftIdx : Int
  buckets : List α

def Deque.capacity {α : Type} (deque : Deque α) : Nat := deque.buckets.length

/-- `struct __CFArray` of a mutable array, its callbacks, and what they were
called with so far. -/
structure CFArray (α : Type) where
  count : Nat
  store : Option (Deque α)
  retain : Option (α → α)
  release : Bool
  log : List (Event α)

/-- `__CFArrayDequeRoundUpCapacity`. A shift of an `int` by 32 bits or more is
not defined. -/
def roundUpCapacity (capacity : Nat) : Option Int :=
  if capacity < 4 then some 4
  else if flsl capacity < 32 then some (min (oneShl (flsl capacity)) (2 ^ 63 - 1))
  else none

variable {α : Type}

/-- The buckets of a new deque. The allocation fails for a negative size. -/
def allocate (junk : Nat → α) (capacity : Int) : Option (List α) :=
  if 0 ≤ capacity then some (reallocate junk [] capacity.toNat) else none

/-- `if (0 < n) objc_memmove_collectable(to + dst, from + src, n * …)` -/
def moveBuckets (source target : List α) (dst src : Int) (n : Nat) : Option (List α) :=
  if 0 < n then do
    let values ← readRange source src n
    writeRange target dst values
  else some target

/-- `if (low < high) memset(buckets + at, 0, (high - low) * …)` -/
def clearBuckets [Inhabited α] (buckets : List α) (offset low high : Int) : Option (List α) :=
  if low < high then writeRange buckets offset (List.replicate (high - low).toNat default) else some buckets

/-- `__CFArrayRepositionDequeRegions` for an array of `cnt` values. -/
def repositionDequeRegions [Inhabited α] (junk : Nat → α) (deque : Deque α) (cnt location length newCount : Nat) :
    Option (Deque α) :=
  let buckets := deque.buckets
  let futureCnt : Nat := cnt - length + newCount
  let L := deque.leftIdx
  let A := location
  let B := length
  let C := cnt - B - A
  let R : Int := deque.capacity - cnt - L
  let numNewElems : Int := newCount - B
  let wiggle : Nat := if deque.capacity / 2 ^ 17 < 4 then 4 else deque.capacity / 2 ^ 17
  let oldC0 : Int := L + A + B
  if deque.capacity < futureCnt % 2 ^ 32 ∨ cnt < futureCnt ∧ L + R < wiggle then do
    -- reallocate and re-center everything
    let capacity ← roundUpCapacity (futureCnt + wiggle)
    let newBuckets ← allocate junk capacity
    let newL := (capacity - futureCnt).tdiv 2
    let newC0 : Int := newL + A + newCount
    let newBuckets ← moveBuckets buckets newBuckets newL L A
    let newBuckets ← moveBuckets buckets newBuckets newC0 oldC0 C
    return ⟨newL, newBuckets⟩
  else if numNewElems < 0 ∧ C < A ∨ numNewElems ≤ R ∧ C < A then do
    -- move C
    let newC0 : Int := L + A + newCount
    let buckets ← moveBuckets buckets buckets newC0 oldC0 C
    let buckets ← clearBuckets buckets (newC0 + C) newC0 oldC0
    return ⟨L, buckets⟩
  else if numNewElems < 0 ∨ numNewElems ≤ L ∧ A ≤ C then do
    -- move A
    let newL := L - numNewElems
    let buckets ← moveBuckets buckets buckets newL L A
    let buckets ← clearBuckets buckets L L newL
    return ⟨newL, buckets⟩
  else
    -- re-center everything
    let newL := (L + R - numNewElems).tdiv 2
    let newL := newL - newL.tdiv 2
    let newC0 : Int := newL + A + newCount
    if newL < L then do
      let buckets ← moveBuckets buckets buckets newL L A
      let buckets ← moveBuckets buckets buckets newC0 oldC0 C
      let buckets ← clearBuckets buckets (newC0 + C) newC0 oldC0
      return ⟨newL, buckets⟩
    else do
      let buckets ← moveBuckets buckets buckets newC0 oldC0 C
      let buckets ← moveBuckets buckets buckets newL L A
      let buckets ← clearBuckets buckets L L newL
      return ⟨newL, buckets⟩

namespace CFArray

variable [Inhabited α]

omit [Inhabited α] in
/-- `CFArrayCreateMutable` -/
def createMutable (_capacity : Nat) (retain : Option (α → α)) (release : Bool) : CFArray α :=
  ⟨0, none, retain, release, []⟩

omit [Inhabited α] in
/-- The value that is stored for `value`. -/
def retained (array : CFArray α) (value : α) : α :=
  match array.retain with
  | some retain => retain value
  | none => value

omit [Inhabited α] in
/-- `CFArrayGetValueAtIndex` -/
def getValueAtIndex (array : CFArray α) (idx : Nat) : Option α := do
  let deque ← array.store
  let values ← readRange deque.buckets (deque.leftIdx + idx) 1
  values[0]?

omit [Inhabited α] in
/-- `CFArrayGetValues` -/
def getValues (array : CFArray α) (location length : Nat) : Option (List α) :=
  if 0 < length then do
    let deque ← array.store
    readRange deque.buckets (deque.leftIdx + location) length
  else some []

/-- `__CFArrayReleaseValues`: every bucket of the range is released and
cleared. -/
def releaseValues (array : CFArray α) (location length : Nat) (releaseStorageIfPossible : Bool) :
    Option (CFArray α) := do
  let array ← (match array.store with
    | some deque =>
      if 0 < length then do
        let values ← readRange deque.buckets (deque.leftIdx + location) length
        let buckets ← writeRange deque.buckets (deque.leftIdx + location) (List.replicate length default)
        let log := if array.release then array.log ++ values.map .release else array.log
        return { array with store := some { deque with buckets }, log }
      else some array
    | none => some array)
  if releaseStorageIfPossible ∧ location = 0 ∧ array.count = length then
    return { array with count := 0, store := none }
  return array

omit [Inhabited α] in
/-- New values are retained, if there is a callback. -/
def retaining (array : CFArray α) (values : List α) : CFArray α :=
  if array.retain.isSome then { array with log := array.log ++ values.map .retain } else array

/-- The store of `_CFArrayReplaceValues` with a gap for the new values. -/
def makeGap (junk : Nat → α) (array : CFArray α) (location length newCount : Nat) : Option (Deque α) :=
  match array.store with
  | none => do
    let capacity ← roundUpCapacity (array.count - length + newCount)
    let buckets ← allocate junk capacity
    return ⟨(capacity - newCount).tdiv 2, buckets⟩
  | some deque =>
    if length ≠ newCount then repositionDequeRegions junk deque array.count location length newCount else some deque

/-- `_CFArrayReplaceValues` -/
def replaceValues (junk : Nat → α) (array : CFArray α) (location length : Nat) (newValues : List α) :
    Option (CFArray α) := do
  let newCount := newValues.length
  let futureCnt := array.count - length + newCount
  let newv := newValues.map array.retained
  let array := array.retaining newv
  let array ← (if 0 < length then array.releaseValues location length false else some array)
  let deque ← array.makeGap junk location length newCount
  -- copy in the new values
  let buckets ← (if 0 < newCount then writeRange deque.buckets (deque.leftIdx + location) newv else some deque.buckets)
  return { array with count := futureCnt, store := some { deque with buckets } }

/-- `CFArrayAppendValue` -/
def appendValue (junk : Nat → α) (array : CFArray α) (value : α) : Option (CFArray α) :=
  array.replaceValues junk array.count 0 [value]

/-- `CFArraySetValueAtIndex` -/
def setValueAtIndex (junk : Nat → α) (array : CFArray α) (idx : Nat) (value : α) : Option (CFArray α) :=
  if idx = array.count then array.replaceValues junk idx 0 [value]
  else do
    let value := array.retained value
    let log := if array.retain.isSome then array.log ++ [.retain value] else array.log
    let old_value ← array.getValueAtIndex idx
    let deque ← array.store
    let buckets ← writeRange deque.buckets (deque.leftIdx + idx) [value]
    let log := if array.release then log ++ [.release old_value] else log
    return { array with store := some { deque with buckets }, log }

/-- `CFArrayInsertValueAtIndex` -/
def insertValueAtIndex (junk : Nat → α) (array : CFArray α) (idx : Nat) (value : α) : Option (CFArray α) :=
  array.replaceValues junk idx 0 [value]

omit [Inhabited α] in
/-- `CFArrayExchangeValuesAtIndices` -/
def exchangeValuesAtIndices (array : CFArray α) (idx1 idx2 : Nat) : Option (CFArray α) := do
  let deque ← array.store
  let tmp ← array.getValueAtIndex idx1
  let value2 ← array.getValueAtIndex idx2
  let buckets ← writeRange deque.buckets (deque.leftIdx + idx1) [value2]
  let buckets ← writeRange buckets (deque.leftIdx + idx2) [tmp]
  return { array with store := some { deque with buckets } }

/-- `CFArrayRemoveValueAtIndex` -/
def removeValueAtIndex (junk : Nat → α) (array : CFArray α) (idx : Nat) : Option (CFArray α) :=
  array.replaceValues junk idx 1 []

/-- `CFArrayRemoveAllValues` -/
def removeAllValues (array : CFArray α) : Option (CFArray α) := do
  let array ← array.releaseValues 0 array.count true
  return { array with count := 0 }

/-- `__CFArrayDeallocate`, without garbage collection. -/
def deallocate (array : CFArray α) : Option (CFArray α) := array.releaseValues 0 array.count true

omit [Inhabited α] in
/-- `_CFArraySetCapacity` -/
def setCapacity (junk : Nat → α) (array : CFArray α) (cap : Nat) : Option (CFArray α) := do
  let capacity ← roundUpCapacity cap
  let buckets ← allocate junk capacity
  match array.store with
  | none => return { array with store := some ⟨capacity.tdiv 2, buckets⟩ }
  | some olddeque => do
    let buckets ← writeRange buckets 0 olddeque.buckets
    return { array with store := some ⟨olddeque.leftIdx, buckets⟩ }

/-- `CFArrayAppendArray`, with `none` for the array itself. -/
def appendArray (junk : Nat → α) (otherArray : Option (CFArray α)) : (length idx : Nat) → (array : CFArray α) →
    Option (CFArray α)
  | 0, _, array => some array
  | length + 1, idx, array => do
    let value ← (otherArray.getD array).getValueAtIndex idx
    let array ← array.appendValue junk value
    appendArray junk otherArray length (idx + 1) array

omit [Inhabited α] in
/-- `for (idx = range.location; idx < range.location + cnt - 1; idx++)` of
`__CFZSort`, with `n` steps to go. -/
def zSortPass (comparator : α → α → CFComparisonResult) : (n idx : Nat) → (array : CFArray α) → Option (CFArray α)
  | 0, _, array => some array
  | n + 1, idx, array => do
    let a ← array.getValueAtIndex idx
    let b ← array.getValueAtIndex (idx + 1)
    let array ← (if comparator b a = .lt then array.exchangeValuesAtIndices idx (idx + 1) else some array)
    zSortPass comparator n (idx + 1) array

omit [Inhabited α] in
/-- `__CFZSort` of the range of `cnt` values at `location`. -/
def zSort (comparator : α → α → CFComparisonResult) (location : Nat) : (cnt : Nat) → (array : CFArray α) →
    Option (CFArray α)
  | 0, array | 1, array => some array
  | cnt + 2, array => do
    let array ← zSortPass comparator (cnt + 1) location array
    zSort comparator location (cnt + 1) array

/-- `CFArraySortValues` of a mutable array. The elements to sort are pointers. -/
def sortValues (junk : Nat → α) (array : CFArray α) (location length : Nat)
    (comparator : α → α → CFComparisonResult) : Option (CFArray α) :=
  if array.retain.isSome ∧ ¬ array.release ∨ ¬ array.retain.isSome ∧ array.release then
    zSort comparator location length array
  else if length < 2 then some array
  else do
    let values ← array.getValues location length
    let values ← qSortArray values 8 comparator
    array.replaceValues junk location length values

end CFArray

end CFLite.Array
