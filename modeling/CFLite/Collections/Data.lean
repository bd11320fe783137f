import CFLite.Base.Prefix
import CFLite.Framework.Buckets

/-!
# Mutable data

`CFData.c` for mutable data that is allocated and released without a garbage
collector: the buffer behind `_bytes`, how it grows, and the operations on it.
Bytes that an allocation leaves unspecified are `junk`.
-/

namespace CFLite.Data

open Framework

/-- A mutable data. `_capacity` bytes are allocated; they are the whole of
`bytes`. -/
structure CFMutableData where
  bytes : List UInt8
  length : Nat
  needsToZero : Bool
  /-- `kCFMutable`, not `kCFFixedMutable`. -/
  isGrowable : Bool
  useAllocator : Bool
  deriving DecidableEq, Repr

/-- What a pointer of a caller points at. -/
inductive Source where
  /-- Memory that has nothing to do with the data. The null pointer has no
  bytes. -/
  | external (bytes : List UInt8)
  /-- A byte of the data's own buffer. -/
  | internal (offset : Nat)
  /-- A buffer that was given back. -/
  | freed
  deriving DecidableEq, Repr

/-- The `n` bytes at the pointer, while the data's buffer holds `bytes`. -/
def Source.read (bytes : List UInt8) (n : Nat) : Source → Option (List UInt8)
  | external values => readRange values 0 n
  | internal offset => readRange bytes offset n
  | freed => none

/-! ## Capacity -/

def chunkSize : Nat := 2 ^ 29

def lowThreshold : Nat := 2 ^ 20

def highThreshold : Nat := 2 ^ 32

/-- `CFDATA_MAX_SIZE` -/
def dataMaxSize : Nat := 2 ^ 42 - 1

/-- `__CFDataRoundUpCapacity` -/
def roundUpCapacity (capacity : Nat) : Int :=
  if capacity < 16 then 16
  else if capacity < lowThreshold then
    let idx := flsl capacity
    oneShl (idx + if idx % 2 = 0 then 0 else 1)
  else if capacity < highThreshold then oneShl (flsl capacity)
  else min (chunkSize * (1 + capacity / 2 ^ (flsl chunkSize - 1))) dataMaxSize

/-- `__CFDataShouldAllocateCleared` -/
def shouldAllocateCleared (data : CFMutableData) (size : Nat) : Bool :=
  if data.useAllocator then false else decide (size > 128 * 1024)

/-- `__CFDataAllocate` -/
def allocate (junk : Nat → UInt8) (size : Nat) (clear : Bool) : List UInt8 :=
  if clear then List.replicate size 0 else reallocate junk [] size

/-- `memset(bytes + offset, 0, n)` -/
def zeroRange (bytes : List UInt8) (offset n : Nat) : Option (List UInt8) :=
  writeRange bytes offset (List.replicate n 0)

/-- `memmove(bytes + dest, bytes + offset, n)` -/
def moveRange (bytes : List UInt8) (dest offset n : Nat) : Option (List UInt8) :=
  (readRange bytes offset n).bind (writeRange bytes dest)

/-- `__CFDataGrow`. There is no result where the process halts. -/
def grow (junk : Nat → UInt8) (data : CFMutableData) (numNewValues : Nat) (clear : Bool) : Option CFMutableData := do
  let oldLength := data.length
  let newLength := oldLength + numNewValues
  if newLength > dataMaxSize then none
  let numBytes := (roundUpCapacity newLength).toNat
  let allocateCleared := clear && shouldAllocateCleared data numBytes
  if allocateCleared && !data.useAllocator && (oldLength == 0 || newLength / oldLength > 4) then
    let bytes ← writeRange (allocate junk numBytes true) 0 (← readRange data.bytes 0 oldLength)
    return { data with bytes, needsToZero := false }
  else
    let bytes := reallocate junk data.bytes numBytes
    let bytes ← if clear && oldLength < newLength then zeroRange bytes oldLength (newLength - oldLength) else some bytes
    return { data with bytes, needsToZero := true }

/-! ## Operations -/

/-- `CFDataSetLength` -/
def setLength (junk : Nat → UInt8) (data : CFMutableData) (newLength : Nat) : Option CFMutableData := do
  let oldLength := data.length
  let data ←
    if data.bytes.length < newLength then
      if data.isGrowable then grow junk data (newLength - oldLength) true else some data
    else if oldLength < newLength && data.needsToZero then
      (zeroRange data.bytes oldLength (newLength - oldLength)).map fun bytes => { data with bytes }
    else if newLength < oldLength then some { data with needsToZero := true }
    else some data
  return { data with length := newLength }

/-- `CFDataIncreaseLength` -/
def increaseLength (junk : Nat → UInt8) (data : CFMutableData) (extraLength : Nat) : Option CFMutableData :=
  setLength junk data (data.length + extraLength)

/-- The source and the buffer overlap. -/
def overlaps (data : CFMutableData) (newLength : Nat) : Source → Bool
  | .internal offset => decide (offset < data.bytes.length) && decide (0 < offset + newLength)
  | _ => false

/-- Where the source is to be read from once the buffer has grown. One that
overlaps the buffer is copied before. -/
def sourceBuffer (data : CFMutableData) (newLength : Nat) (newBytes : Source) : Option Source :=
  if overlaps data newLength newBytes then (newBytes.read data.bytes newLength).map .external
  else
    match newBytes with
    | .internal _ => some .freed
    | newBytes => some newBytes

/-- The part of `CFDataReplaceBytes` that makes room: the data, and where its
source is then. -/
def makeRoom (junk : Nat → UInt8) (data : CFMutableData) (rangeLength newLength newCount : Nat) (newBytes : Source) :
    Option (CFMutableData × Source) :=
  if data.isGrowable then
    if data.bytes.length < newCount then do
      let srcBuf ← sourceBuffer data newLength newBytes
      let data ← grow junk data (newLength - rangeLength) false
      return (data, srcBuf)
    else some (data, newBytes)
  else if newCount > data.bytes.length then none
  else some (data, newBytes)

/-- The part of `CFDataReplaceBytes` that moves what comes after the range. -/
def moveTail (bytes : List UInt8) (location rangeLength newLength len : Nat) : Option (List UInt8) :=
  if newLength ≠ rangeLength ∧ location + rangeLength < len then
    moveRange bytes (location + newLength) (location + rangeLength) (len - location - rangeLength)
  else some bytes

/-- The part of `CFDataReplaceBytes` that stores the new bytes. -/
def storeBytes (bytes : List UInt8) (location : Nat) (srcBuf : Source) (newLength : Nat) : Option (List UInt8) :=
  if 0 < newLength then (srcBuf.read bytes newLength).bind (writeRange bytes location) else some bytes

/-- `CFDataReplaceBytes` -/
def replaceBytes (junk : Nat → UInt8) (data : CFMutableData) (location rangeLength : Nat) (newBytes : Source)
    (newLength : Nat) : Option CFMutableData := do
  let len := data.length
  if len + newLength < rangeLength then none
  let newCount := len + newLength - rangeLength
  let (data, srcBuf) ← makeRoom junk data rangeLength newLength newCount newBytes
  let bytes ← moveTail data.bytes location rangeLength newLength len
  let bytes ← storeBytes bytes location srcBuf newLength
  return { data with bytes, length := newCount }

/-- `CFDataAppendBytes` -/
def appendBytes (junk : Nat → UInt8) (data : CFMutableData) (bytes : Source) (length : Nat) : Option CFMutableData :=
  replaceBytes junk data data.length 0 bytes length

/-- `CFDataDeleteBytes` -/
def deleteBytes (junk : Nat → UInt8) (data : CFMutableData) (location rangeLength : Nat) : Option CFMutableData :=
  replaceBytes junk data location rangeLength (.external []) 0

/-! ## Creation -/

/-- What the process and the allocator decide about a new data: the size below
which the bytes are stored in the object itself (`INLINE_BYTES_THRESHOLD`),
whether the executable is linked on Snow Leopard or later, and whether the
allocator is one that has to be asked. -/
structure Settings where
  inlineBytesThreshold : Nat
  linkedOnOrAfterSnowLeopard : Bool
  useAllocator : Bool

/-- `__CFDataInit` of a mutable data, whose bytes are copied. -/
def create (settings : Settings) (junk junk' : Nat → UInt8) (isGrowable : Bool) (capacity : Nat) (bytes : Source)
    (length : Nat) : Option CFMutableData :=
  let allocateInline := !isGrowable && decide (capacity < settings.inlineBytesThreshold)
  let numBytes := if isGrowable then (roundUpCapacity 1).toNat else capacity
  -- the memory of an object is cleared, and with it the bytes in it
  let cleared := allocateInline || (!isGrowable && !settings.linkedOnOrAfterSnowLeopard)
  replaceBytes junk'
    { bytes := allocate junk numBytes cleared
      length := 0
      needsToZero := !cleared
      isGrowable
      useAllocator := settings.useAllocator }
    0 0 bytes length

end CFLite.Data
