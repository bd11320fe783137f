import CFLite.BinaryPlist.Format
import CFLite.Base.Equality

/-!
# The binary property list reader

`__CFBinaryPlistGetTopLevelInfo`, `__CFBinaryPlistCreateObject2` and
`__CFTryParseBinaryPlist`. Reading one object is split in two: `readObject`
reads what the object itself holds (the `switch` on its marker up to the
loops over references), and `createObject2` adds the object cache, the set of
offsets on the path and the recursion. Allocation succeeds, except that
`CFAllocatorAllocate` returns `NULL` for a size of zero.
-/

namespace CFLite.BinaryPlist

open CFLite.Framework

/-! ## The trailer -/

/-- The loop over the offset table: every entry must be at most `maxOff`. -/
def checkOffsets (m : Memory) (offsetIntSize : UInt8) (maxOff : Nat) : (count bytesptr : Nat) → Read Unit
  | 0, _ => return ()
  | count + 1, bytesptr => do
    let off ← getSizedInt m bytesptr offsetIntSize
    Read.failIf (maxOff < off)
    checkOffsets m offsetIntSize maxOff count (addPtr bytesptr offsetIntSize.toNat)

/-- `__CFBinaryPlistGetTopLevelInfo`: the marker and offset of the top object,
and the trailer. -/
def getTopLevelInfo (m : Memory) : Read (UInt8 × Nat × Trailer) := do
  let datalen := m.bytes.length
  Read.failIf (datalen < trailerSize + 8 + 1)
  let header ← m.derefBytes m.base 7
  Read.failIf (header ≠ magic)
  let trail ← m.derefBytes (ptr m (datalen - trailerSize)) trailerSize
  let t := Trailer.ofBytes trail
  Read.failIf (longMax < t.numObjects)
  Read.failIf (longMax < t.offsetTableOffset)
  Read.failIf (t.numObjects < 1)
  Read.failIf (t.numObjects ≤ t.topObject)
  Read.failIf (t.offsetTableOffset < 9)
  Read.failIf (datalen - trailerSize ≤ t.offsetTableOffset)
  Read.failIf (t.offsetIntSize < 1)
  Read.failIf (t.objectRefSize < 1)
  let offsetTableSize ← checkMul t.numObjects t.offsetIntSize.toNat
  Read.failIf (offsetTableSize < 1)
  let objectDataSize := t.offsetTableOffset - 8
  let tmpSum ← checkPtrAdd 8 objectDataSize
  let tmpSum ← checkPtrAdd tmpSum offsetTableSize
  let tmpSum ← checkPtrAdd tmpSum trailerSize
  Read.failIf (datalen ≠ tmpSum)
  Read.failIf (t.objectRefSize < 8 ∧ 2 ^ (8 * t.objectRefSize.toNat) ≤ t.numObjects)
  Read.failIf (t.offsetIntSize < 8 ∧ 2 ^ (8 * t.offsetIntSize.toNat) ≤ t.offsetTableOffset)
  let _objectsFirstByte ← checkPtrAdd m.base 8
  let offsetsFirstByte ← checkPtrAdd m.base t.offsetTableOffset
  let _offsetsLastByte ← checkPtrAdd offsetsFirstByte (offsetTableSize - 1)
  checkOffsets m t.offsetIntSize t.objectsRangeEnd t.numObjects (ptr m t.offsetTableOffset)
  let off ← getSizedInt m (addPtr (ptr m t.offsetTableOffset) (t.topObject * t.offsetIntSize.toNat))
    t.offsetIntSize
  Read.failIf (off < 8 ∨ t.offsetTableOffset ≤ off)
  let marker ← m.deref (ptr m off)
  return (marker, off, t)

/-! ## Integers and references -/

/-- `_readInt`: the integer at `p`, and the address after it. A size of 256
or more does not fit the `uint8_t` that `_getSizedInt` takes. -/
def readInt (m : Memory) (p endBytePtr : Nat) : Read (Nat × Nat) := do
  Read.failIf (endBytePtr < p)
  let marker ← m.deref p
  let p := addPtr p 1
  Read.failIf (marker &&& 0xf0 ≠ markerInt)
  let cnt := 2 ^ lowNibble marker
  let next ← checkPtrAdd p cnt
  Read.failIf (endBytePtr < next - 1)
  let bigint ← getSizedInt m p (UInt8.ofNat cnt)
  return (bigint, next)

/-- The count of an object whose marker byte is before `p`, and the address
of what it counts. -/
def readCount (m : Memory) (t : Trailer) (marker : UInt8) (p : Nat) : Read (Nat × Nat) :=
  if lowNibble marker = 0xf then do
    let (bigint, p) ← readInt m p (ptr m t.objectsRangeEnd)
    Read.failIf (longMax < bigint)
    return (bigint, p)
  else return (lowNibble marker, p)

/-- The `cnt` bytes at `p` must end before the offset table. -/
def checkExtent (m : Memory) (t : Trailer) (p cnt : Nat) : Read Unit := do
  let next ← checkPtrAdd p cnt
  Read.failIf (ptr m t.objectsRangeEnd < next - 1)

/-- `_getOffsetOfRefAt`: the offset of the object that the reference at
`bytesptr` names, or `UINT64_MAX`. -/
def getOffsetOfRefAt (m : Memory) (t : Trailer) (bytesptr : Nat) : Read Nat :=
  let objectsFirstByte := ptr m 8
  let offsetsFirstByte := ptr m t.offsetTableOffset
  if bytesptr < objectsFirstByte ∨ subPtr offsetsFirstByte t.objectRefSize.toNat < bytesptr then
    return maxOffset
  else do
    let ref ← getSizedInt m bytesptr t.objectRefSize
    if t.numObjects ≤ ref then return maxOffset
    else getSizedInt m (addPtr (ptr m t.offsetTableOffset) (ref * t.offsetIntSize.toNat)) t.offsetIntSize

/-! ## One object -/

/-- What an object itself holds: a value, or `count` references from address
`refs` on. -/
inductive Node where
  | primitive (value : Primitive)
  | container (kind : Kind) (count refs : Nat)
  deriving DecidableEq

/-- `CFSwapInt16BigToHost` on each of the characters. -/
def charsOfBytes : List UInt8 → List UInt16
  | high :: low :: bytes => UInt16.ofNat (high.toNat * 256 + low.toNat) :: charsOfBytes bytes
  | _ => []

/-- `case kCFBinaryPlistMarkerInt`. A 16-byte integer keeps only its low
half. -/
def readIntObject (m : Memory) (t : Trailer) (marker : UInt8) (p : Nat) : Read Primitive := do
  let cnt := 2 ^ lowNibble marker
  checkExtent m t p cnt
  Read.failIf (16 < cnt)
  let bigint ← getSizedInt m p (UInt8.ofNat cnt)
  if 8 < cnt then return .number (.sint128 (UInt64.ofNat bigint))
  else return .number (.sint64 (UInt64.ofNat bigint).toInt64)

/-- `case kCFBinaryPlistMarkerReal` -/
def readReal (m : Memory) (t : Trailer) (marker : UInt8) (p : Nat) : Read Primitive := do
  match lowNibble marker with
  | 2 =>
    checkExtent m t p 4
    let swapped32 ← m.derefBytes p 4
    return .number (.createFloat32 (UInt32.ofNat (beValue swapped32)))
  | 3 =>
    checkExtent m t p 8
    let swapped64 ← m.derefBytes p 8
    return .number (.createFloat64 (UInt64.ofNat (beValue swapped64)))
  | _ => Read.fail

/-- `case kCFBinaryPlistMarkerDate & 0xf0` -/
def readDate (m : Memory) (t : Trailer) (marker : UInt8) (p : Nat) : Read Primitive := do
  Read.failIf (marker ≠ markerDate)
  checkExtent m t p 8
  let swapped64 ← m.derefBytes p 8
  return .date (UInt64.ofNat (beValue swapped64))

/-- `case kCFBinaryPlistMarkerData` -/
def readData (m : Memory) (t : Trailer) (marker : UInt8) (p : Nat) : Read Primitive := do
  let (cnt, p) ← readCount m t marker p
  checkExtent m t p cnt
  let bytes ← m.derefBytes p cnt
  return .data bytes

/-- `case kCFBinaryPlistMarkerASCIIString`: the decoder of
`kCFStringEncodingASCII` takes every byte to the character of that number. -/
def readASCIIString (m : Memory) (t : Trailer) (marker : UInt8) (p : Nat) : Read Primitive := do
  let (cnt, p) ← readCount m t marker p
  checkExtent m t p cnt
  let bytes ← m.derefBytes p cnt
  return .string (bytes.map UInt8.toUInt16)

/-- `case kCFBinaryPlistMarkerUnicode16String`: no buffer can be allocated for
an empty one. -/
def readUnicode16String (m : Memory) (t : Trailer) (marker : UInt8) (p : Nat) : Read Primitive := do
  let (cnt, p) ← readCount m t marker p
  let next ← checkPtrAdd p cnt
  let next ← checkPtrAdd (next - 1) cnt
  Read.failIf (ptr m t.objectsRangeEnd < next)
  let byteCnt ← checkMul cnt 2
  Read.failIf (byteCnt = 0)
  let bytes ← m.derefBytes p byteCnt
  return .string (charsOfBytes bytes)

/-- `case kCFBinaryPlistMarkerUID` -/
def readUID (m : Memory) (t : Trailer) (marker : UInt8) (p : Nat) : Read Primitive := do
  let cnt := lowNibble marker + 1
  checkExtent m t p cnt
  let bigint ← getSizedInt m p (UInt8.ofNat cnt)
  Read.failIf (2 ^ 32 - 1 < bigint)
  return .uid (UInt32.ofNat bigint)

/-- The number of references of a container of `cnt` members or entries. -/
def refCount (kind : Kind) (cnt : Nat) : Read Nat :=
  if kind = .dictionary then checkMul cnt 2 else return cnt

/-- `case kCFBinaryPlistMarkerArray`, `case kCFBinaryPlistMarkerSet` and `case
kCFBinaryPlistMarkerDict` up to the loop. -/
def readContainer (m : Memory) (t : Trailer) (kind : Kind) (marker : UInt8) (p : Nat) : Read Node := do
  let (cnt, p) ← readCount m t marker p
  let cnt ← refCount kind cnt
  let byteCnt ← checkMul cnt t.objectRefSize.toNat
  checkExtent m t p byteCnt
  let _byteCnt ← checkMul cnt 8
  return .container kind cnt p

/-- The `switch` on the marker, for the objects with bytes at `p` after it. -/
def readBody (m : Memory) (t : Trailer) (marker : UInt8) (p : Nat) : Read Node :=
  let high := marker &&& 0xf0
  if high = markerInt then .primitive <$> readIntObject m t marker p
  else if high = markerReal then .primitive <$> readReal m t marker p
  else if high = markerDate &&& 0xf0 then .primitive <$> readDate m t marker p
  else if high = markerData then .primitive <$> readData m t marker p
  else if high = markerASCIIString then .primitive <$> readASCIIString m t marker p
  else if high = markerUnicode16String then .primitive <$> readUnicode16String m t marker p
  else if high = markerUID then .primitive <$> readUID m t marker p
  else if high = markerArray then readContainer m t .array marker p
  else if high = markerSet then readContainer m t .set marker p
  else if high = markerDict then readContainer m t .dictionary marker p
  else Read.fail

/-- The object at `startOffset`, which is in the object table. -/
def readObject (m : Memory) (t : Trailer) (startOffset : Nat) : Read Node := do
  let marker ← m.deref (ptr m startOffset)
  if marker &&& 0xf0 = markerNull then
    if marker = markerNull then return .primitive .null
    else if marker = markerFalse then return .primitive (.boolean false)
    else if marker = markerTrue then return .primitive (.boolean true)
    else Read.fail
  else
    let p ← checkPtrAdd (ptr m startOffset) 1
    readBody m t marker p

/-! ## Objects and their references -/

/-- The state of the decoder: the objects made so far by offset, if they are
kept, and the address of the next new object. -/
structure Decoder where
  objects : Option (List (Nat × CFTypeRef))
  nextAddress : Nat

namespace Decoder

/-- `kCFNull`, `kCFBooleanFalse` and `kCFBooleanTrue` have addresses of their
own. -/
def kCFNull : CFTypeRef := .primitive ⟨0, false⟩ .null
def kCFBoolean (value : Bool) : CFTypeRef := .primitive ⟨if value then 1 else 2, false⟩ (.boolean value)

/-- A decoder that has made no object. -/
def start (cache : Bool) : Decoder := ⟨if cache then some [] else none, 3⟩

/-- A decoder that keeps no objects and makes none that is `key`. -/
def after (key : CFTypeRef) : Decoder := ⟨none, key.base.address + 3⟩

/-- `CFDictionaryGetValue(objects, startOffset)` -/
def lookup (d : Decoder) (startOffset : Nat) : Option CFTypeRef :=
  d.objects.bind (List.lookup startOffset)

/-- `CFDictionarySetValue(objects, startOffset, *plist)` -/
def keep (d : Decoder) (startOffset : Nat) (plist : CFTypeRef) : Decoder :=
  { d with objects := d.objects.map ((startOffset, plist) :: ·) }

/-- A new object, kept if `cached`. -/
def make (d : Decoder) (cached : Bool) (startOffset : Nat) (plist : CFRuntimeBase → CFTypeRef)
    (isMutable : Bool) : CFTypeRef × Decoder :=
  let plist := plist ⟨d.nextAddress, isMutable⟩
  let d := { d with nextAddress := d.nextAddress + 1 }
  (plist, if cached then d.keep startOffset plist else d)

/-- The object for a value. Strings and data are kept only when immutable. -/
def createPrimitive (d : Decoder) (option : Mutability) (startOffset : Nat) :
    Primitive → CFTypeRef × Decoder
  | .null => (kCFNull, d)
  | .boolean value => (kCFBoolean value, d)
  | .data bytes => leaf (.data bytes)
  | .string chars => leaf (.string chars)
  | .number value => d.make true startOffset (.primitive · (.number value)) false
  | .date time => d.make true startOffset (.primitive · (.date time)) false
  | .uid value => d.make true startOffset (.primitive · (.uid value)) false
where
  leaf (value : Primitive) : CFTypeRef × Decoder :=
    d.make (option ≠ .mutableContainersAndLeaves) startOffset (.primitive · value)
      (option = .mutableContainersAndLeaves)

/-- The container made of the objects in `list`. Containers are kept only
when immutable. -/
def createContainer (d : Decoder) (option : Mutability) (startOffset : Nat) (kind : Kind)
    (list : List CFTypeRef) : CFTypeRef × Decoder :=
  d.make (option = .immutable) startOffset (.container · kind (kind.create CFEqual list))
    (option ≠ .immutable)

end Decoder

/-- The offsets on the path below a container: the set is made at the first
container deeper than 15. -/
def enterPath (set : Option (List Nat)) (curDepth : Int) (startOffset : Nat) : Option (List Nat) :=
  match set with
  | some path => some (startOffset :: path)
  | none => if 15 < curDepth then some [startOffset] else none

/-- The loop over `count` references at `bytesptr`, of which the first `keys`
must be primitives. -/
def readRefs (m : Memory) (t : Trailer) (decode : Nat → Decoder → Read (CFTypeRef × Decoder)) :
    (count keys bytesptr : Nat) → Decoder → Read (List CFTypeRef × Decoder)
  | 0, _, _, d => return ([], d)
  | count + 1, keys, bytesptr, d => do
    let off ← getOffsetOfRefAt m t bytesptr
    let (pl, d) ← decode off d
    Read.failIf (0 < keys ∧ ¬pl.isPrimitive)
    let (list, d) ← readRefs m t decode count (keys - 1) (addPtr bytesptr t.objectRefSize.toNat) d
    return (pl :: list, d)

/-- The number of a container's references that must be primitives. -/
def keyCount (kind : Kind) (count : Nat) : Nat := if kind = .dictionary then count / 2 else 0

/-- `__CFBinaryPlistCreateObject2`. A run that ends with `Stop.fail` is a
return of `false`; what was kept by then is not used again. -/
def createObject2 (m : Memory) (t : Trailer) (option : Mutability) :
    (fuel startOffset : Nat) → (set : Option (List Nat)) → (curDepth : Int) → Decoder →
      Read (CFTypeRef × Decoder)
  | 0, _, _, _, _ => Read.outOfFuel
  | fuel + 1, startOffset, set, curDepth, d =>
    match d.lookup startOffset with
    | some plist => return (plist, d)
    | none => do
      Read.failIf ((set.getD []).contains startOffset)
      Read.failIf (startOffset < 8 ∨ t.objectsRangeEnd < startOffset)
      match ← readObject m t startOffset with
      | .primitive value => return d.createPrimitive option startOffset value
      | .container kind count refs => do
        let set := enterPath set curDepth startOffset
        let (list, d) ← readRefs m t (fun off d => createObject2 m t option fuel off set (curDepth + 1) d)
          count (keyCount kind count) refs d
        return d.createContainer option startOffset kind list

/-- A recursion budget that is never used up (`createObject2_ends`): sixteen
levels without a path, then a new offset on the path at each level. -/
def decodeFuel (t : Trailer) (curDepth : Int) : Nat := (16 - curDepth).toNat + t.offsetTableOffset + 3

/-- `__CFTryParseBinaryPlist`: `Stop.fail` when the data is not a binary
property list, and otherwise the object, or none if the data is corrupt. -/
def tryParseBinaryPlist (m : Memory) (option : Mutability) : Read (Option CFTypeRef) := do
  Read.failIf (m.bytes.length < 8)
  let (_, offset, t) ← getTopLevelInfo m
  let run := createObject2 m t option (decodeFuel t 0) offset none 0 (Decoder.start true)
  match run.result with
  | .ok (pl, _) => ⟨run.touched, .ok (some pl)⟩
  | .error .fail => ⟨run.touched, .ok none⟩
  | .error .fuel => ⟨run.touched, .error .fuel⟩

end CFLite.BinaryPlist
