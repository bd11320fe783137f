import CFLite.BinaryPlist.Format
import CFLite.Base.Object

/-!
# The binary property list writer

`__CFBinaryPlistWrite` into a `CFMutableData`. `flatten` lists the objects and
gives each a reference number; `writeObject` writes one object through the
buffer of the output; `binaryPlistWrite` puts the header, the objects, the
offset table and the trailer together.

The object table and the uniquing set compare pointers, so they are keyed by
references (`CFTypeRef`). Only strings, numbers, dates and data are uniqued:
the other objects are listed once for each reference to them, and their
first reference number stays.
-/

namespace CFLite.BinaryPlist

open CFLite.Framework

/-! ## The output -/

/-- `sizeof(buf->buffer)` -/
def bufferSize : Nat := 8192 - 32

/-- `__CFBinaryPlistWriteBuffer`: the data written to, the number of bytes
written to it, and the `used` bytes of the buffer, which is never full. -/
structure WriteBuffer where
  stream : List UInt8
  written : Nat
  buffer : List UInt8
  used_lt : buffer.length < bufferSize

namespace WriteBuffer

/-- `writeBytes` to a data. -/
def writeBytes (buf : WriteBuffer) (bytes : List UInt8) : WriteBuffer :=
  if bytes.length = 0 then buf
  else { buf with stream := buf.stream ++ bytes, written := buf.written + bytes.length }

/-- `buf->used = 0` after `writeBytes(buf, buf->buffer, buf->used)` -/
def bufferFlush (buf : WriteBuffer) : WriteBuffer :=
  { buf.writeBytes buf.buffer with buffer := [], used_lt := by decide }

/-- `bufferWrite` -/
def bufferWrite (buf : WriteBuffer) (bytes : List UInt8) : WriteBuffer :=
  if bytes.length = 0 then buf
  else if hbig : bufferSize ≤ bytes.length then buf.bufferFlush.writeBytes bytes
  else
    let copyLen := min bytes.length (bufferSize - buf.buffer.length)
    let buffer := buf.buffer ++ bytes.take copyLen
    if hfull : buffer.length = bufferSize then
      { buf.writeBytes buffer with
        buffer := bytes.drop copyLen
        used_lt := by simp only [List.length_drop]; omega }
    else
      { buf with
        buffer := buffer
        used_lt := by
          have := buf.used_lt
          simp only [buffer, List.length_append, List.length_take] at hfull ⊢
          omega }

/-- `buf->written + buf->used` -/
def position (buf : WriteBuffer) : Nat := buf.written + buf.buffer.length

/-- A buffer for a data that has some bytes already. -/
def start (stream : List UInt8) : WriteBuffer := ⟨stream, 0, [], by decide⟩

end WriteBuffer

/-- `_appendInt` -/
def appendInt (buf : WriteBuffer) (bigint : Nat) : WriteBuffer :=
  let (nbytes, marker) :=
    if bigint ≤ 0xff then (1, markerInt ||| 0)
    else if bigint ≤ 0xffff then (2, markerInt ||| 1)
    else if bigint ≤ 0xffffffff then (4, markerInt ||| 2)
    else (8, markerInt ||| 3)
  let bytes := (beBytes 8 bigint).drop (8 - nbytes)
  (buf.bufferWrite [marker]).bufferWrite bytes

/-- `_appendUID` -/
def appendUID (buf : WriteBuffer) (uid : UInt32) : WriteBuffer :=
  let bigint := uid.toNat
  let nbytes :=
    if bigint ≤ 0xff then 1 else if bigint ≤ 0xffff then 2 else if bigint ≤ 0xffffffff then 4 else 8
  let marker := markerUID ||| UInt8.ofNat (nbytes - 1)
  let bytes := (beBytes 8 bigint).drop (8 - nbytes)
  (buf.bufferWrite [marker]).bufferWrite bytes

/-! ## Reference numbers -/

/-- `objlist`, `objtable` and `uniquingset` -/
structure Flattened where
  objlist : List CFTypeRef
  objtable : List (CFTypeRef × Nat)
  uniquingset : List CFTypeRef

/-- Whether an object's class is one of those that are uniqued. -/
def isUniqued : Primitive → Bool
  | .string _ => true
  | .number _ => true
  | .date _ => true
  | .data _ => true
  | _ => false

namespace Flattened

/-- `CFDictionaryGetValue(objtable, value)` -/
def lookup (f : Flattened) (value : CFTypeRef) : Option Nat := f.objtable.lookup value

/-- `CFArrayAppendValue(objlist, plist)`, and `CFDictionaryAddValue(objtable,
plist, refnum)`, which keeps a number that is already there. The number is a
`uint32_t`. -/
def append (f : Flattened) (plist : CFTypeRef) : Flattened :=
  let refnum := f.objlist.length % 2 ^ 32
  { f with
    objlist := f.objlist ++ [plist]
    objtable := if (f.lookup plist).isSome then f.objtable else (plist, refnum) :: f.objtable }

end Flattened

mutual

/-- `_flattenPlist`. A set's members are not visited. -/
def flatten : CFTypeRef → Flattened → Flattened
  | .primitive base value, f =>
    let plist : CFTypeRef := .primitive base value
    if isUniqued value then
      if f.uniquingset.contains plist then f
      else { f with uniquingset := plist :: f.uniquingset }.append plist
    else f.append plist
  | .container base kind list, f =>
    let f := f.append (.container base kind list)
    if kind = .dictionary ∨ kind = .array then flattenList list f else f

/-- The loop over the references of a container. -/
def flattenList : List CFTypeRef → Flattened → Flattened
  | [], f => f
  | x :: xs, f => flattenList xs (flatten x f)

end

/-! ## Objects -/

/-- The loop of `_byteCount`: `size` grows while `count` has a bit above the
low `size` bytes. -/
def byteCountLoop : (steps count size : Nat) → Nat
  | 0, _, size => size
  | steps + 1, count, size => if count / 256 ^ size ≠ 0 then byteCountLoop steps count (size + 1) else size

/-- `_byteCount`: the bytes needed for `count`, rounded up to 1, 2, 4 or 8. -/
def byteCount (count : Nat) : Nat :=
  let size := byteCountLoop 8 count 0
  if size ≤ 1 then 1 else if size ≤ 2 then 2 else if size ≤ 4 then 4 else 8

/-- The marker of an object with a count, and the count if it does not fit
the marker. -/
def appendCount (buf : WriteBuffer) (marker : UInt8) (count : Nat) : WriteBuffer :=
  let buf := buf.bufferWrite [marker ||| UInt8.ofNat (if count < 15 then count else 0xf)]
  if 15 ≤ count then appendInt buf count else buf

/-- `__CFToASCII`: the paragraph separators become a newline. -/
def toASCII (character : UInt16) : Option UInt8 :=
  if character < 0x80 then some character.toUInt8
  else if character = 0x2028 ∨ character = 0x2029 then some 0x0a
  else none

/-- `CFStringGetBytes(…, kCFStringEncodingASCII, 0, …)`, when it converts all
characters. -/
def asciiBytes (chars : List UInt16) : Option (List UInt8) := chars.mapM toASCII

/-- The big-endian bytes of the characters. -/
def bytesOfChars (chars : List UInt16) : List UInt8 := chars.flatMap fun c => beBytes 2 c.toNat

/-- A string is written as ASCII when all its characters convert. -/
def appendString (buf : WriteBuffer) (chars : List UInt16) : WriteBuffer :=
  match asciiBytes chars with
  | some bytes => (appendCount buf markerASCIIString bytes.length).bufferWrite bytes
  | none => (appendCount buf markerUnicode16String chars.length).bufferWrite (bytesOfChars chars)

def appendNumber (buf : WriteBuffer) : CFNumber → WriteBuffer
  | .float32 bits _ => (buf.bufferWrite [markerReal ||| 2]).bufferWrite (beBytes 4 bits.toNat)
  | .float64 bits _ => (buf.bufferWrite [markerReal ||| 3]).bufferWrite (beBytes 8 bits.toNat)
  | .sint128 low => (buf.bufferWrite [markerInt ||| 4]).bufferWrite (beBytes 8 0 ++ beBytes 8 low.toNat)
  | .sint64 value => appendInt buf value.toUInt64.toNat

/-- A reference: the last `objectRefSize` bytes of the big-endian `uint32_t`
`swapped`. A size of 8 also takes the four bytes that lie before it on the
stack. -/
def appendRef (buf : WriteBuffer) (stack : Vector UInt8 4) (objectRefSize refnum : Nat) : WriteBuffer :=
  buf.bufferWrite ((stack.toList ++ beBytes 4 refnum).drop (8 - objectRefSize))

/-- The loop over the references of a container; an object that is not in the
table has reference number 0. -/
def appendRefs (f : Flattened) (stack : Vector UInt8 4) (objectRefSize : Nat) (list : List CFTypeRef)
    (buf : WriteBuffer) : WriteBuffer :=
  list.foldl (fun buf value => appendRef buf stack objectRefSize ((f.lookup value).getD 0)) buf

/-- One turn of the loop over `objlist`, or none for an object that cannot be
written. -/
def writeObject (f : Flattened) (stack : Vector UInt8 4) (objectRefSize : Nat) (buf : WriteBuffer) :
    CFTypeRef → Option WriteBuffer
  | .primitive _ (.string chars) => some (appendString buf chars)
  | .primitive _ (.number value) => some (appendNumber buf value)
  | .primitive _ (.uid value) => some (appendUID buf value)
  | .primitive _ (.boolean value) => some (buf.bufferWrite [if value then markerTrue else markerFalse])
  | .primitive _ (.data bytes) => some ((appendCount buf markerData bytes.length).bufferWrite bytes)
  | .primitive _ (.date time) => some ((buf.bufferWrite [markerDate]).bufferWrite (beBytes 8 time.toNat))
  | .primitive _ .null => none
  | .container _ .dictionary list =>
    some (appendRefs f stack objectRefSize list (appendCount buf markerDict (list.length / 2)))
  | .container _ .array list =>
    some (appendRefs f stack objectRefSize list (appendCount buf markerArray list.length))
  | .container _ .set _ => none

/-- The loop over `objlist`: the offsets of the objects, or none if one could
not be written. -/
def writeObjects (f : Flattened) (stack : Vector UInt8 4) (objectRefSize : Nat) :
    List CFTypeRef → WriteBuffer → WriteBuffer × Option (List Nat)
  | [], buf => (buf, some [])
  | obj :: objs, buf =>
    match writeObject f stack objectRefSize buf obj with
    | none => (buf, none)
    | some buf' =>
      let (buf', offsets) := writeObjects f stack objectRefSize objs buf'
      (buf', offsets.map (buf.position :: ·))

/-! ## The whole list -/

/-- `bplist00` -/
def header : List UInt8 := magic ++ [0x30]

/-- The trailer as it is written. -/
def trailerBytes (offsetIntSize objectRefSize cnt offsetTableOffset : Nat) : List UInt8 :=
  [0, 0, 0, 0, 0, 0, UInt8.ofNat offsetIntSize, UInt8.ofNat objectRefSize] ++ beBytes 8 cnt ++ beBytes 8 0 ++
    beBytes 8 offsetTableOffset

/-- The end of `__CFBinaryPlistWrite`: the offset table and the trailer. -/
def writeOffsets (buf : WriteBuffer) (objectRefSize cnt : Nat) (offsets : List Nat) : List UInt8 × Nat :=
  let lengthSoFar := buf.position
  let offsetIntSize := byteCount lengthSoFar
  let buf := offsets.foldl (fun buf off => buf.bufferWrite ((beBytes 8 off).drop (8 - offsetIntSize))) buf
  let buf := buf.bufferWrite (trailerBytes offsetIntSize objectRefSize cnt lengthSoFar)
  (buf.bufferFlush.stream, lengthSoFar + cnt * offsetIntSize + trailerSize)

/-- `__CFBinaryPlistWrite` into a data with the given bytes: its bytes after,
and the result. -/
def binaryPlistWrite (stack : Vector UInt8 4) (plist : CFTypeRef) (stream : List UInt8) : List UInt8 × Nat :=
  let f := flatten plist ⟨[], [], []⟩
  let cnt := f.objlist.length
  let objectRefSize := byteCount cnt
  match writeObjects f stack objectRefSize f.objlist ((WriteBuffer.start stream).bufferWrite header) with
  | (buf, none) => (buf.stream, 0)
  | (buf, some offsets) => writeOffsets buf objectRefSize cnt offsets

end CFLite.BinaryPlist
