import CFLite.Framework.ByteOrder
import CFLite.Strings.Contents
import CFLite.Strings.UTF8

/-!
# Byte streams in the Unicode encodings

`__CFStringEncodeByteStream` gives the bytes of a string in an encoding, and
`__CFStringDecodeByteStream3` the characters of bytes, in the cases of the
Unicode encodings, on a little-endian host. A stream of external representation
begins with a byte order mark where the encoding does not tell the order.

* `fromUTF8Loop_progress`: the loop that reads UTF-8 moves on.
-/

namespace CFLite.Strings

open Framework

inductive UnicodeEncoding where
  | utf8
  | utf16
  | utf16BE
  | utf16LE
  | utf32
  | utf32BE
  | utf32LE
  deriving DecidableEq

/-! ## Encoding -/

/-- What `__CFStringEncodeByteStream` gives: the characters it processed, the
length it stores to `usedBufLen`, and what it wrote. -/
structure EncodedStream where
  numCharsProcessed : Nat
  usedBufLen : Nat
  bytes : List UInt8
  deriving DecidableEq

/-- `CFSwapInt16` -/
def swapInt16 (unit : UniChar) : UniChar := UInt16.ofNat (swapBytes 2 unit.toNat)

/-- `CFSwapInt32` -/
def swapInt32 (character : Nat) : Nat := swapBytes 4 character

/-- Units as they lie in memory. -/
def unitBytes (units : List UniChar) : List UInt8 := (units.map UInt16.toNat).flatMap (splitBytes 2)

/-- `CFStringGetCharacterFromInlineBuffer` -/
def getCharacterFromInlineBuffer (map : CharToUniChar) (buf : InlineBuffer) (idx : Nat) : UniChar × InlineBuffer :=
  match buf.directBuffer with
  | some directBuffer =>
    if idx ≥ buf.length then (0, buf) else (directBuffer.getD (idx + buf.location) 0, buf)
  | none =>
    if idx ≥ buf.bufferedRangeEnd ∨ idx < buf.bufferedRangeStart then
      if idx ≥ buf.length then (0, buf)
      else
        let bufferedRangeStart := idx - 4
        let bufferedRangeEnd := min (bufferedRangeStart + inlineBufferLength) buf.length
        let buffer := buf.theString.getCharacters map (buf.location + bufferedRangeStart)
          (bufferedRangeEnd - bufferedRangeStart)
        (buffer.getD (idx - bufferedRangeStart) 0, { buf with buffer, bufferedRangeStart, bufferedRangeEnd })
    else
      (buf.buffer.getD (idx - buf.bufferedRangeStart) 0, buf)

/-- The case of UTF-16. -/
def encodeUTF16 (map : CharToUniChar) (string : CFString) (rangeLoc rangeLen : Nat) (generatingExternalFile : Bool)
    (encoding : UnicodeEncoding) (max : Option Nat) : EncodedStream :=
  let extraForBOM := if generatingExternalFile ∧ encoding = .utf16 then 2 else 0
  match max with
  | none => ⟨rangeLen, rangeLen * 2 + extraForBOM, []⟩
  | some max =>
    let numCharsProcessed :=
      if rangeLen * 2 + extraForBOM > max then (if max > extraForBOM then (max - extraForBOM) / 2 else 0) else rangeLen
    let characters := string.getCharacters map rangeLoc numCharsProcessed
    ⟨numCharsProcessed, numCharsProcessed * 2 + extraForBOM,
      (if extraForBOM ≠ 0 then [0xFF, 0xFE] else []) ++
        unitBytes (if encoding = .utf16BE then characters.map swapInt16 else characters)⟩

/-- `CFUniCharGetLongCharacterForSurrogatePair` -/
def longCharacterForSurrogatePair (surrogateHigh surrogateLow : Nat) : Nat :=
  (surrogateHigh - 0xD800) <<< 10 + (surrogateLow - 0xDC00) + 0x10000

/-- `character = lossByte`, from a `char`, where there is a loss byte. -/
def lossCharacter (lossByte : UInt8) : Option Nat :=
  if lossByte = 0 then none
  else some (if lossByte < 0x80 then lossByte.toNat else 0xFFFFFF00 + lossByte.toNat)

/-- The character at an index of the range, a lone surrogate replaced. -/
def readCharacter (map : CharToUniChar) (rangeLen : Nat) (lossByte : UInt8) (buf : InlineBuffer) (idx : Nat) :
    Option Nat × InlineBuffer :=
  let (unit, buf) := getCharacterFromInlineBuffer map buf idx
  let character := unit.toNat
  if IsHighSurrogate character then
    if idx + 1 < rangeLen then
      let (otherCharacter, buf) := getCharacterFromInlineBuffer map buf (idx + 1)
      if IsLowSurrogate otherCharacter.toNat then
        (some (longCharacterForSurrogatePair character otherCharacter.toNat), buf)
      else (lossCharacter lossByte, buf)
    else (lossCharacter lossByte, buf)
  else if IsLowSurrogate character then (lossCharacter lossByte, buf)
  else (some character, buf)

/-- The loop of the case of UTF-32. -/
def encodeUTF32Loop (map : CharToUniChar) (swap : Bool) (rangeLen : Nat) (lossByte : UInt8) (max : Option Nat)
    (buf : InlineBuffer) (done : EncodedStream) : EncodedStream :=
  if done.numCharsProcessed < rangeLen then
    match readCharacter map rangeLen lossByte buf done.numCharsProcessed with
    | (none, _) => done
    | (some character, buf) =>
      let count := if character > 0xFFFF then 2 else 1
      match max with
      | none =>
        encodeUTF32Loop map swap rangeLen lossByte none buf
          ⟨done.numCharsProcessed + count, done.usedBufLen + 4, done.bytes⟩
      | some max =>
        if done.usedBufLen + 4 > max then done
        else
          encodeUTF32Loop map swap rangeLen lossByte (some max) buf
            ⟨done.numCharsProcessed + count, done.usedBufLen + 4,
              done.bytes ++ splitBytes 4 (if swap then swapInt32 character else character)⟩
  else done
  termination_by rangeLen - done.numCharsProcessed
  decreasing_by all_goals (split <;> omega)

/-- The case of UTF-32. -/
def encodeUTF32 (map : CharToUniChar) (string : CFString) (rangeLoc rangeLen : Nat) (generatingExternalFile : Bool)
    (encoding : UnicodeEncoding) (lossByte : UInt8) (max : Option Nat) (junk : List UniChar) : EncodedStream :=
  let start : EncodedStream :=
    if generatingExternalFile ∧ encoding = .utf32 then
      match max with
      | none => ⟨0, 4, []⟩
      | some max => if 4 > max then ⟨0, 0, []⟩ else ⟨0, 4, splitBytes 4 0x0000FEFF⟩
    else ⟨0, 0, []⟩
  encodeUTF32Loop map (encoding = .utf32BE) rangeLen lossByte max (initInlineBuffer string rangeLoc rangeLen junk) start

/-- The flags of a conversion that asks for nothing, or for a byte order mark,
which the UTF-8 converter does not look at. -/
def noFlags : ConversionFlags := ⟨false, false, false, false⟩

inductive ConversionResult where
  | success
  | insufficientOutputBufferLength
  | invalidInputStream
  deriving DecidableEq

/-- `CFStringEncodingUnicodeToBytes` for UTF-8. -/
def unicodeToBytes (characters : List UniChar) (maxByteLen : Nat) : ConversionResult × Conversion UInt8 :=
  let conversion := toUTF8 noFlags characters maxByteLen
  if conversion.consumed = characters.length then (.success, conversion)
  else if maxByteLen > 0 ∧ maxByteLen - conversion.used < 10 then
    let character := (characters.getD conversion.consumed 0).toNat
    let next := (characters.getD (conversion.consumed + 1) 0).toNat
    if IsLowSurrogate character ∨
        (IsHighSurrogate character ∧ (characters.length - conversion.consumed = 1 ∨ ¬ IsLowSurrogate next)) then
      (.invalidInputStream, conversion)
    else (.insufficientOutputBufferLength, conversion)
  else (.invalidInputStream, conversion)

/-- `kCFCharConversionBufferLength` -/
def charConversionBufferLength : Nat := 512

/-- The characters of a range that go through `charBuf` at a time: a pair of
surrogates is not divided. -/
def charBufLength (map : CharToUniChar) (string : CFString) (rangeLoc rangeLen : Nat) : Nat :=
  let currentLength := min rangeLen charConversionBufferLength
  let charBuf := string.getCharacters map rangeLoc currentLength
  if rangeLen > charConversionBufferLength ∧ IsHighSurrogate (charBuf.getD (charConversionBufferLength - 1) 0).toNat then
    currentLength - 1
  else currentLength

theorem charBufLength_pos (map : CharToUniChar) (string : CFString) (rangeLoc : Nat) {rangeLen : Nat} (h : 0 < rangeLen) :
    0 < charBufLength map string rangeLoc rangeLen := by
  unfold charBufLength charConversionBufferLength
  simp only
  split <;> omega

/-- The loop over a range that lies in bytes, for UTF-8. A conversion that finds
an invalid stream is tried again over composed characters; characters of the
eight-bit encoding are no surrogates, and that part of the code is left out. -/
def encodeChunks (map : CharToUniChar) (string : CFString) (rangeLoc rangeLen max : Nat) (done : EncodedStream) :
    Option EncodedStream :=
  if 0 < rangeLen then
    let currentLength := charBufLength map string rangeLoc rangeLen
    match unicodeToBytes (string.getCharacters map rangeLoc currentLength) max with
    | (.invalidInputStream, _) => none
    | (.insufficientOutputBufferLength, conversion) =>
      some ⟨done.numCharsProcessed + conversion.consumed, done.usedBufLen + conversion.used,
        done.bytes ++ conversion.output⟩
    | (.success, conversion) =>
      let done := ⟨done.numCharsProcessed + currentLength, done.usedBufLen + conversion.used,
        done.bytes ++ conversion.output⟩
      if max ≠ 0 ∧ max ≤ conversion.used then some done
      else encodeChunks map string (rangeLoc + currentLength) (rangeLen - currentLength) (max - conversion.used) done
  else some done
  termination_by rangeLen
  decreasing_by
    have := charBufLength_pos map string rangeLoc ‹0 < rangeLen›
    omega

/-- `CFStringGetCStringPtr` in the eight-bit encoding. -/
def CFString.getCStringPtr (str : CFString) : Option (List UInt8) :=
  match str.contents with
  | .eightBit bytes => if str.hasNullByte then some (bytes.drop str.skipAnyLengthByte) else none
  | .unicode _ => none

/-- `CFStringGetPascalStringPtr` in the eight-bit encoding. -/
def CFString.getPascalStringPtr (str : CFString) : Option (List UInt8) :=
  match str.contents with
  | .eightBit bytes =>
    if str.hasLengthByte then
      if str.hasExplicitLength ∧ str.getLength ≠ (bytes.headD 0).toNat then none else some bytes
    else none
  | .unicode _ => none

/-- Where the bytes that are below 0x80 end, as `while (*ptr < 0x80 && …) ++ptr;`
finds it. -/
def asciiRun (cString : List UInt8) (limit : Nat) : Nat := ((cString.take limit).takeWhile fun byte => byte < 0x80).length

/-- The bytes below 0x80 that a C string or a Pascal string begins with are
copied, and the rest goes through the converter. -/
def encodeFromPtr (map : CharToUniChar) (string : CFString) (cString : List UInt8) (limit rangeLoc rangeLen : Nat)
    (max : Option Nat) : Option EncodedStream :=
  let run := asciiRun cString limit
  let rangeLen := rangeLen - run
  let numCharsProcessed := match max with
    | none => run
    | some max => min run max
  let copied := match max with
    | none => []
    | some _ => cString.take numCharsProcessed
  let done : EncodedStream := ⟨numCharsProcessed, numCharsProcessed, copied⟩
  let left := max.map (· - numCharsProcessed)
  if rangeLen = 0 ∨ left = some 0 then some done
  else encodeChunks map string (rangeLoc + numCharsProcessed) rangeLen (left.getD 0) done

/-- The case of UTF-8 in `__CFStringEncodeByteStream`. -/
def encodeUTF8 (map : CharToUniChar) (string : CFString) (rangeLoc rangeLen : Nat) (max : Option Nat) :
    Option EncodedStream :=
  match string.getCharactersPtr with
  | some unichars =>
    let conversion := toUTF8 noFlags ((unichars.drop rangeLoc).take rangeLen) (max.getD 0)
    some ⟨conversion.consumed, conversion.used, conversion.output⟩
  | none =>
    match string.getCStringPtr with
    | some cString =>
      let uninterestingTailLen := match max with
        | none => 0
        | some max => rangeLen - min max rangeLen
      encodeFromPtr map string (cString.drop rangeLoc) (rangeLen - uninterestingTailLen) rangeLoc rangeLen max
    | none =>
      match string.getPascalStringPtr with
      | some pascal => encodeFromPtr map string (pascal.drop (rangeLoc + 1)) rangeLen rangeLoc rangeLen max
      | none => encodeChunks map string rangeLoc rangeLen (max.getD 0) ⟨0, 0, []⟩

/-- `__CFStringEncodeByteStream`. `max` is the length of the buffer, none when
there is no buffer. -/
def encodeByteStream (map : CharToUniChar) (string : CFString) (rangeLoc rangeLen : Nat) (generatingExternalFile : Bool)
    (encoding : UnicodeEncoding) (lossByte : UInt8) (max : Option Nat) (junk : List UniChar) : Option EncodedStream :=
  match encoding with
  | .utf8 => encodeUTF8 map string rangeLoc rangeLen max
  | .utf16 | .utf16BE | .utf16LE => some (encodeUTF16 map string rangeLoc rangeLen generatingExternalFile encoding max)
  | .utf32 | .utf32BE | .utf32LE =>
    some (encodeUTF32 map string rangeLoc rangeLen generatingExternalFile encoding lossByte max junk)

/-! ## Decoding -/

/-- `CFVarWidthCharBuffer`: the characters are in `ascii` or in `unicode`. -/
structure VarWidthCharBuffer where
  isASCII : Bool
  shouldFreeChars : Bool
  numChars : Nat
  ascii : List UInt8
  unicode : List UniChar

/-- The characters of the buffer. -/
def VarWidthCharBuffer.characters (buffer : VarWidthCharBuffer) : List UniChar :=
  if buffer.isASCII then (buffer.ascii.take buffer.numChars).map UInt8.toUInt16 else buffer.unicode.take buffer.numChars

/-- `MAX_LOCAL_CHARS` -/
def maxLocalChars : Nat := 1008

/-- `MAX_LOCAL_UNICHARS` -/
def maxLocalUniChars : Nat := 504

/-- What `__CFStringDecodeByteStream3` gives: whether it could, the buffer, and
whether the buffer is the client's memory. -/
structure DecodedStream where
  result : Bool
  buffer : VarWidthCharBuffer
  usesClientsMemory : Bool

/-- A buffer without characters. -/
def emptyBuffer (alwaysUnicode : Bool) : VarWidthCharBuffer := ⟨!alwaysUnicode, false, 0, [], []⟩

/-- The units of memory. -/
def readUnits (bytes : List UInt8) : List UniChar := (words 2 bytes).map UInt16.ofNat

/-- The case of UTF-16, with the units after the byte order mark. `supplied` says
that the caller gave a buffer, and `useClientsMemory` that it would take the
stream's own memory. -/
def decodeUTF16 (swap : Bool) (src : List UniChar) (alwaysUnicode supplied useClientsMemory : Bool) : DecodedStream :=
  if useClientsMemory ∧ ¬ swap then ⟨true, ⟨false, false, src.length, [], src⟩, true⟩
  else
    let mask : UniChar := if swap then 0x80FF else 0xFF80
    if !alwaysUnicode ∧ src.all fun character : UniChar => character &&& mask = 0 then
      ⟨true, ⟨true, !supplied && src.length > maxLocalChars, src.length,
        src.map fun character : UniChar => if swap then (character >>> 8).toUInt8 else character.toUInt8, []⟩, false⟩
    else
      ⟨true, ⟨false, !supplied && src.length > maxLocalUniChars, src.length, [],
        if swap then src.map swapInt16 else src⟩, false⟩

/-- The pass of the case of UTF-32 that looks for characters past ASCII and past
the BMP: whether the characters are ASCII, and the count of their units. -/
def scanUTF32 (strictUTF32 swap : Bool) : (src : List Nat) → (isASCII : Bool) → (numChars : Nat) → Option (Bool × Nat)
  | [], isASCII, numChars => some (isASCII, numChars)
  | character :: src, isASCII, numChars =>
    let asciiMask := if swap then 0x80FFFFFF else 0xFFFFFF80
    let bmpMask := if swap then 0x0000FFFF else 0xFFFF0000
    if character &&& asciiMask ≠ 0 then
      if character &&& bmpMask ≠ 0 then
        if strictUTF32 ∧ (if swap then swapInt32 character else character) > 0x10FFFF then none
        else scanUTF32 strictUTF32 swap src false (numChars + 1)
      else scanUTF32 strictUTF32 swap src false numChars
    else scanUTF32 strictUTF32 swap src isASCII numChars

/-- `CFUniCharFromUTF32`, with characters in the host's order. U+FFFF is taken
for a character past the BMP. -/
def fromUTF32 (allowLossy : Bool) : List Nat → Bool × List UniChar
  | [] => (true, [])
  | character :: src =>
    let put (units : List UniChar) (rest : Bool × List UniChar) := (rest.1, units ++ rest.2)
    if character < 0xFFFF then
      if allowLossy then
        if IsHighSurrogate character then
          match src.head? with
          | some otherCharacter =>
            if otherCharacter < 0x10000 ∧ IsLowSurrogate otherCharacter then
              put [UInt16.ofNat character, UInt16.ofNat otherCharacter] (fromUTF32 allowLossy src.tail)
            else put [0xFFFD] (fromUTF32 allowLossy src)
          | none => put [0xFFFD] (fromUTF32 allowLossy src)
        else if IsLowSurrogate character then put [0xFFFD] (fromUTF32 allowLossy src)
        else put [UInt16.ofNat character] (fromUTF32 allowLossy src)
      else if IsHighSurrogate character ∨ IsLowSurrogate character then (false, [])
      else put [UInt16.ofNat character] (fromUTF32 allowLossy src)
    else if character < 0x110000 then
      let character := (character + 2 ^ 32 - 0x10000) % 2 ^ 32
      put [UInt16.ofNat ((character >>> 10) + 0xD800), UInt16.ofNat ((character &&& 0x3FF) + 0xDC00)]
        (fromUTF32 allowLossy src)
    else if allowLossy then put [0xFFFD] (fromUTF32 allowLossy src)
    else (false, [])
  termination_by src => src.length
  decreasing_by all_goals (simp only [List.length_tail, List.length_cons]; omega)

/-- The case of UTF-32, with the characters after the byte order mark. -/
def decodeUTF32 (strictUTF32 swap : Bool) (src : List Nat) (alwaysUnicode supplied : Bool) : DecodedStream :=
  match scanUTF32 strictUTF32 swap src (!alwaysUnicode) src.length with
  | none => ⟨false, emptyBuffer true, false⟩
  | some (true, numChars) =>
    ⟨true, ⟨true, !supplied && numChars > maxLocalChars, numChars,
      src.map fun character => UInt8.ofNat (if swap then character >>> 24 else character), []⟩, false⟩
  | some (false, numChars) =>
    let (result, characters) := fromUTF32 (!strictUTF32) (if swap then src.map swapInt32 else src)
    ⟨result, ⟨false, !supplied && numChars > maxLocalUniChars, numChars, [], characters⟩, false⟩

/-- A conversion from UTF-8 does nothing, or uses some of the bytes. -/
theorem fromUTF8Loop_progress (decomposition : Decomposition) (flags : ConversionFlags) (maxCharLen : Nat)
    (source : List UInt8) (done : Conversion UniChar) :
    fromUTF8Loop decomposition flags maxCharLen source done = done ∨
      done.consumed < (fromUTF8Loop decomposition flags maxCharLen source done).consumed := by
  fun_induction fromUTF8Loop decomposition flags maxCharLen source done with
  | case1 | case2 | case4 | case5 => exact .inl rfl
  | case3 done _ head tail _ ih =>
    refine .inr (Nat.lt_of_lt_of_le (Nat.lt_succ_self done.consumed) ?_)
    simp only [dite_eq_ite] at ih
    rcases ih with heq | hlt
    · rw [heq]
    · exact Nat.le_of_lt hlt
  | case6 source done _ ch extraBytesToRead => exact .inr (by simp only; omega)
  | case7 source done _ ch extraBytesToRead _ _ _ done' _ ih =>
    refine .inr (Nat.lt_of_lt_of_le (Nat.lt_succ_of_le (Nat.le_add_right done.consumed extraBytesToRead)) ?_)
    rcases ih with heq | hlt
    · rw [heq]
    · exact Nat.le_of_lt hlt

/-- The loop of the case of UTF-8: the characters, or none where a conversion
gives nothing. -/
def decodeUTF8Loop (decomposition : Decomposition) (converterFlags : ConversionFlags) (len : Nat) (source : List UInt8)
    (numChars : Nat) (characters : List UniChar) : Bool × Nat × List UniChar :=
  if source = [] then (true, numChars, characters)
  else
    let conversion := fromUTF8 decomposition converterFlags source (len - numChars)
    if _h : conversion.used = 0 then (false, numChars, characters)
    else
      decodeUTF8Loop decomposition converterFlags len (source.drop conversion.consumed) (numChars + conversion.used)
        (characters ++ conversion.output)
  termination_by source.length
  decreasing_by
    have hlen := List.length_pos_iff.mpr ‹¬ source = []›
    rcases fromUTF8Loop_progress decomposition converterFlags (len - numChars) source ⟨0, 0, []⟩ with hp | hp
    · exact absurd (congrArg Conversion.used hp) _h
    · rw [List.length_drop]
      exact Nat.sub_lt hlen hp

/-- The case of UTF-8. -/
def decodeUTF8 (decomposition : Decomposition) (converterFlags : ConversionFlags) (bytes : List UInt8)
    (alwaysUnicode supplied : Bool) : DecodedStream :=
  let chars := if [0xEF, 0xBB, 0xBF] <+: bytes then bytes.drop 3 else bytes
  let len := chars.length
  if len = 0 then ⟨true, emptyBuffer alwaysUnicode, false⟩
  else if !alwaysUnicode ∧ chars.all fun byte => byte < 128 then
    ⟨true, ⟨true, !(!supplied && len ≤ maxLocalChars), len, chars, []⟩, false⟩
  else
    let (result, numChars, characters) := decodeUTF8Loop decomposition converterFlags len chars 0 []
    ⟨result, ⟨false, !(!supplied && len ≤ maxLocalUniChars), numChars, [], characters⟩, false⟩

/-- `__CFStringDecodeByteStream3`. Memory that a unit of the byte order mark would
reach past the stream's end counts as no mark. -/
def decodeByteStream3 (strictUTF32 : Bool) (decomposition : Decomposition) (bytes : List UInt8)
    (encoding : UnicodeEncoding) (alwaysUnicode supplied useClientsMemory : Bool) (converterFlags : ConversionFlags) :
    DecodedStream :=
  if bytes = [] then ⟨true, emptyBuffer alwaysUnicode, false⟩
  else
    match encoding with
    | .utf16 =>
      let src := readUnits bytes
      let bom := if src.headD 0 = 0xFFFE ∨ src.headD 0 = 0xFEFF then src.headD 0 else 0
      let src := if bom ≠ 0 then src.tail else src
      decodeUTF16 (bom ≠ 0xFEFF) src alwaysUnicode supplied (useClientsMemory && bom = 0)
    | .utf16BE => decodeUTF16 true (readUnits bytes) alwaysUnicode supplied useClientsMemory
    | .utf16LE => decodeUTF16 false (readUnits bytes) alwaysUnicode supplied useClientsMemory
    | .utf32 =>
      let src := words 4 bytes
      let bom := if src.headD 0 = 0xFFFE0000 ∨ src.headD 0 = 0x0000FEFF then src.headD 0 else 0
      let src := if bom ≠ 0 then src.tail else src
      decodeUTF32 strictUTF32 (bom ≠ 0x0000FEFF) src alwaysUnicode supplied
    | .utf32BE => decodeUTF32 strictUTF32 true (words 4 bytes) alwaysUnicode supplied
    | .utf32LE => decodeUTF32 strictUTF32 false (words 4 bytes) alwaysUnicode supplied
    | .utf8 => decodeUTF8 decomposition converterFlags bytes alwaysUnicode supplied

end CFLite.Strings
