import CFLite.Framework.Utf16
import CFLite.Strings.EightBitEncoding

/-!
# The UTF-8 converter

`__CFToUTF8` and `__CFFromUTF8` convert between UTF-16 code units and UTF-8, into
a buffer or, when its length is given as 0, only counting. `__CFToUTF8Len` and
`__CFFromUTF8Len` are separate copies of the two loops that count.

The decoder allows a byte 0xA9 that begins no sequence and gives U+FFFD for it.
Which characters have a decomposition, and which, is data the converter is given.
Characters are natural numbers below 2³².
-/

namespace CFLite.Strings

open Framework

/-! ## The code -/

/-- The flags of a conversion that the UTF-8 converter looks at. -/
structure ConversionFlags where
  useCanonical : Bool
  useHFSPlusCanonical : Bool
  lenientUTF8Conversion : Bool
  allowLossyConversion : Bool

/-- `CFUniCharIsDecomposableCharacter` and `CFUniCharDecomposeCharacter` -/
structure Decomposition where
  isDecomposableCharacter : (ch : Nat) → (isHFSPlus : Bool) → Bool
  decomposeCharacter : (ch : Nat) → List Nat

/-- What a converter returns: how much of its input it used, how much of the
output it needs, and the output. -/
structure Conversion (α : Type) where
  consumed : Nat
  used : Nat
  output : List α

/-- `__CFUTF8BytesToWriteForCharacter` -/
def bytesToWriteForCharacter (ch : Nat) : Nat :=
  if ch < 0x80 then 1
  else if ch < 0x800 then 2
  else if ch < 0x10000 then 3
  else if ch < 0x200000 then 4
  else if ch < 0x4000000 then 5
  else if ch ≤ 0x7FFFFFFF then 6
  else 0

def firstByteMark : List Nat := [0x00, 0x00, 0xC0, 0xE0, 0xF0, 0xF8, 0xFC]

/-- The `switch` of `__CFToUTF8Core`, from the last byte to the first. -/
def writeBytes (mark : Nat) : (bytesToWrite : Nat) → (ch : Nat) → (bytes : List UInt8) → List UInt8
  | 0, _, bytes => bytes
  | 1, ch, bytes => UInt8.ofNat (ch ||| mark) :: bytes
  | n + 2, ch, bytes => writeBytes mark (n + 1) (ch >>> 6) (UInt8.ofNat ((ch ||| 0x80) &&& 0xBF) :: bytes)

/-- `__CFToUTF8Core`: the bytes that it writes, none when there is no room. -/
def toUTF8Core (ch : Nat) (maxByteLen : Nat) : List UInt8 :=
  let bytesToWrite := bytesToWriteForCharacter ch
  let (bytesToWrite, ch) := if bytesToWrite = 0 then (2, 0xFFFD) else (bytesToWrite, ch)
  if maxByteLen < bytesToWrite then [] else writeBytes (firstByteMark.getD bytesToWrite 0) bytesToWrite ch []

/-- The character at the head of the units, and whether it takes two of them. A
strict conversion stops at a surrogate without its other half. -/
def nextCharacter (isStrict : Bool) (unit : UniChar) (characters : List UniChar) : Option (Nat × Bool) :=
  let ch := unit.toNat
  match characters with
  | low :: _ =>
    if IsHighSurrogate ch ∧ IsLowSurrogate low.toNat then
      some ((ch - 0xD800) <<< 10 + (low.toNat - 0xDC00) + 0x10000, true)
    else if isStrict ∧ (IsHighSurrogate ch ∨ IsLowSurrogate ch) then none
    else some (ch, false)
  | [] => if isStrict ∧ (IsHighSurrogate ch ∨ IsLowSurrogate ch) then none else some (ch, false)

/-- Writes or counts the bytes of a character. The room left is passed as an
`uint32_t`. -/
def putCharacter (maxByteLen ch : Nat) (done : Conversion UInt8) : Option (Conversion UInt8) :=
  let written := if maxByteLen ≠ 0 then toUTF8Core ch ((maxByteLen - done.used) % 2 ^ 32) else []
  let bytesWritten := if maxByteLen ≠ 0 then written.length else bytesToWriteForCharacter ch
  if bytesWritten = 0 then none
  else some { done with used := done.used + bytesWritten, output := done.output ++ written }

/-- The loop of `__CFToUTF8`. -/
def toUTF8Loop (isStrict : Bool) (maxByteLen : Nat) : List UniChar → Conversion UInt8 → Conversion UInt8
  | [], done => done
  | unit :: characters, done =>
    if maxByteLen ≠ 0 ∧ maxByteLen ≤ done.used then done
    else if unit.toNat < 0x80 then
      toUTF8Loop isStrict maxByteLen characters
        { consumed := done.consumed + 1, used := done.used + 1
          output := if maxByteLen ≠ 0 then done.output ++ [unit.toUInt8] else done.output }
    else
      match nextCharacter isStrict unit characters with
      | none => done
      | some (ch, pair) =>
        match putCharacter maxByteLen ch done with
        | none => done
        | some done =>
          if pair then
            match characters with
            | _ :: characters => toUTF8Loop isStrict maxByteLen characters { done with consumed := done.consumed + 2 }
            | [] => done
          else toUTF8Loop isStrict maxByteLen characters { done with consumed := done.consumed + 1 }

example : toUTF8Loop true 2 [0x41] ⟨0, 0, []⟩ = ⟨1, 1, [0x41]⟩ := by simp [toUTF8Loop]

/-- `__CFToUTF8` -/
def toUTF8 (flags : ConversionFlags) (characters : List UniChar) (maxByteLen : Nat) : Conversion UInt8 :=
  toUTF8Loop (!flags.useHFSPlusCanonical) maxByteLen characters ⟨0, 0, []⟩

/-- The loop of `__CFToUTF8Len`, which adds up in an `uint32_t`. -/
def toUTF8LenLoop : List UniChar → (bytesToWrite : Nat) → Nat
  | [], bytesToWrite => bytesToWrite
  | unit :: characters, bytesToWrite =>
    match characters with
    | low :: rest =>
      if IsHighSurrogate unit.toNat ∧ IsLowSurrogate low.toNat then
        let ch := (unit.toNat - 0xD800) <<< 10 + (low.toNat - 0xDC00) + 0x10000
        toUTF8LenLoop rest ((bytesToWrite + bytesToWriteForCharacter ch) % 2 ^ 32)
      else toUTF8LenLoop (low :: rest) ((bytesToWrite + bytesToWriteForCharacter unit.toNat) % 2 ^ 32)
    | [] => (bytesToWrite + bytesToWriteForCharacter unit.toNat) % 2 ^ 32

/-- `__CFToUTF8Len` -/
def toUTF8Len (_flags : ConversionFlags) (characters : List UniChar) : Nat := toUTF8LenLoop characters 0

def trailingBytesForUTF8 : List Nat :=
  List.replicate 192 0 ++ List.replicate 32 1 ++ List.replicate 16 2 ++ List.replicate 8 3 ++ List.replicate 4 4 ++
    List.replicate 4 5

def offsetsFromUTF8 : List Nat := [0x00000000, 0x00003080, 0x000E2080, 0x03C82080, 0xFA082080, 0x82082080]

/-- `__CFIsLegalUTF8` -/
def isLegalUTF8 (source : List UInt8) (length : Nat) : Bool :=
  if length > 4 then false
  else
    let head := source.headD 0
    let second := source.getD 1 0
    if ((source.take length).drop 1).any fun byte => byte &&& 0xC0 ≠ 0x80 then false
    else if (head ≥ 0x80 ∧ head < 0xC2) ∨ head > 0xF4 then false
    else if (head = 0xE0 ∧ second < 0xA0) ∨ (head = 0xED ∧ second > 0x9F) ∨ (head = 0xF0 ∧ second < 0x90) ∨
        (head = 0xF4 ∧ second > 0x8F) then false
    else true

/-- The `switch` of `__CFFromUTF8`: adds up the bytes of a sequence. -/
def addBytes : (extraBytesToRead : Nat) → (source : List UInt8) → (ch : Nat) → Nat
  | 0, source, ch => ch + (source.headD 0).toNat
  | n + 1, source, ch => addBytes n source.tail ((ch + (source.headD 0).toNat) <<< 6)

/-- What the first half of the loops of `__CFFromUTF8` and `__CFFromUTF8Len`
finds at the head of the source. -/
inductive Sequence where
  /-- Nothing, not enough bytes, or no legal sequence. -/
  | stop
  /-- A byte that is replaced. -/
  | replaced
  | decoded (ch : Nat) (extraBytesToRead : Nat)

/-- The first half of the two loops. -/
def nextSequence (flags : ConversionFlags) (source : List UInt8) : Sequence :=
  match source with
  | [] => .stop
  | head :: tail =>
    let extraBytesToRead := trailingBytesForUTF8.getD head.toNat 0
    if extraBytesToRead > tail.length then .stop
    else if extraBytesToRead > 3 ∨
        (!flags.lenientUTF8Conversion ∧ !isLegalUTF8 source (extraBytesToRead + 1)) then
      if head = 0xA9 ∨ flags.allowLossyConversion then .replaced else .stop
    else
      .decoded ((addBytes extraBytesToRead source 0 + 2 ^ 32 - offsetsFromUTF8.getD extraBytesToRead 0) % 2 ^ 32)
        extraBytesToRead

/-- The surrogates of a character above the BMP. -/
def surrogates (ch : Nat) : List UniChar :=
  let ch := ch - 0x10000
  [UInt16.ofNat ((ch >>> 10) + 0xD800), UInt16.ofNat ((ch &&& 0x3FF) + 0xDC00)]

/-- `CFUniCharFillDestinationBuffer` for UTF-16: the units, if there is room. -/
def fillDestinationBuffer : (src : List Nat) → (dstLength usedLength : Nat) → Option (List UniChar)
  | [], _, _ => some []
  | currentChar :: src, dstLength, usedLength =>
    if currentChar > 0xFFFF then
      if dstLength ≠ 0 ∧ usedLength + 2 > dstLength then none
      else (fillDestinationBuffer src dstLength (usedLength + 2)).map (surrogates currentChar ++ ·)
    else
      if dstLength ≠ 0 ∧ usedLength + 1 > dstLength then none
      else (fillDestinationBuffer src dstLength (usedLength + 1)).map (UInt16.ofNat currentChar :: ·)

/-- `decomposed[decompLength] < 0x10000 ? 1 : 2`, over the decomposition. -/
def unitCount (decomposed : List Nat) : Nat := (decomposed.map fun ch => if ch < 0x10000 then 1 else 2).sum

theorem nextSequence_consumes {flags : ConversionFlags} {source : List UInt8} {ch extraBytesToRead : Nat}
    (h : nextSequence flags source = .decoded ch extraBytesToRead) :
    extraBytesToRead < source.length := by
  unfold nextSequence at h
  cases source with
  | nil => exact Sequence.noConfusion h
  | cons head tail =>
    simp only at h
    split at h
    · exact Sequence.noConfusion h
    · rename_i hle
      split at h
      · split at h <;> exact Sequence.noConfusion h
      · obtain ⟨-, rfl⟩ := Sequence.decoded.inj h
        exact Nat.lt_succ_of_le (Nat.not_lt.mp hle)

/-- The units of a character, or none if there is no room for them. `strict` is
what `__CFFromUTF8` calls `isStrict`. -/
def putUnits (decomposition : Decomposition) (flags : ConversionFlags) (maxCharLen ch : Nat) (done : Conversion UniChar) :
    Option (Conversion UniChar) :=
  let isHFSPlus := flags.useHFSPlusCanonical
  let needsToDecompose := flags.useCanonical || isHFSPlus
  let put (units : List UniChar) : Conversion UniChar :=
    { done with
      used := done.used + units.length
      output := if maxCharLen ≠ 0 then done.output ++ units else done.output }
  if ch ≤ 0xFFFF then
    if needsToDecompose && decomposition.isDecomposableCharacter ch isHFSPlus then
      let decomposed := decomposition.decomposeCharacter ch
      if maxCharLen ≠ 0 then (fillDestinationBuffer decomposed maxCharLen done.used).map put
      else some { done with used := done.used + decomposed.length }
    else some (put [UInt16.ofNat ch])
  else if ch > 0x10FFFF then some (put [0xFFFD])
  else if needsToDecompose && decomposition.isDecomposableCharacter ch isHFSPlus then
    let decomposed := decomposition.decomposeCharacter ch
    if maxCharLen ≠ 0 then (fillDestinationBuffer decomposed maxCharLen done.used).map put
    else some { done with used := done.used + unitCount decomposed }
  else if maxCharLen ≠ 0 ∧ done.used + 2 > maxCharLen then none
  else some (put (surrogates ch))

/-- A character that a strict conversion does not take. -/
def rejected (flags : ConversionFlags) (ch : Nat) : Bool :=
  !flags.useHFSPlusCanonical && ((0xD800 ≤ ch && ch ≤ 0xDFFF) || ch > 0x10FFFF)

/-- The loop of `__CFFromUTF8`. When there is no room for a character, its bytes
count as used. -/
def fromUTF8Loop (decomposition : Decomposition) (flags : ConversionFlags) (maxCharLen : Nat) (source : List UInt8)
    (done : Conversion UniChar) : Conversion UniChar :=
  if maxCharLen ≠ 0 ∧ maxCharLen ≤ done.used then done
  else
    match _h : nextSequence flags source with
    | .stop => done
    | .replaced =>
      match source with
      | _ :: source =>
        fromUTF8Loop decomposition flags maxCharLen source
          { consumed := done.consumed + 1, used := done.used + 1
            output := if maxCharLen ≠ 0 then done.output ++ [0xFFFD] else done.output }
      | [] => done
    | .decoded ch extraBytesToRead =>
      if rejected flags ch then done
      else
        let consumed := done.consumed + extraBytesToRead + 1
        match putUnits decomposition flags maxCharLen ch done with
        | none => { done with consumed }
        | some done =>
          fromUTF8Loop decomposition flags maxCharLen (source.drop (extraBytesToRead + 1)) { done with consumed }
  termination_by source.length
  decreasing_by
    · simp
    · have := nextSequence_consumes _h
      rw [List.length_drop]
      omega

/-- `__CFFromUTF8` -/
def fromUTF8 (decomposition : Decomposition) (flags : ConversionFlags) (bytes : List UInt8) (maxCharLen : Nat) :
    Conversion UniChar :=
  fromUTF8Loop decomposition flags maxCharLen bytes ⟨0, 0, []⟩

/-- The units `__CFFromUTF8Len` counts for a character. -/
def countUnits (decomposition : Decomposition) (flags : ConversionFlags) (ch : Nat) : Nat :=
  let isHFSPlus := flags.useHFSPlusCanonical
  let needsToDecompose := flags.useCanonical || isHFSPlus
  if ch ≤ 0xFFFF then
    if needsToDecompose && decomposition.isDecomposableCharacter ch isHFSPlus then
      (decomposition.decomposeCharacter ch).length
    else 1
  else if ch > 0x10FFFF then 1
  else if needsToDecompose && decomposition.isDecomposableCharacter ch isHFSPlus then
    unitCount (decomposition.decomposeCharacter ch)
  else 2

/-- The loop of `__CFFromUTF8Len`. -/
def fromUTF8LenLoop (decomposition : Decomposition) (flags : ConversionFlags) (source : List UInt8) (used : Nat) : Nat :=
  match h : nextSequence flags source with
  | .stop => used
  | .replaced =>
    match source with
    | _ :: source => fromUTF8LenLoop decomposition flags source (used + 1)
    | [] => used
  | .decoded ch extraBytesToRead =>
    if !flags.useHFSPlusCanonical && (0xD800 ≤ ch && ch ≤ 0xDFFF) then used
    else
      fromUTF8LenLoop decomposition flags (source.drop (extraBytesToRead + 1))
        (used + countUnits decomposition flags ch)
  termination_by source.length
  decreasing_by
    · simp
    · have := nextSequence_consumes h
      rw [List.length_drop]
      omega

/-- `__CFFromUTF8Len` -/
def fromUTF8Len (decomposition : Decomposition) (flags : ConversionFlags) (source : List UInt8) : Nat :=
  fromUTF8LenLoop decomposition flags source 0

end CFLite.Strings
