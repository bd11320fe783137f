import CFLite.Strings.EightBitEncoding

/-!
# The contents of a string

The characters of a `CFString` lie in its contents buffer, as bytes of the
eight-bit encoding or as UTF-16 code units. A byte buffer may begin with the
length (a Pascal string) and end with a NUL; an immutable string with a length
byte has its length there and nowhere else.

* `characters`: the code units of a string;
* `getCharacterFromInlineBufferQuick_spec`: a `CFStringInlineBuffer` gives the
  characters of its range, whatever was read through it before.
-/

namespace CFLite.Strings

/-! ## The code -/

/-- What the contents pointer points at. -/
inductive Contents where
  | eightBit (bytes : List UInt8)
  | unicode (characters : List UniChar)

/-- `*(uint8_t *)buffer`, on a little-endian host. -/
def Contents.firstByte : Contents → UInt8
  | .eightBit bytes => bytes.headD 0
  | .unicode characters => (characters.headD 0).toUInt8

/-- `struct __CFString`: the bits of `_cfinfo`, the length field and the buffer. -/
structure CFString where
  isMutable : Bool
  isInline : Bool
  hasLengthByte : Bool
  hasNullByte : Bool
  length : Nat
  contents : Contents

namespace CFString

/-- `__CFStrIsUnicode` -/
def isUnicode (str : CFString) : Bool :=
  match str.contents with
  | .eightBit _ => false
  | .unicode _ => true

/-- `__CFStrHasExplicitLength` -/
def hasExplicitLength (str : CFString) : Bool := str.isMutable || !str.hasLengthByte

/-- `__CFStrSkipAnyLengthByte` -/
def skipAnyLengthByte (str : CFString) : Nat := if str.hasLengthByte then 1 else 0

/-- `__CFStrLength2`, `__CFStrLength` and `CFStringGetLength` -/
def getLength (str : CFString) : Nat :=
  if str.hasExplicitLength then str.length else str.contents.firstByte.toNat

/-- `CFStringGetCharacters` -/
def getCharacters (map : CharToUniChar) (str : CFString) (location length : Nat) : List UniChar :=
  match str.contents with
  | .eightBit bytes => ((bytes.drop (location + str.skipAnyLengthByte)).take length).map map.table
  | .unicode characters => (characters.drop location).take length

/-- `CFStringGetCharactersPtr` -/
def getCharactersPtr (str : CFString) : Option (List UniChar) :=
  match str.contents with
  | .eightBit _ => none
  | .unicode characters => some characters

end CFString

/-- `CFStringInlineBuffer` -/
structure InlineBuffer where
  buffer : List UniChar
  theString : CFString
  directBuffer : Option (List UniChar)
  location : Nat
  length : Nat
  bufferedRangeStart : Nat
  bufferedRangeEnd : Nat

/-- `CFStringInitInlineBuffer`. The characters of the buffer are not set. -/
def initInlineBuffer (str : CFString) (location length : Nat) (junk : List UniChar) : InlineBuffer where
  buffer := junk
  theString := str
  directBuffer := str.getCharactersPtr
  location := location
  length := length
  bufferedRangeStart := 0
  bufferedRangeEnd := 0

/-- `__kCFStringInlineBufferLength` -/
def inlineBufferLength : Nat := 64

/-- `__CFStringGetCharacterFromInlineBufferQuick`: the character, and the buffer
as it is left. -/
def getCharacterFromInlineBufferQuick (map : CharToUniChar) (buf : InlineBuffer) (idx : Nat) : UniChar × InlineBuffer :=
  match buf.directBuffer with
  | some directBuffer => (directBuffer.getD (idx + buf.location) 0, buf)
  | none =>
    if idx ≥ buf.bufferedRangeEnd ∨ idx < buf.bufferedRangeStart then
      let bufferedRangeStart := idx - 4
      let bufferedRangeEnd := min (bufferedRangeStart + inlineBufferLength) buf.length
      let buffer := buf.theString.getCharacters map (buf.location + bufferedRangeStart)
        (bufferedRangeEnd - bufferedRangeStart)
      (buffer.getD (idx - bufferedRangeStart) 0, { buf with buffer, bufferedRangeStart, bufferedRangeEnd })
    else
      (buf.buffer.getD (idx - buf.bufferedRangeStart) 0, buf)

/-! ## Strings in order -/

namespace CFString

/-- What the constructors of strings keep: a mutable string is not inline, a
Unicode buffer has no length byte and no NUL, and the buffer holds the
characters with the length byte and the NUL the bits tell of. The length byte is
the length where that fits. -/
structure WellFormed (str : CFString) : Prop where
  not_inline : str.isMutable = true → str.isInline = false
  unicode_plain : str.isUnicode = true → str.hasLengthByte = false ∧ str.hasNullByte = false
  holds : match str.contents with
    | .eightBit bytes => str.skipAnyLengthByte + str.getLength + (if str.hasNullByte then 1 else 0) ≤ bytes.length
    | .unicode characters => str.getLength ≤ characters.length
  lengthByte : str.hasLengthByte = true → str.getLength ≤ 255 → str.contents.firstByte.toNat = str.getLength
  nullByte : ∀ bytes, str.contents = .eightBit bytes → str.hasNullByte = true →
    bytes[str.skipAnyLengthByte + str.getLength]? = some 0

/-- The code units of a string. -/
def characters (map : CharToUniChar) (str : CFString) : List UniChar := str.getCharacters map 0 str.getLength

theorem characters_eightBit {map : CharToUniChar} {str : CFString} {bytes : List UInt8} (h : str.contents = .eightBit bytes) :
    str.characters map = ((bytes.drop str.skipAnyLengthByte).take str.getLength).map map.table := by
  simp only [characters, getCharacters, h, Nat.zero_add]

theorem characters_unicode {map : CharToUniChar} {str : CFString} {units : List UniChar} (h : str.contents = .unicode units) :
    str.characters map = units.take str.getLength := by
  simp only [characters, getCharacters, h, List.drop_zero]

theorem WellFormed.length_characters {str : CFString} (h : str.WellFormed) (map : CharToUniChar) :
    (str.characters map).length = str.getLength := by
  have holds := h.holds
  cases hc : str.contents with
  | eightBit bytes =>
    simp only [hc] at holds
    rw [characters_eightBit hc, List.length_map, List.length_take, List.length_drop]
    omega
  | unicode units =>
    simp only [hc] at holds
    rw [characters_unicode hc, List.length_take]
    omega

/-- A range of the characters is what `CFStringGetCharacters` copies. -/
theorem getCharacters_eq (map : CharToUniChar) (str : CFString) {location length : Nat}
    (h : location + length ≤ str.getLength) :
    str.getCharacters map location length = ((str.characters map).drop location).take length := by
  cases hc : str.contents with
  | eightBit bytes =>
    rw [characters_eightBit hc]
    simp only [getCharacters, hc]
    rw [← List.map_drop, ← List.map_take, List.drop_take, List.take_take, List.drop_drop, Nat.min_eq_left (by omega),
      Nat.add_comm location]
  | unicode units =>
    rw [characters_unicode hc]
    simp only [getCharacters, hc]
    rw [List.drop_take, List.take_take, Nat.min_eq_left (by omega)]

end CFString

/-- `CFStringRef`: a pointer to a string in order. -/
abbrev CFStringRef := { str : CFString // str.WellFormed }

/-- The inline string `__CFStringCreateImmutableFunnel3` makes of at most 255
bytes of the eight-bit encoding. -/
def inlineEightBit (bytes : List UInt8) : CFString where
  isMutable := false
  isInline := true
  hasLengthByte := true
  hasNullByte := true
  length := 0
  contents := .eightBit (UInt8.ofNat bytes.length :: bytes ++ [0])

theorem getLength_inlineEightBit {bytes : List UInt8} (h : bytes.length < 256) :
    (inlineEightBit bytes).getLength = bytes.length := by
  show (UInt8.ofNat bytes.length).toNat = bytes.length
  rw [UInt8.toNat_ofNat', Nat.mod_eq_of_lt h]

theorem inlineEightBit_wellFormed {bytes : List UInt8} (h : bytes.length < 256) : (inlineEightBit bytes).WellFormed where
  not_inline := nofun
  unicode_plain := nofun
  holds := by
    show 1 + (inlineEightBit bytes).getLength + 1 ≤ _
    rw [getLength_inlineEightBit h]
    simp
    omega
  lengthByte _ _ := rfl
  nullByte contents hc _ := by
    cases hc
    rw [getLength_inlineEightBit h]
    show (UInt8.ofNat bytes.length :: (bytes ++ [0]))[1 + bytes.length]? = some 0
    rw [Nat.add_comm, List.getElem?_cons_succ, List.getElem?_append_right (Nat.le_refl _), Nat.sub_self]
    rfl

/-- The inline string it makes of characters. -/
def inlineUnicode (characters : List UniChar) : CFString where
  isMutable := false
  isInline := true
  hasLengthByte := false
  hasNullByte := false
  length := characters.length
  contents := .unicode characters

theorem inlineUnicode_wellFormed (characters : List UniChar) : (inlineUnicode characters).WellFormed where
  not_inline := nofun
  unicode_plain _ := ⟨rfl, rfl⟩
  holds := Nat.le_refl _
  lengthByte := nofun
  nullByte := nofun

/-- The characters that lie in an inline buffer are those of the range it says. -/
structure InlineBuffer.Buffers (map : CharToUniChar) (buf : InlineBuffer) : Prop where
  direct : buf.directBuffer = buf.theString.getCharactersPtr
  inside : buf.location + buf.length ≤ buf.theString.getLength
  ends : buf.bufferedRangeEnd ≤ buf.length
  buffered : buf.bufferedRangeStart < buf.bufferedRangeEnd →
    buf.buffer = buf.theString.getCharacters map (buf.location + buf.bufferedRangeStart)
      (buf.bufferedRangeEnd - buf.bufferedRangeStart)

theorem initInlineBuffer_buffers (map : CharToUniChar) (str : CFString) {location length : Nat}
    (h : location + length ≤ str.getLength) (junk : List UniChar) :
    (initInlineBuffer str location length junk).Buffers map where
  direct := rfl
  inside := h
  ends := Nat.zero_le _
  buffered h := absurd h (by simp [initInlineBuffer])

/-- A character of a range that `CFStringGetCharacters` copied. -/
theorem getD_getCharacters (map : CharToUniChar) (str : CFString) {location length i : Nat}
    (h : location + length ≤ str.getLength) (hi : i < length) :
    (str.getCharacters map location length).getD i 0 = (str.characters map).getD (location + i) 0 := by
  rw [str.getCharacters_eq map h, List.getD_eq_getElem?_getD, List.getElem?_take_of_lt hi, List.getElem?_drop,
    ← List.getD_eq_getElem?_getD]

/-- A read through an inline buffer gives the character of the string, and
leaves a buffer of the same string and range. -/
theorem getCharacterFromInlineBufferQuick_spec {map : CharToUniChar} {buf : InlineBuffer} (hb : buf.Buffers map)
    {idx : Nat} (hidx : idx < buf.length) :
    ∃ buf', getCharacterFromInlineBufferQuick map buf idx =
        ((buf.theString.characters map).getD (buf.location + idx) 0, buf') ∧
      buf'.Buffers map ∧ buf'.theString = buf.theString ∧ buf'.location = buf.location ∧ buf'.length = buf.length := by
  have inside := hb.inside
  unfold getCharacterFromInlineBufferQuick
  cases hd : buf.directBuffer with
  | some directBuffer =>
    refine ⟨buf, ?_, hb, rfl, rfl, rfl⟩
    have hp := hb.direct
    rw [hd, CFString.getCharactersPtr] at hp
    cases hc : buf.theString.contents with
    | eightBit bytes => simp only [hc, reduceCtorEq] at hp
    | unicode units =>
      simp only [hc, Option.some.injEq] at hp
      subst hp
      simp only
      rw [CFString.characters_unicode hc, List.getD_eq_getElem?_getD, List.getD_eq_getElem?_getD,
        List.getElem?_take_of_lt (by omega), Nat.add_comm]
  | none =>
    have ends := hb.ends
    simp only
    split
    · refine ⟨_, Prod.ext ?_ rfl, ⟨hd ▸ hb.direct, inside, ?_, fun _ => rfl⟩, rfl, rfl, rfl⟩
      · simp only
        rw [getD_getCharacters map _ (by omega) (by unfold inlineBufferLength; omega)]
        congr 1
        omega
      · exact Nat.min_le_right _ _
    · rename_i hin
      refine ⟨buf, Prod.ext ?_ rfl, hb, rfl, rfl, rfl⟩
      simp only
      rw [hb.buffered (by omega), getD_getCharacters map _ (by omega) (by omega)]
      congr 1
      omega

end CFLite.Strings
