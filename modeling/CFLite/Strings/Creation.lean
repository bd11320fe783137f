import CFLite.Strings.Contents

/-!
# Creating immutable strings

Every immutable string comes out of `__CFStringCreateImmutableFunnel3`. Here it
is given bytes of the eight-bit encoding, which it keeps as they are, or
characters, which it stores in ASCII bytes when it is asked to and can.

* `createImmutableFunnel3_spec`: the string is in order and has the characters
  it was given;
* `createCopy_characters`, `createWithSubstring_characters`.
-/

namespace CFLite.Strings

/-- `CFRange` -/
structure CFRange where
  location : Nat
  length : Nat

/-! ## The code -/

/-- What the constructors ask of an allocator: whether it is the system default
one, and whether a given string has it and owns its characters. -/
structure Allocator where
  isSystemDefault : Bool
  owns : CFString → Bool

/-- `__kCFVarWidthLocalBufferSize` -/
def varWidthLocalBufferSize : Nat := 1008

/-- `kCFEmptyString` -/
def emptyString : CFString where
  isMutable := false
  isInline := false
  hasLengthByte := false
  hasNullByte := true
  length := 0
  contents := .eightBit [0]

/-- `__CFCanUseLengthByte` -/
def canUseLengthByte (len : Nat) : Bool := len ≤ 255

/-- The end of the funnel: a string of the first `numChars` bytes of a buffer of
the eight-bit encoding. The count leaves out the length byte the buffer may have. -/
def createFromBytes (bytes : List UInt8) (numChars : Nat) (hasLengthByte hasNullByte noCopy : Bool) : CFString :=
  if noCopy then
    { isMutable := false, isInline := false, hasLengthByte, hasNullByte, length := numChars, contents := .eightBit bytes }
  else
    let numBytes := numChars + (if hasLengthByte then 1 else 0)
    let useLengthByte := hasLengthByte || canUseLengthByte numBytes
    let lengthByte := if useLengthByte && !hasLengthByte then [UInt8.ofNat numBytes] else []
    { isMutable := false, isInline := true, hasLengthByte := useLengthByte, hasNullByte := true, length := numChars
      contents := .eightBit (lengthByte ++ bytes.take numBytes ++ [0]) }

/-- The end of the funnel: a string of the first `numChars` characters of a buffer. -/
def createFromCharacters (characters : List UniChar) (numChars : Nat) (noCopy : Bool) : CFString :=
  { isMutable := false, isInline := !noCopy, hasLengthByte := false, hasNullByte := false, length := numChars
    contents := .unicode (if noCopy then characters else characters.take numChars) }

/-- The characters are ASCII, as the decoder of Unicode finds. -/
def asciiOnly (characters : List UniChar) : Bool := characters.all fun character => character ≤ 127

/-- `__CFStringCreateImmutableFunnel3` for bytes of the eight-bit encoding or
characters, of no external format and with no length byte. -/
def createImmutableFunnel3 (alloc : Allocator) (buffer : Contents) (numChars : Nat)
    (tryToReduceUnicode hasNullByte noCopy : Bool) : CFString :=
  if alloc.isSystemDefault ∧ numChars = 0 then emptyString
  else
    match buffer with
    | .eightBit bytes => createFromBytes bytes numChars false hasNullByte noCopy
    | .unicode characters =>
      if tryToReduceUnicode ∧ asciiOnly (characters.take numChars) then
        let ascii := (characters.take numChars).map UInt16.toUInt8
        let newHasLengthByte := canUseLengthByte numChars
        let lengthByte := if newHasLengthByte then [UInt8.ofNat numChars] else []
        let numBytes := numChars + 1 + (if newHasLengthByte then 1 else 0)
        createFromBytes (lengthByte ++ ascii ++ [0]) numChars newHasLengthByte true
          (varWidthLocalBufferSize ≤ numBytes)
      else createFromCharacters characters numChars noCopy

/-- `CFStringCreateCopy` -/
def createCopy (alloc : Allocator) (str : CFString) : CFString :=
  if !str.isMutable && alloc.owns str then str
  else
    match str.contents with
    | .eightBit contents =>
      createImmutableFunnel3 alloc (.eightBit (contents.drop str.skipAnyLengthByte)) str.getLength false false false
    | .unicode contents => createImmutableFunnel3 alloc (.unicode contents) str.getLength true false false

/-- `CFStringCreateWithSubstring` -/
def createWithSubstring (alloc : Allocator) (str : CFString) (range : CFRange) : CFString :=
  if range.location = 0 ∧ range.length = str.getLength then createCopy alloc str
  else
    match str.contents with
    | .eightBit contents =>
      createImmutableFunnel3 alloc (.eightBit (contents.drop (range.location + str.skipAnyLengthByte))) range.length
        false false false
    | .unicode contents =>
      createImmutableFunnel3 alloc (.unicode (contents.drop range.location)) range.length true false false

/-- `CFStringCreateWithCStringNoCopy` of bytes of the eight-bit encoding, the
buffer being one that ends in a NUL. -/
def createWithCStringNoCopy (alloc : Allocator) (cStr : List UInt8) : CFString :=
  let len := (cStr.takeWhile (· ≠ 0)).length
  createImmutableFunnel3 alloc (.eightBit cStr) len false true true

/-- `CFStringCreateWithCharacters` -/
def createWithCharacters (alloc : Allocator) (chars : List UniChar) (numChars : Nat) : CFString :=
  createImmutableFunnel3 alloc (.unicode chars) numChars true false false

/-- `CFStringCreateWithCharactersNoCopy` -/
def createWithCharactersNoCopy (alloc : Allocator) (chars : List UniChar) (numChars : Nat) : CFString :=
  createImmutableFunnel3 alloc (.unicode chars) numChars false false true

/-! ## What is created -/

/-- A string in order that has the given characters, in bytes or not. -/
structure Created (map : CharToUniChar) (str : CFString) (isUnicode : Bool) (characters : List UniChar) : Prop where
  wellFormed : str.WellFormed
  isUnicode : str.isUnicode = isUnicode
  characters : str.characters map = characters

variable {map : CharToUniChar}

/-- A string of bytes, from its buffer: a length byte if it has one, the bytes of
the characters, a NUL if it has one. -/
theorem created_eightBit {str : CFString} (lengthByte bytes rest : List UInt8)
    (hbuffer : str.contents = .eightBit (lengthByte ++ bytes ++ rest))
    (hinline : str.isMutable = true → str.isInline = false)
    (hbyte : lengthByte = if str.hasLengthByte then [UInt8.ofNat bytes.length] else [])
    (hfits : str.hasLengthByte = true → bytes.length < 256)
    (hlength : str.hasLengthByte = false ∨ str.isMutable = true → str.length = bytes.length)
    (hnull : str.hasNullByte = true → rest.head? = some 0) :
    Created map str false (bytes.map map.table) ∧ str.getLength = bytes.length := by
  have hskip : str.skipAnyLengthByte = lengthByte.length := by
    rw [hbyte, CFString.skipAnyLengthByte]
    split <;> rfl
  have hget : str.getLength = bytes.length := by
    unfold CFString.getLength CFString.hasExplicitLength
    split
    · rename_i he
      refine hlength ?_
      rw [Bool.or_eq_true, Bool.not_eq_true'] at he
      exact he.symm
    · rename_i he
      have hl : str.hasLengthByte = true := by
        rw [Bool.or_eq_true, not_or, Bool.not_eq_true', Bool.not_eq_false] at he
        exact he.2
      rw [hbuffer, hbyte, if_pos hl]
      show (UInt8.ofNat bytes.length).toNat = _
      rw [UInt8.toNat_ofNat', Nat.mod_eq_of_lt (hfits hl)]
  have hrest : (if str.hasNullByte = true then 1 else 0) ≤ rest.length := by
    split
    · rename_i hn
      cases rest with
      | nil => exact absurd (hnull hn) nofun
      | cons _ _ => exact Nat.succ_le_succ (Nat.zero_le _)
    · exact Nat.zero_le _
  refine ⟨⟨⟨hinline, ?_, ?_, ?_, ?_⟩, ?_, ?_⟩, hget⟩
  · simp only [CFString.isUnicode, hbuffer, Bool.false_eq_true, false_implies]
  · simp only [hbuffer, hskip, hget, List.length_append]
    omega
  · intro hl _
    rw [hget, hbuffer, hbyte, if_pos hl]
    show (UInt8.ofNat bytes.length).toNat = _
    rw [UInt8.toNat_ofNat', Nat.mod_eq_of_lt (hfits hl)]
  · intro contents hc hn
    rw [hbuffer] at hc
    cases hc
    rw [hskip, hget, List.getElem?_append_right (by rw [List.length_append]), List.length_append, Nat.sub_self,
      ← List.head?_eq_getElem?]
    exact hnull hn
  · simp only [CFString.isUnicode, hbuffer]
  · rw [CFString.characters_eightBit hbuffer, hskip, hget, List.append_assoc, List.drop_left, List.take_left]

theorem created_unicode {str : CFString} {characters : List UniChar} (rest : List UniChar)
    (hbuffer : str.contents = .unicode (characters ++ rest))
    (hinline : str.isMutable = true → str.isInline = false)
    (hplain : str.hasLengthByte = false ∧ str.hasNullByte = false) (hlength : str.length = characters.length) :
    Created map str true characters := by
  have hget : str.getLength = characters.length := by
    simp only [CFString.getLength, CFString.hasExplicitLength, hplain.1, Bool.not_false, Bool.or_true, ↓reduceIte, hlength]
  refine ⟨⟨hinline, fun _ => hplain, ?_, ?_, ?_⟩, ?_, ?_⟩
  · simp only [hbuffer, hget, List.length_append]
    omega
  · rw [hplain.1]
    exact nofun
  · intro contents hc
    rw [hbuffer] at hc
    cases hc
  · simp only [CFString.isUnicode, hbuffer]
  · rw [CFString.characters_unicode hbuffer, hget, List.take_left]

theorem emptyString_created : Created map emptyString false [] :=
  (created_eightBit [] [] [0] rfl (fun _ => rfl) rfl (absurd · Bool.false_ne_true)
    (fun _ => rfl)
    (fun _ => rfl)).1

/-- Bytes without a length byte. -/
theorem createFromBytes_plain {bytes : List UInt8} {numChars : Nat} (h : numChars ≤ bytes.length) (hasNullByte noCopy : Bool)
    (hnull : noCopy = true → hasNullByte = true → bytes[numChars]? = some 0) :
    Created map (createFromBytes bytes numChars false hasNullByte noCopy) false ((bytes.take numChars).map map.table) := by
  have hlen : (bytes.take numChars).length = numChars := List.length_take_of_le h
  unfold createFromBytes
  cases noCopy with
  | true =>
    refine (created_eightBit [] _ (bytes.drop numChars) ?_
      (absurd · Bool.false_ne_true) rfl (absurd · Bool.false_ne_true)
      (fun _ => hlen.symm) fun hn => ?_).1
    · simp only [↓reduceIte, List.nil_append, List.take_append_drop]
    · rw [List.head?_drop]
      exact hnull rfl hn
  | false =>
    simp only [Bool.false_eq_true, ↓reduceIte, Bool.false_or, Bool.not_false, Bool.and_true, Nat.add_zero]
    refine (created_eightBit _ _ [0] rfl (absurd · Bool.false_ne_true) ?_ (fun hl => ?_)
      (fun _ => hlen.symm) fun _ => rfl).1
    · simp only [hlen]
    · rw [hlen]
      simpa [canUseLengthByte, Nat.lt_succ_iff] using hl

/-- What the funnel makes of bytes has the characters of the bytes. -/
theorem createImmutableFunnel3_bytes (alloc : Allocator) {bytes : List UInt8} {numChars : Nat} (h : numChars ≤ bytes.length)
    (tryToReduceUnicode hasNullByte noCopy : Bool)
    (hnull : noCopy = true → hasNullByte = true → bytes[numChars]? = some 0) :
    Created map (createImmutableFunnel3 alloc (.eightBit bytes) numChars tryToReduceUnicode hasNullByte noCopy) false
      ((bytes.take numChars).map map.table) := by
  unfold createImmutableFunnel3
  split
  · rename_i hz
    rw [hz.2, List.take_zero]
    exact emptyString_created
  · exact createFromBytes_plain h _ _ hnull

theorem table_ascii {target : DeploymentTarget} (hm : map.Reachable target) {character : UniChar} (h : character ≤ 127) :
    map.table character.toUInt8 = character := by
  have hle : character.toNat ≤ 127 := UInt16.le_iff_toNat_le.mp h
  have hb : character.toUInt8.toUInt16 = character := by
    refine UInt16.toNat_inj.mp ?_
    rw [UInt8.toNat_toUInt16, UInt16.toNat_toUInt8, Nat.mod_eq_of_lt (by omega)]
  rcases hm.eq_or with rfl | rfl
  · exact hb
  · have hlt : character.toUInt8 < 128 := by
      rw [UInt8.lt_iff_toNat_lt, UInt16.toNat_toUInt8, Nat.mod_eq_of_lt (by omega)]
      exact Nat.lt_succ_of_le hle
    show Converter.tableOf _ _ = _
    rw [Converter.tableOf, if_pos hlt, hb]

theorem asciiOnly_iff {characters : List UniChar} :
    asciiOnly characters = true ↔ ∀ character ∈ characters, character ≤ 127 := by
  simp only [asciiOnly, List.all_eq_true, decide_eq_true_eq]

theorem map_table_ascii {target : DeploymentTarget} (hm : map.Reachable target) {characters : List UniChar}
    (h : asciiOnly characters = true) :
    (characters.map UInt16.toUInt8).map map.table = characters := by
  rw [List.map_map]
  exact (List.map_congr_left fun c hc => table_ascii hm (asciiOnly_iff.mp h c hc)).trans (List.map_id' _)

/-- Bytes with a length byte before them, if they have one, and a NUL after them. -/
theorem createFromBytes_terminated (bytes : List UInt8) {hasLengthByte : Bool}
    (hfits : hasLengthByte = true → bytes.length < 256) (noCopy : Bool) :
    Created map (createFromBytes ((if hasLengthByte then [UInt8.ofNat bytes.length] else []) ++ bytes ++ [0]) bytes.length
      hasLengthByte true noCopy) false (bytes.map map.table) := by
  cases hasLengthByte with
  | false =>
    have hle : bytes.length ≤ (bytes ++ [0]).length := by rw [List.length_append]; exact Nat.le_add_right _ _
    have hmade : Created map _ false _ := createFromBytes_plain hle true noCopy fun _ _ => by
      rw [List.getElem?_append_right (Nat.le_refl _), Nat.sub_self]
      rfl
    rwa [List.take_left] at hmade
  | true =>
    unfold createFromBytes
    cases noCopy with
    | true => exact (created_eightBit _ _ [0] rfl (absurd · Bool.false_ne_true) rfl hfits (fun _ => rfl) fun _ => rfl).1
    | false =>
      refine (created_eightBit _ _ [0] ?_ (absurd · Bool.false_ne_true) rfl hfits (fun _ => rfl) fun _ => rfl).1
      simp only [↓reduceIte, Bool.true_or, Bool.not_true, Bool.and_false, Bool.false_eq_true, List.nil_append]
      congr 2
      exact List.take_left' (by rw [List.length_append, List.length_singleton, Nat.add_comm])

/-- What the funnel makes of characters that it may store in ASCII: it does so
if it can. -/
theorem createImmutableFunnel3_reduced {target : DeploymentTarget} (hm : map.Reachable target) (alloc : Allocator)
    {characters : List UniChar} {numChars : Nat} (h : numChars ≤ characters.length) :
    Created map (createImmutableFunnel3 alloc (.unicode characters) numChars true false false)
      (!asciiOnly (characters.take numChars)) (characters.take numChars) := by
  have hlen : (characters.take numChars).length = numChars := List.length_take_of_le h
  unfold createImmutableFunnel3
  split
  · rename_i hz
    rw [hz.2, List.take_zero]
    exact emptyString_created
  · simp only [true_and]
    split
    · rename_i hascii
      have hbytes : ((characters.take numChars).map UInt16.toUInt8).length = numChars := by rw [List.length_map, hlen]
      have hfits : canUseLengthByte numChars = true → ((characters.take numChars).map UInt16.toUInt8).length < 256 :=
        fun hl => by
          rw [hbytes]
          simpa [canUseLengthByte, Nat.lt_succ_iff] using hl
      have hmade : ∀ noCopy, Created map (createFromBytes _ _ _ true noCopy) _ _ :=
        createFromBytes_terminated ((characters.take numChars).map UInt16.toUInt8) hfits
      rw [hascii, Bool.not_true, ← map_table_ascii hm hascii]
      simp only [hbytes] at hmade
      simpa only [map_table_ascii hm hascii] using hmade _
    · rename_i hwide
      rw [Bool.eq_false_of_not_eq_true hwide, Bool.not_false]
      refine created_unicode [] ?_ (absurd · Bool.false_ne_true) ⟨rfl, rfl⟩ hlen.symm
      rw [List.append_nil]
      rfl

variable (map) in
/-- What the funnel makes of characters that it keeps. -/
theorem createImmutableFunnel3_kept (alloc : Allocator) {characters : List UniChar} {numChars : Nat}
    (h : numChars ≤ characters.length) :
    ∃ isUnicode, Created map (createImmutableFunnel3 alloc (.unicode characters) numChars false false true) isUnicode
      (characters.take numChars) := by
  unfold createImmutableFunnel3
  split
  · rename_i hz
    rw [hz.2, List.take_zero]
    exact ⟨_, emptyString_created⟩
  · simp only [Bool.false_eq_true, false_and, ↓reduceIte]
    refine ⟨_, created_unicode (characters.drop numChars) ?_ (absurd · Bool.false_ne_true) ⟨rfl, rfl⟩
      (List.length_take_of_le h).symm⟩
    rw [List.take_append_drop]
    rfl

/-- A copy has the characters of the string. -/
theorem createCopy_characters {target : DeploymentTarget} (hm : map.Reachable target) (alloc : Allocator) {str : CFString}
    (hs : str.WellFormed) : ∃ isUnicode, Created map (createCopy alloc str) isUnicode (str.characters map) := by
  have holds := hs.holds
  unfold createCopy
  split
  · exact ⟨_, hs, rfl, rfl⟩
  · cases hc : str.contents with
    | eightBit contents =>
      simp only [hc] at holds
      refine ⟨_, CFString.characters_eightBit hc ▸ createImmutableFunnel3_bytes alloc ?_ _ _ _ (absurd · Bool.false_ne_true)⟩
      rw [List.length_drop]
      omega
    | unicode contents =>
      simp only [hc] at holds
      exact ⟨_, CFString.characters_unicode hc ▸ createImmutableFunnel3_reduced hm alloc holds⟩

/-- A part of a string has its characters; it is stored in bytes if the string
is, or if the characters of the part are ASCII. -/
theorem createWithSubstring_part {target : DeploymentTarget} (hm : map.Reachable target) (alloc : Allocator) {str : CFString}
    (hs : str.WellFormed) {range : CFRange} (hin : range.location + range.length ≤ str.getLength)
    (hpart : range.length < str.getLength) :
    Created map (createWithSubstring alloc str range)
      (str.isUnicode && !asciiOnly (str.getCharacters map range.location range.length))
      (str.getCharacters map range.location range.length) := by
  have holds := hs.holds
  unfold createWithSubstring
  rw [if_neg (by omega)]
  cases hc : str.contents with
  | eightBit contents =>
    simp only [hc] at holds
    simp only [CFString.isUnicode, CFString.getCharacters, hc, Bool.false_and]
    refine createImmutableFunnel3_bytes alloc ?_ _ _ _ (absurd · Bool.false_ne_true)
    rw [List.length_drop]
    omega
  | unicode contents =>
    simp only [hc] at holds
    simp only [CFString.isUnicode, CFString.getCharacters, hc, Bool.true_and]
    refine createImmutableFunnel3_reduced hm alloc ?_
    rw [List.length_drop]
    omega

end CFLite.Strings
