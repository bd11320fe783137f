import CFLite.Strings.ByteStreamsEncode

/-!
# The non-lossy ASCII encoding

A unit is one byte where it is printable ASCII, a tab or the end of a line, and
else an escape: two backslashes, a backslash and three octal digits, or `\u` and
four hexadecimal digits. The decoder takes a byte at a time and keeps in `mode`
how far it is in an escape.

* `decodeNonLossyASCII_result_iff`: the decoder accepts sequences of whole items
  (`Items`), and nothing else;
* `encodeLoop_spec`: the encoder writes the items of the units that fit;
* `nonLossyASCII_roundTrip`: what the encoder wrote is decoded to the units it
  processed.
-/

namespace CFLite.Strings

namespace NonLossyASCII

/-! ## The code -/

/-- A character of the source as a byte. -/
def byte (c : Char) : UInt8 := UInt8.ofNat c.toNat

/-- `__NSNonLossyErrorMode` -/
def errorMode : Int := -1

/-- `__NSNonLossyASCIIMode` -/
def asciiMode : Int := 0

/-- `__NSNonLossyBackslashMode` -/
def backslashMode : Int := 1

/-- `__NSNonLossyHexInitialMode` -/
def hexInitialMode : Int := backslashMode + 1

/-- `__NSNonLossyHexFinalMode` -/
def hexFinalMode : Int := hexInitialMode + 4

/-- `__NSNonLossyOctalInitialMode` -/
def octalInitialMode : Int := hexFinalMode + 1

/-- `__NSNonLossyOctalFinalMode` -/
def octalFinalMode : Int := hexFinalMode + 3

/-- The `switch` of the decoder: `mode` and `currentValue` after a byte. -/
def decodeByte (mode : Int) (currentValue : UniChar) (character : UInt8) : Int × UniChar :=
  if mode = asciiMode then
    if character = byte '\\' then (backslashMode, currentValue)
    else if character < 0x80 then (asciiMode, character.toUInt16)
    else (errorMode, currentValue)
  else if mode = backslashMode then
    if character = byte 'U' ∨ character = byte 'u' then (hexInitialMode, 0)
    else if character ≥ byte '0' ∧ character ≤ byte '9' then (octalInitialMode, (character - byte '0').toUInt16)
    else if character = byte '\\' then (asciiMode, character.toUInt16)
    else (errorMode, currentValue)
  else if mode < hexFinalMode then
    let next := if mode + 1 = hexFinalMode then asciiMode else mode + 1
    if character ≥ byte '0' ∧ character ≤ byte '9' then (next, currentValue <<< 4 ||| (character - byte '0').toUInt16)
    else
      let character := if character ≥ byte 'a' then character - (byte 'a' - byte 'A') else character
      if character ≥ byte 'A' ∧ character ≤ byte 'F' then
        (next, currentValue <<< 4 ||| ((character - byte 'A').toUInt16 + 10))
      else (errorMode, currentValue)
  else
    if character ≥ byte '0' ∧ character ≤ byte '9' then
      (if mode + 1 = octalFinalMode then asciiMode else mode + 1, currentValue <<< 3 ||| (character - byte '0').toUInt16)
    else (errorMode, currentValue)

/-- The loop of the decoder: the `mode` it ends in, and the units. -/
def decodeLoop : (bytes : List UInt8) → (mode : Int) → (currentValue : UniChar) → (unicode : List UniChar) →
    Int × List UniChar
  | [], mode, _, unicode => (mode, unicode)
  | character :: bytes, mode, currentValue, unicode =>
    let next := decodeByte mode currentValue character
    if next.1 = asciiMode then decodeLoop bytes next.1 next.2 (unicode ++ [next.2])
    else if next.1 = errorMode then (next.1, unicode)
    else decodeLoop bytes next.1 next.2 unicode

/-- The case of `kCFStringEncodingNonLossyASCII` in `__CFStringDecodeByteStream3`. -/
def decodeNonLossyASCII (bytes : List UInt8) (alwaysUnicode supplied : Bool) : DecodedStream :=
  if bytes = [] then ⟨true, emptyBuffer alwaysUnicode, false⟩
  else
    let (mode, unicode) := decodeLoop bytes asciiMode 0 []
    ⟨mode = asciiMode, ⟨false, !(!supplied && bytes.length ≤ maxLocalUniChars), unicode.length, [], unicode⟩, false⟩

theorem errorMode_ne : errorMode ≠ asciiMode := by decide

theorem backslashMode_ne : backslashMode ≠ asciiMode := by decide

/-- `hex` -/
def hex : List UInt8 := ['0', '1', '2', '3', '4', '5', '6', '7', '8', '9', 'a', 'b', 'c', 'd', 'e', 'f'].map byte

/-- A character of `hex`. -/
def hexAt (digit : UniChar) : UInt8 := hex.getD digit.toNat 0

/-- The first `reqLength` bytes of `tmp`. -/
def escape (ch : UniChar) : List UInt8 :=
  if (ch ≥ 0x20 ∧ ch ≤ 0x7E ∧ ch ≠ 0x5C) ∨ ch = 0x0A ∨ ch = 0x0D ∨ ch = 0x09 then [ch.toUInt8]
  else if ch = 0x5C then [byte '\\', byte '\\']
  else if ch < 256 then
    [byte '\\', byte '0' + (ch >>> 6).toUInt8, byte '0' + ((ch >>> 3) &&& 7).toUInt8, byte '0' + (ch &&& 7).toUInt8]
  else
    [byte '\\', byte 'u', hexAt ((ch >>> 12) &&& 0x0F), hexAt ((ch >>> 8) &&& 0x0F), hexAt ((ch >>> 4) &&& 0x0F),
      hexAt (ch &&& 0x0F)]

/-- The loop of the encoder. `max` is the length of the buffer, none when there
is no buffer. -/
def encodeLoop (map : CharToUniChar) (rangeLen : Nat) (max : Option Nat) (buf : InlineBuffer) (done : EncodedStream) :
    EncodedStream :=
  if done.numCharsProcessed < rangeLen then
    let (ch, buf) := getCharacterFromInlineBuffer map buf done.numCharsProcessed
    let tmp := escape ch
    match max with
    | none =>
      encodeLoop map rangeLen none buf ⟨done.numCharsProcessed + 1, done.usedBufLen + tmp.length, done.bytes⟩
    | some max =>
      if done.usedBufLen + tmp.length > max then done
      else
        encodeLoop map rangeLen (some max) buf
          ⟨done.numCharsProcessed + 1, done.usedBufLen + tmp.length, done.bytes ++ tmp⟩
  else done
  termination_by rangeLen - done.numCharsProcessed

/-- The case of `kCFStringEncodingNonLossyASCII` in `__CFStringEncodeByteStream`. -/
def encodeNonLossyASCII (map : CharToUniChar) (string : CFString) (rangeLoc rangeLen : Nat) (max : Option Nat)
    (junk : List UniChar) : EncodedStream :=
  encodeLoop map rangeLen max (initInlineBuffer string rangeLoc rangeLen junk) ⟨0, 0, []⟩

/-! ## Items -/

/-- The value of a decimal digit. -/
def decimalDigit (c : UInt8) : Option UniChar :=
  if c ≥ byte '0' ∧ c ≤ byte '9' then some (c - byte '0').toUInt16 else none

/-- The value of a hexadecimal digit of either case. -/
def hexDigit (c : UInt8) : Option UniChar :=
  if c ≥ byte '0' ∧ c ≤ byte '9' then some (c - byte '0').toUInt16
  else if c ≥ byte 'A' ∧ c ≤ byte 'F' then some ((c - byte 'A').toUInt16 + 10)
  else if c ≥ byte 'a' ∧ c ≤ byte 'f' then some ((c - byte 'a').toUInt16 + 10)
  else none

/-- The value of the first digits of some bytes, and the bytes after them. -/
def readDigits (digit : UInt8 → Option UniChar) (shift : UniChar) :
    (count : Nat) → (value : UniChar) → (bytes : List UInt8) → Option (UniChar × List UInt8)
  | 0, value, bytes => some (value, bytes)
  | _ + 1, _, [] => none
  | count + 1, value, c :: bytes =>
    match digit c with
    | some d => readDigits digit shift count (value <<< shift ||| d) bytes
    | none => none

/-- The bytes of one item and the unit they stand for. -/
inductive Item : List UInt8 → UniChar → Prop
  | ascii {c : UInt8} : c < 0x80 → c ≠ byte '\\' → Item [c] c.toUInt16
  | backslash : Item [byte '\\', byte '\\'] 0x5C
  | octal {digits : List UInt8} {value : UniChar} :
      readDigits decimalDigit 3 3 0 digits = some (value, []) → Item (byte '\\' :: digits) value
  | hexadecimal {u : UInt8} {digits : List UInt8} {value : UniChar} :
      u = byte 'U' ∨ u = byte 'u' → readDigits hexDigit 4 4 0 digits = some (value, []) →
      Item (byte '\\' :: u :: digits) value

/-- Whole items one after another, and the units they stand for. -/
inductive Items : List UInt8 → List UniChar → Prop
  | nil : Items [] []
  | cons {item bytes : List UInt8} {unit : UniChar} {units : List UniChar} :
      Item item unit → Items bytes units → Items (item ++ bytes) (unit :: units)

theorem readDigits_cons {digit : UInt8 → Option UniChar} {shift : UniChar} {c : UInt8} {d : UniChar}
    (h : digit c = some d) (count : Nat) (value : UniChar) (bytes : List UInt8) :
    readDigits digit shift (count + 1) value (c :: bytes) = readDigits digit shift count (value <<< shift ||| d) bytes := by
  rw [readDigits, h]

theorem readDigits_append {digit : UInt8 → Option UniChar} {shift : UniChar} {count : Nat} {value v : UniChar}
    {digits : List UInt8} (h : readDigits digit shift count value digits = some (v, [])) (rest : List UInt8) :
    readDigits digit shift count value (digits ++ rest) = some (v, rest) := by
  induction count generalizing value digits with
  | zero =>
    obtain ⟨rfl, rfl⟩ := Prod.mk.inj (Option.some.inj h)
    rfl
  | succ count ih =>
    cases digits with
    | nil => cases h
    | cons c digits =>
      rw [readDigits] at h
      rw [List.cons_append, readDigits]
      cases hd : digit c with
      | none => simp only [hd, reduceCtorEq] at h
      | some d =>
        simp only [hd] at h
        exact ih h

theorem readDigits_eq_some {digit : UInt8 → Option UniChar} {shift : UniChar} {count : Nat} {value v : UniChar}
    {bytes rest : List UInt8} (h : readDigits digit shift count value bytes = some (v, rest)) :
    ∃ digits, bytes = digits ++ rest ∧ readDigits digit shift count value digits = some (v, []) := by
  induction count generalizing value bytes with
  | zero =>
    obtain ⟨rfl, rfl⟩ := Prod.mk.inj (Option.some.inj h)
    exact ⟨[], rfl, rfl⟩
  | succ count ih =>
    cases bytes with
    | nil => cases h
    | cons c bytes =>
      rw [readDigits] at h
      cases hd : digit c with
      | none => simp only [hd, reduceCtorEq] at h
      | some d =>
        simp only [hd] at h
        obtain ⟨digits, rfl, hdigits⟩ := ih h
        refine ⟨c :: digits, rfl, ?_⟩
        rw [readDigits]
        simp only [hd]
        exact hdigits

/-- The digits that were read are digits. -/
theorem digit_isSome_of_readDigits {digit : UInt8 → Option UniChar} {shift : UniChar} {count : Nat} {value v : UniChar}
    {digits : List UInt8} (h : readDigits digit shift count value digits = some (v, [])) :
    ∀ c ∈ digits, (digit c).isSome := by
  induction count generalizing value digits with
  | zero =>
    obtain ⟨-, rfl⟩ := Prod.mk.inj (Option.some.inj h)
    exact nofun
  | succ count ih =>
    cases digits with
    | nil => cases h
    | cons c digits =>
      rw [readDigits] at h
      cases hd : digit c with
      | none => simp only [hd, reduceCtorEq] at h
      | some d =>
        simp only [hd] at h
        rw [List.forall_mem_cons]
        exact ⟨by rw [hd]; rfl, ih h⟩

theorem decimalDigit_ascii {c : UInt8} (h : (decimalDigit c).isSome) : c < 0x80 := by
  unfold decimalDigit at h
  split at h
  · rename_i hc
    exact UInt8.lt_of_le_of_lt hc.2 (by decide)
  · cases h

theorem hexDigit_ascii {c : UInt8} (h : (hexDigit c).isSome) : c < 0x80 := by
  unfold hexDigit at h
  split at h
  · rename_i hc
    exact UInt8.lt_of_le_of_lt hc.2 (by decide)
  · split at h
    · rename_i hc
      exact UInt8.lt_of_le_of_lt hc.2 (by decide)
    · split at h
      · rename_i hc
        exact UInt8.lt_of_le_of_lt hc.2 (by decide)
      · cases h

/-- An item is made of ASCII. -/
theorem Item.forall_ascii {item : List UInt8} {unit : UniChar} (h : Item item unit) : ∀ c ∈ item, c < 0x80 := by
  have hbackslash : byte '\\' < 0x80 := by decide
  cases h with
  | ascii hc _ =>
    rw [List.forall_mem_singleton]
    exact hc
  | backslash =>
    simp only [List.forall_mem_cons]
    exact ⟨hbackslash, hbackslash, nofun⟩
  | octal hdigits =>
    rw [List.forall_mem_cons]
    exact ⟨hbackslash, fun c hc => decimalDigit_ascii (digit_isSome_of_readDigits hdigits c hc)⟩
  | hexadecimal hu hdigits =>
    rw [List.forall_mem_cons, List.forall_mem_cons]
    refine ⟨hbackslash, ?_, fun c hc => hexDigit_ascii (digit_isSome_of_readDigits hdigits c hc)⟩
    rcases hu with rfl | rfl <;> decide

/-! ## The decoder -/

section Decoder

variable {mode : Int} {value unit : UniChar} {c : UInt8}

theorem decodeLoop_ascii (h : decodeByte mode value c = (asciiMode, unit)) (bytes : List UInt8) (unicode : List UniChar) :
    decodeLoop (c :: bytes) mode value unicode = decodeLoop bytes asciiMode unit (unicode ++ [unit]) := by
  rw [decodeLoop, h]
  rfl

theorem decodeLoop_error (h : decodeByte mode value c = (errorMode, unit)) (bytes : List UInt8) (unicode : List UniChar) :
    decodeLoop (c :: bytes) mode value unicode = (errorMode, unicode) := by
  rw [decodeLoop, h]
  rfl

theorem decodeLoop_inside {next : Int} (h : decodeByte mode value c = (next, unit)) (hnext : 0 < next)
    (bytes : List UInt8) (unicode : List UniChar) :
    decodeLoop (c :: bytes) mode value unicode = decodeLoop bytes next unit unicode := by
  have hascii : next ≠ asciiMode := by unfold asciiMode; omega
  have herror : next ≠ errorMode := by unfold errorMode; omega
  rw [decodeLoop, h]
  simp only [if_neg hascii, if_neg herror]

theorem decodeByte_literal (hbackslash : c ≠ byte '\\') (hc : c < 0x80) :
    decodeByte asciiMode value c = (asciiMode, c.toUInt16) := by
  rw [decodeByte, if_pos rfl, if_neg hbackslash, if_pos hc]

theorem decodeByte_high (hc : ¬ c < 0x80) : decodeByte asciiMode value c = (errorMode, value) := by
  have hbackslash : c ≠ byte '\\' := by
    rintro rfl
    exact hc (by decide)
  rw [decodeByte, if_pos rfl, if_neg hbackslash, if_neg hc]

theorem decodeByte_backslash : decodeByte asciiMode value (byte '\\') = (backslashMode, value) := rfl

theorem decodeByte_doubled : decodeByte backslashMode value (byte '\\') = (asciiMode, 0x5C) := rfl

theorem decodeByte_u (hc : c = byte 'U' ∨ c = byte 'u') : decodeByte backslashMode value c = (hexInitialMode, 0) := by
  rw [decodeByte, if_neg (by decide), if_pos rfl, if_pos hc]

theorem decodeByte_octal {d : UniChar} (hd : decimalDigit c = some d) :
    decodeByte backslashMode value c = (octalInitialMode, d) := by
  unfold decimalDigit at hd
  split at hd
  · rename_i hc
    have hu : ¬(c = byte 'U' ∨ c = byte 'u') := by
      rintro (rfl | rfl)
      · exact absurd hc (by decide)
      · exact absurd hc (by decide)
    rw [decodeByte, if_neg (by decide), if_pos rfl, if_neg hu, if_pos hc, Option.some.inj hd]
  · cases hd

theorem decodeByte_other (hu : ¬(c = byte 'U' ∨ c = byte 'u')) (hd : decimalDigit c = none) (hbackslash : c ≠ byte '\\') :
    decodeByte backslashMode value c = (errorMode, value) := by
  unfold decimalDigit at hd
  split at hd
  · cases hd
  · rename_i hc
    rw [decodeByte, if_neg (by decide), if_pos rfl, if_neg hu, if_neg hc, if_neg hbackslash]

end Decoder

/-- In the modes from `initial` up to `final` the decoder takes digits. -/
def TakesDigits (digit : UInt8 → Option UniChar) (shift : UniChar) (initial final : Int) : Prop :=
  ∀ mode value c, initial ≤ mode → mode < final →
    decodeByte mode value c = match digit c with
      | some d => (if mode + 1 = final then asciiMode else mode + 1, value <<< shift ||| d)
      | none => (errorMode, value)

/-- A letter from `a` on less 0x20 is its capital. -/
theorem capital_of_lower {c : UInt8} (h : c ≥ byte 'a') :
    ((c - (byte 'a' - byte 'A') ≥ byte 'A' ∧ c - (byte 'a' - byte 'A') ≤ byte 'F') ↔ (c ≥ byte 'a' ∧ c ≤ byte 'f')) ∧
      c - (byte 'a' - byte 'A') - byte 'A' = c - byte 'a' := by
  have hc : 0x61 ≤ c.toNat := UInt8.le_iff_toNat_le.mp h
  have hsub : (c - (byte 'a' - byte 'A')).toNat = c.toNat - 0x20 :=
    UInt8.toNat_sub_of_le _ _ (UInt8.le_iff_toNat_le.mpr (show 0x20 ≤ c.toNat by omega))
  constructor
  · simp only [ge_iff_le, UInt8.le_iff_toNat_le, hsub]
    show (0x41 ≤ c.toNat - 0x20 ∧ c.toNat - 0x20 ≤ 0x46) ↔ (0x61 ≤ c.toNat ∧ c.toNat ≤ 0x66)
    omega
  · have hneg : -(byte 'a' - byte 'A') + -byte 'A' = -byte 'a' := by decide
    rw [UInt8.sub_eq_add_neg, UInt8.sub_eq_add_neg c, UInt8.sub_eq_add_neg c, UInt8.add_assoc, hneg]

theorem takesDigits_hex : TakesDigits hexDigit 4 hexInitialMode hexFinalMode := by
  intro mode value c hinitial hfinal
  have hmode : 2 ≤ mode := hinitial
  have hascii : mode ≠ asciiMode := by unfold asciiMode; omega
  have hbackslash : mode ≠ backslashMode := by unfold backslashMode; omega
  rw [decodeByte, if_neg hascii, if_neg hbackslash, if_pos hfinal, hexDigit]
  by_cases hdecimal : c ≥ byte '0' ∧ c ≤ byte '9'
  · simp only [if_pos hdecimal]
  · simp only [if_neg hdecimal]
    by_cases hlower : c ≥ byte 'a'
    · have hupper : ¬(c ≥ byte 'A' ∧ c ≤ byte 'F') := fun h => absurd (UInt8.le_trans hlower h.2) (by decide)
      obtain ⟨hiff, hsub⟩ := capital_of_lower hlower
      simp only [if_pos hlower, hiff, if_neg hupper, hsub]
      split <;> rfl
    · have hnot : ¬(c ≥ byte 'a' ∧ c ≤ byte 'f') := fun h => hlower h.1
      simp only [if_neg hlower, if_neg hnot]
      split <;> rfl

theorem takesDigits_octal : TakesDigits decimalDigit 3 octalInitialMode octalFinalMode := by
  intro mode value c hinitial hfinal
  have hmode : 7 ≤ mode := hinitial
  have hascii : mode ≠ asciiMode := by unfold asciiMode; omega
  have hbackslash : mode ≠ backslashMode := by unfold backslashMode; omega
  have hhex : ¬ mode < hexFinalMode := by
    have h6 : hexFinalMode = 6 := rfl
    omega
  rw [decodeByte, if_neg hascii, if_neg hbackslash, if_neg hhex, decimalDigit]
  split <;> rfl

/-- The digits that are left of an escape. -/
theorem decodeLoop_digits {digit : UInt8 → Option UniChar} {shift : UniChar} {initial final : Int}
    (h : TakesDigits digit shift initial final) (hpos : 0 < initial) (count : Nat)
    (hcount : initial ≤ final - (count + 1)) (value : UniChar) (bytes : List UInt8) (unicode : List UniChar) :
    (∀ v rest, readDigits digit shift (count + 1) value bytes = some (v, rest) →
      decodeLoop bytes (final - (count + 1)) value unicode = decodeLoop rest asciiMode v (unicode ++ [v])) ∧
    (readDigits digit shift (count + 1) value bytes = none →
      (decodeLoop bytes (final - (count + 1)) value unicode).1 ≠ asciiMode) := by
  induction count generalizing value bytes with
  | zero =>
    cases bytes with
    | nil =>
      refine ⟨nofun, fun _ => ?_⟩
      show final - (0 + 1) ≠ 0
      omega
    | cons c bytes =>
      have hbyte := h (final - (0 + 1)) value c hcount (by omega)
      rw [readDigits]
      cases hd : digit c with
      | none =>
        simp only [hd] at hbyte ⊢
        refine ⟨nofun, fun _ => ?_⟩
        rw [Nat.cast_zero, decodeLoop_error hbyte]
        exact errorMode_ne
      | some d =>
        simp only [hd] at hbyte ⊢
        rw [if_pos (by omega)] at hbyte
        refine ⟨fun v rest heq => ?_, nofun⟩
        obtain ⟨rfl, rfl⟩ := Prod.mk.inj (Option.some.inj heq)
        exact decodeLoop_ascii hbyte bytes unicode
  | succ count ih =>
    cases bytes with
    | nil =>
      refine ⟨nofun, fun _ => ?_⟩
      show final - ((count + 1 : Nat) + 1) ≠ 0
      omega
    | cons c bytes =>
      have hbyte := h (final - ((count + 1 : Nat) + 1)) value c hcount (by omega)
      rw [readDigits]
      cases hd : digit c with
      | none =>
        simp only [hd] at hbyte ⊢
        refine ⟨nofun, fun _ => ?_⟩
        rw [decodeLoop_error hbyte]
        exact errorMode_ne
      | some d =>
        simp only [hd] at hbyte ⊢
        have hnext : final - ((count + 1 : Nat) + 1) + 1 = final - (count + 1) := by omega
        rw [if_neg (by omega), hnext] at hbyte
        rw [decodeLoop_inside hbyte (by omega)]
        exact ih (by omega) _ bytes

/-- An item is consumed, and its unit appended. -/
theorem decodeLoop_item {item : List UInt8} {unit : UniChar} (h : Item item unit) (value : UniChar) (bytes : List UInt8)
    (unicode : List UniChar) :
    decodeLoop (item ++ bytes) asciiMode value unicode = decodeLoop bytes asciiMode unit (unicode ++ [unit]) := by
  cases h with
  | ascii hc hbackslash => exact decodeLoop_ascii (decodeByte_literal hbackslash hc) bytes unicode
  | backslash =>
    rw [List.cons_append, decodeLoop_inside decodeByte_backslash (by decide)]
    exact decodeLoop_ascii decodeByte_doubled bytes unicode
  | @octal digits _ hdigits =>
    cases digits with
    | nil => cases hdigits
    | cons c digits =>
      rw [readDigits] at hdigits
      cases hd : decimalDigit c with
      | none => simp only [hd, reduceCtorEq] at hdigits
      | some d =>
        simp only [hd, UInt16.zero_shiftLeft, UInt16.zero_or] at hdigits
        rw [List.cons_append, decodeLoop_inside decodeByte_backslash (by decide), List.cons_append,
          decodeLoop_inside (decodeByte_octal hd) (by decide)]
        exact (decodeLoop_digits takesDigits_octal (by decide) 1 (by decide) d (digits ++ bytes) unicode).1 _ _
          (readDigits_append hdigits bytes)
  | @hexadecimal u digits _ hu hdigits =>
    rw [List.cons_append, decodeLoop_inside decodeByte_backslash (by decide), List.cons_append,
      decodeLoop_inside (decodeByte_u hu) (by decide)]
    exact (decodeLoop_digits takesDigits_hex (by decide) 3 (by decide) 0 (digits ++ bytes) unicode).1 _ _
      (readDigits_append hdigits bytes)

theorem decodeLoop_items {bytes : List UInt8} {units : List UniChar} (h : Items bytes units) (value : UniChar)
    (unicode : List UniChar) : decodeLoop bytes asciiMode value unicode = (asciiMode, unicode ++ units) := by
  induction h generalizing value unicode with
  | nil => rw [List.append_nil, decodeLoop]
  | cons hitem _ ih => rw [decodeLoop_item hitem, ih, List.append_assoc, List.singleton_append]

/-- What ends in the ASCII mode is made of items. -/
theorem exists_items (bytes : List UInt8) (value : UniChar) (unicode : List UniChar)
    (h : (decodeLoop bytes asciiMode value unicode).1 = asciiMode) : ∃ units, Items bytes units := by
  induction hn : bytes.length using Nat.strong_induction_on generalizing bytes value unicode with
  | _ n ih =>
    subst hn
    -- an item at the front, and the bytes after it
    have hcons : ∀ (item rest : List UInt8) (unit : UniChar), Item item unit → item ≠ [] → bytes = item ++ rest →
        ∃ units, Items bytes units := by
      rintro item rest unit hitem hne rfl
      rw [decodeLoop_item hitem] at h
      have hlen := List.length_pos_iff.mpr hne
      obtain ⟨units, hunits⟩ := ih rest.length (by rw [List.length_append]; omega) rest _ _ h rfl
      exact ⟨unit :: units, .cons hitem hunits⟩
    cases bytes with
    | nil => exact ⟨[], .nil⟩
    | cons c bytes =>
      by_cases hc : c = byte '\\'
      · subst hc
        rw [decodeLoop_inside decodeByte_backslash (by decide)] at h
        cases bytes with
        | nil => exact absurd h backslashMode_ne
        | cons d bytes =>
          by_cases hu : d = byte 'U' ∨ d = byte 'u'
          · rw [decodeLoop_inside (decodeByte_u hu) (by decide)] at h
            have hdigits := decodeLoop_digits takesDigits_hex (by decide) 3 (by decide) 0 bytes unicode
            cases hread : readDigits hexDigit 4 4 0 bytes with
            | none => exact absurd h (hdigits.2 hread)
            | some read =>
              obtain ⟨digits, rfl, heq⟩ := readDigits_eq_some (show _ = some (read.1, read.2) from hread)
              exact hcons _ read.2 _ (.hexadecimal hu heq) (List.cons_ne_nil _ _) rfl
          · cases hd : decimalDigit d with
            | some digit =>
              rw [decodeLoop_inside (decodeByte_octal hd) (by decide)] at h
              have hdigits := decodeLoop_digits takesDigits_octal (by decide) 1 (by decide) digit bytes unicode
              cases hread : readDigits decimalDigit 3 2 digit bytes with
              | none => exact absurd h (hdigits.2 hread)
              | some read =>
                obtain ⟨digits, rfl, heq⟩ := readDigits_eq_some (show _ = some (read.1, read.2) from hread)
                have hthree : readDigits decimalDigit 3 3 0 (d :: digits) = some (read.1, []) := by
                  rw [readDigits]
                  simp only [hd, UInt16.zero_shiftLeft, UInt16.zero_or]
                  exact heq
                exact hcons _ read.2 _ (.octal hthree) (List.cons_ne_nil _ _) rfl
            | none =>
              by_cases hdouble : d = byte '\\'
              · subst hdouble
                exact hcons _ bytes _ .backslash (List.cons_ne_nil _ _) rfl
              · rw [decodeLoop_error (decodeByte_other hu hd hdouble)] at h
                exact absurd h errorMode_ne
      · by_cases hlow : c < 0x80
        · exact hcons _ bytes _ (.ascii hlow hc) (List.cons_ne_nil _ _) rfl
        · rw [decodeLoop_error (decodeByte_high hlow)] at h
          exact absurd h errorMode_ne

/-- The decoder accepts whole items, and nothing else. -/
theorem decodeNonLossyASCII_result_iff (bytes : List UInt8) (alwaysUnicode supplied : Bool) :
    (decodeNonLossyASCII bytes alwaysUnicode supplied).result = true ↔ ∃ units, Items bytes units := by
  unfold decodeNonLossyASCII
  split
  · rename_i hnil
    subst hnil
    exact ⟨fun _ => ⟨[], .nil⟩, fun _ => rfl⟩
  · simp only [decide_eq_true_eq]
    refine ⟨exists_items bytes 0 [], ?_⟩
    rintro ⟨units, h⟩
    rw [decodeLoop_items h]

theorem characters_decodeNonLossyASCII {bytes : List UInt8} {units : List UniChar} (h : Items bytes units)
    (alwaysUnicode supplied : Bool) : (decodeNonLossyASCII bytes alwaysUnicode supplied).buffer.characters = units := by
  unfold decodeNonLossyASCII
  split
  · rename_i hnil
    have hloop := decodeLoop_items h 0 []
    rw [hnil, decodeLoop, List.nil_append] at hloop
    obtain rfl : [] = units := congrArg Prod.snd hloop
    cases alwaysUnicode <;> rfl
  · simp only [decodeLoop_items h, List.nil_append, VarWidthCharBuffer.characters, Bool.false_eq_true, if_false,
      List.take_length]

/-! ## The encoder -/

/-- A digit put after a value. -/
theorem toNat_shiftLeft_or {value d shift : UniChar} {k v n : Nat} (hshift : shift.toNat = k) (hk : k < 16)
    (hvalue : value.toNat = v) (hd : d.toNat = n) (hn : n < 2 ^ k) (hfits : v * 2 ^ k < 2 ^ 16) :
    (value <<< shift ||| d).toNat = v * 2 ^ k + n := by
  subst hvalue hd
  rw [UInt16.toNat_or, UInt16.toNat_shiftLeft, hshift, Nat.mod_eq_of_lt hk, Nat.shiftLeft_eq, Nat.mod_eq_of_lt hfits,
    ← Nat.shiftLeft_eq, Nat.shiftLeft_add_eq_or_of_lt hn]

theorem toNat_shiftRight_and {ch shift mask : UniChar} {k m : Nat} (hshift : shift.toNat = k) (hk : k < 16)
    (hmask : mask.toNat = 2 ^ m - 1) : ((ch >>> shift) &&& mask).toNat = ch.toNat / 2 ^ k % 2 ^ m := by
  rw [UInt16.toNat_and, UInt16.toNat_shiftRight, hshift, Nat.mod_eq_of_lt hk, hmask, Nat.and_two_pow_sub_one_eq_mod,
    Nat.shiftRight_eq_div_pow]

theorem hexDigit_hexAt {d : UniChar} (hd : d.toNat < 16) : hexDigit (hexAt d) = some d := by
  have hall : ∀ n < 16, hexDigit (hexAt (UInt16.ofNat n)) = some (UInt16.ofNat n) := by decide
  have h := hall d.toNat hd
  rwa [UInt16.ofNat_toNat] at h

theorem decimalDigit_octal {d : UniChar} (hd : d.toNat < 8) : decimalDigit (byte '0' + d.toUInt8) = some d := by
  have hall : ∀ n < 8, decimalDigit (byte '0' + (UInt16.ofNat n).toUInt8) = some (UInt16.ofNat n) := by decide
  have h := hall d.toNat hd
  rwa [UInt16.ofNat_toNat] at h

/-- A unit that is written as it is. -/
theorem literal_item {ch : UniChar} (h : (ch ≥ 0x20 ∧ ch ≤ 0x7E ∧ ch ≠ 0x5C) ∨ ch = 0x0A ∨ ch = 0x0D ∨ ch = 0x09) :
    Item [ch.toUInt8] ch := by
  have hlow : ch.toNat < 0x80 := by
    rcases h with ⟨-, h, -⟩ | rfl | rfl | rfl
    · exact Nat.lt_of_le_of_lt (UInt16.le_iff_toNat_le.mp h) (by decide)
    · decide
    · decide
    · decide
  have hne : ch.toNat ≠ 0x5C := by
    rcases h with ⟨-, -, h⟩ | rfl | rfl | rfl
    · exact fun heq => h (UInt16.toNat_inj.mp heq)
    · decide
    · decide
    · decide
  have hbyte : ch.toUInt8.toNat = ch.toNat := by
    rw [UInt16.toNat_toUInt8]
    exact Nat.mod_eq_of_lt (by omega)
  have hunit : ch.toUInt8.toUInt16 = ch := by
    rw [← UInt16.toNat_inj, UInt8.toNat_toUInt16, hbyte]
  have hitem : Item [ch.toUInt8] ch.toUInt8.toUInt16 :=
    .ascii (UInt8.lt_iff_toNat_lt.mpr (hbyte ▸ hlow)) fun heq => hne (hbyte ▸ congrArg UInt8.toNat heq)
  rwa [hunit] at hitem

/-- The value of digits of `k` bits after a value. -/
def digitsValue (k : Nat) (v : Nat) (digits : List UniChar) : Nat := digits.foldl (fun v d => v * 2 ^ k + d.toNat) v

theorem le_digitsValue (k v : Nat) (digits : List UniChar) : v ≤ digitsValue k v digits := by
  induction digits generalizing v with
  | nil => exact le_rfl
  | cons d digits ih =>
    refine le_trans ?_ (ih (v * 2 ^ k + d.toNat))
    exact Nat.le_add_right_of_le (Nat.le_mul_of_pos_right v (Nat.two_pow_pos k))

/-- The digits that are written are read, when their value fits a unit. -/
theorem readDigits_digits {digit : UInt8 → Option UniChar} {code : UniChar → UInt8} {shift : UniChar} {k : Nat}
    (hshift : shift.toNat = k) (hk : k < 16) (hcode : ∀ d : UniChar, d.toNat < 2 ^ k → digit (code d) = some d)
    (digits : List UniChar) (hdigits : ∀ d ∈ digits, d.toNat < 2 ^ k) {value ch : UniChar}
    (hch : digitsValue k value.toNat digits = ch.toNat) :
    readDigits digit shift digits.length value (digits.map code) = some (ch, []) := by
  induction digits generalizing value with
  | nil => rw [← UInt16.toNat_inj.mp hch]; rfl
  | cons d digits ih =>
    obtain ⟨hd, hdigits⟩ := List.forall_mem_cons.mp hdigits
    have hfits : value.toNat * 2 ^ k < 2 ^ 16 := by
      refine Nat.lt_of_le_of_lt (Nat.le_trans (Nat.le_add_right _ d.toNat) ?_) ch.toNat_lt
      rw [← hch]
      exact le_digitsValue k _ digits
    rw [List.length_cons, List.map_cons, readDigits_cons (hcode d hd)]
    exact ih hdigits (toNat_shiftLeft_or hshift hk rfl rfl hd hfits ▸ hch)

theorem octal_digits {n : Nat} (h : n < 256) :
    ((0 * 2 ^ 3 + n / 2 ^ 6) * 2 ^ 3 + n / 2 ^ 3 % 2 ^ 3) * 2 ^ 3 + n % 2 ^ 3 = n := by omega

theorem hexadecimal_digits {n : Nat} (h : n < 2 ^ 16) :
    (((0 * 2 ^ 4 + n / 2 ^ 12 % 2 ^ 4) * 2 ^ 4 + n / 2 ^ 8 % 2 ^ 4) * 2 ^ 4 + n / 2 ^ 4 % 2 ^ 4) * 2 ^ 4 + n % 2 ^ 4 = n := by
  omega

/-- What the encoder writes for a unit is an item of that unit. -/
theorem escape_item (ch : UniChar) : Item (escape ch) ch := by
  unfold escape
  split
  · rename_i hplain
    exact literal_item hplain
  split
  · rename_i hbackslash
    rw [hbackslash]
    exact .backslash
  split
  · rename_i hbyte
    have hbyte : ch.toNat < 256 := hbyte
    have h0 : (ch >>> 6).toNat = ch.toNat / 2 ^ 6 := by
      rw [UInt16.toNat_shiftRight, Nat.shiftRight_eq_div_pow]
      rfl
    have h1 : ((ch >>> 3) &&& 7).toNat = ch.toNat / 2 ^ 3 % 2 ^ 3 := toNat_shiftRight_and rfl (by decide) rfl
    have h2 : (ch &&& 7).toNat = ch.toNat % 2 ^ 3 := by
      rw [UInt16.toNat_and]
      exact Nat.and_two_pow_sub_one_eq_mod _ 3
    refine .octal (readDigits_digits (k := 3) rfl (by decide) (fun _ => decimalDigit_octal)
      [ch >>> 6, (ch >>> 3) &&& 7, ch &&& 7] ?_ ?_)
    · rw [List.forall_mem_cons, List.forall_mem_cons, List.forall_mem_singleton, h0, h1, h2]
      exact ⟨Nat.div_lt_of_lt_mul (Nat.lt_of_lt_of_le hbyte (by decide)), Nat.mod_lt _ (by decide), Nat.mod_lt _ (by decide)⟩
    · simp only [digitsValue, List.foldl_cons, List.foldl_nil, h0, h1, h2]
      exact octal_digits hbyte
  · have h0 : ((ch >>> 12) &&& 0x0F).toNat = ch.toNat / 2 ^ 12 % 2 ^ 4 := toNat_shiftRight_and rfl (by decide) rfl
    have h1 : ((ch >>> 8) &&& 0x0F).toNat = ch.toNat / 2 ^ 8 % 2 ^ 4 := toNat_shiftRight_and rfl (by decide) rfl
    have h2 : ((ch >>> 4) &&& 0x0F).toNat = ch.toNat / 2 ^ 4 % 2 ^ 4 := toNat_shiftRight_and rfl (by decide) rfl
    have h3 : (ch &&& 0x0F).toNat = ch.toNat % 2 ^ 4 := by
      rw [UInt16.toNat_and]
      exact Nat.and_two_pow_sub_one_eq_mod _ 4
    refine .hexadecimal (.inr rfl) (readDigits_digits (k := 4) rfl (by decide) (fun _ => hexDigit_hexAt)
      [(ch >>> 12) &&& 0x0F, (ch >>> 8) &&& 0x0F, (ch >>> 4) &&& 0x0F, ch &&& 0x0F] ?_ ?_)
    · rw [List.forall_mem_cons, List.forall_mem_cons, List.forall_mem_cons, List.forall_mem_singleton, h0, h1, h2, h3]
      exact ⟨Nat.mod_lt _ (by decide), Nat.mod_lt _ (by decide), Nat.mod_lt _ (by decide), Nat.mod_lt _ (by decide)⟩
    · simp only [digitsValue, List.foldl_cons, List.foldl_nil, h0, h1, h2, h3]
      exact hexadecimal_digits ch.toNat_lt

/-- The items of units. -/
def escapes (units : List UniChar) : List UInt8 := units.flatMap escape

theorem items_escapes (units : List UniChar) : Items (escapes units) units := by
  induction units with
  | nil => exact .nil
  | cons ch units ih => exact .cons (escape_item ch) ih

theorem Items.forall_ascii {bytes : List UInt8} {units : List UniChar} (h : Items bytes units) : ∀ c ∈ bytes, c < 0x80 := by
  induction h with
  | nil => exact nofun
  | cons hitem _ ih =>
    rw [List.forall_mem_append]
    exact ⟨hitem.forall_ascii, ih⟩

theorem escapes_take_succ {units : List UniChar} {n : Nat} {ch : UniChar} (h : units[n]? = some ch) :
    escapes (units.take (n + 1)) = escapes (units.take n) ++ escape ch := by
  rw [List.take_add_one, h, Option.toList_some, escapes, List.flatMap_append, List.flatMap_singleton]
  rfl

section Encoder

variable {map : CharToUniChar} {units : List UniChar} {buf : InlineBuffer}

/-- The loop goes on with the units that fit. -/
theorem encodeLoop_spec (hbuf : ReadsRange map units buf) {max n : Nat} (hn : n ≤ units.length)
    (hroom : (escapes (units.take n)).length ≤ max) :
    ∃ n', n ≤ n' ∧ n' ≤ units.length ∧
      encodeLoop map units.length (some max) buf ⟨n, (escapes (units.take n)).length, escapes (units.take n)⟩ =
        ⟨n', (escapes (units.take n')).length, escapes (units.take n')⟩ ∧
      (escapes (units.take n')).length ≤ max ∧
      (n' < units.length → max < (escapes (units.take (n' + 1))).length) := by
  induction hk : units.length - n generalizing n buf with
  | zero =>
    refine ⟨n, Nat.le_refl n, hn, ?_, hroom, fun hlt => absurd hlt (by omega)⟩
    rw [encodeLoop, if_neg (by simp only; omega)]
  | succ k ih =>
    have hlt : n < units.length := by omega
    obtain ⟨buf', hread, hbuf'⟩ := hbuf.get (List.getElem?_eq_getElem hlt)
    have hnext := escapes_take_succ (List.getElem?_eq_getElem hlt)
    have hlength := congrArg List.length hnext
    rw [List.length_append] at hlength
    rw [encodeLoop, if_pos hlt]
    simp only [hread]
    by_cases hfull : (escapes (units.take n)).length + (escape units[n]).length > max
    · rw [if_pos hfull]
      exact ⟨n, Nat.le_refl n, hn, rfl, hroom, fun _ => by omega⟩
    · rw [if_neg hfull, ← hnext, ← hlength]
      rw [← hlength] at hfull
      obtain ⟨n', hle, hrest⟩ := ih hbuf' hlt (Nat.not_lt.mp hfull) (by omega)
      exact ⟨n', by omega, hrest⟩

/-- Without a buffer the bytes are counted. -/
theorem encodeLoop_none (hbuf : ReadsRange map units buf) {n : Nat} (hn : n ≤ units.length) :
    encodeLoop map units.length none buf ⟨n, (escapes (units.take n)).length, []⟩ =
      ⟨units.length, (escapes units).length, []⟩ := by
  induction hk : units.length - n generalizing n buf with
  | zero =>
    obtain rfl : n = units.length := by omega
    rw [encodeLoop, if_neg (Nat.lt_irrefl _), List.take_length]
  | succ k ih =>
    have hlt : n < units.length := by omega
    obtain ⟨buf', hread, hbuf'⟩ := hbuf.get (List.getElem?_eq_getElem hlt)
    have hlength := congrArg List.length (escapes_take_succ (List.getElem?_eq_getElem hlt))
    rw [List.length_append] at hlength
    rw [encodeLoop, if_pos hlt]
    simp only [hread]
    rw [← hlength]
    exact ih hbuf' hlt (by omega)

end Encoder

/-- Without a buffer the length that all of the range takes is reported. -/
theorem encodeNonLossyASCII_none (map : CharToUniChar) (str : CFStringRef) {rangeLoc rangeLen : Nat}
    (hrange : rangeLoc + rangeLen ≤ str.val.getLength) (junk : List UniChar) :
    encodeNonLossyASCII map str.val rangeLoc rangeLen none junk =
      ⟨rangeLen, (escapes (((str.val.characters map).drop rangeLoc).take rangeLen)).length, []⟩ := by
  have hbuf := @readsRange_initInlineBuffer map str _ _ hrange junk
  have hlen : rangeLen = (((str.val.characters map).drop rangeLoc).take rangeLen).length := hbuf.length_eq
  have hloop := encodeLoop_none hbuf (Nat.zero_le _)
  rw [← hlen] at hloop
  exact hloop

/-- What the encoder wrote is ASCII and is decoded to the units it processed, which
are all that fit, and all of the range in a buffer of the length it asks for. The
decoder reads whole items and refuses everything else. -/
theorem nonLossyASCII_roundTrip (map : CharToUniChar) (str : CFStringRef) {rangeLoc rangeLen : Nat}
    (hrange : rangeLoc + rangeLen ≤ str.val.getLength) (junk : List UniChar) (alwaysUnicode supplied : Bool) :
    (∀ max,
      let encoded := encodeNonLossyASCII map str.val rangeLoc rangeLen (some max) junk
      let decoded := decodeNonLossyASCII encoded.bytes alwaysUnicode supplied
      encoded.bytes.length = encoded.usedBufLen ∧ encoded.usedBufLen ≤ max ∧ (∀ c ∈ encoded.bytes, c < 0x80) ∧
      encoded.numCharsProcessed ≤ rangeLen ∧
      ((encodeNonLossyASCII map str.val rangeLoc rangeLen none junk).usedBufLen ≤ max →
        encoded.numCharsProcessed = rangeLen) ∧
      decoded.result = true ∧
      decoded.buffer.characters = ((str.val.characters map).drop rangeLoc).take encoded.numCharsProcessed) ∧
    (∀ bytes, (decodeNonLossyASCII bytes alwaysUnicode supplied).result = true ↔ ∃ units, Items bytes units) ∧
    (∀ bytes units, Items bytes units → (decodeNonLossyASCII bytes alwaysUnicode supplied).buffer.characters = units) := by
  refine ⟨fun max => ?_, fun bytes => decodeNonLossyASCII_result_iff bytes alwaysUnicode supplied,
    fun bytes units h => characters_decodeNonLossyASCII h alwaysUnicode supplied⟩
  have hbuf := @readsRange_initInlineBuffer map str _ _ hrange junk
  have hlen : rangeLen = (((str.val.characters map).drop rangeLoc).take rangeLen).length := hbuf.length_eq
  generalize hunits : ((str.val.characters map).drop rangeLoc).take rangeLen = units at hbuf hlen
  obtain ⟨n, -, hn, heq, hmax, hfull⟩ := encodeLoop_spec hbuf (Nat.zero_le _) (Nat.zero_le max)
  have hencode : encodeNonLossyASCII map str.val rangeLoc rangeLen (some max) junk =
      ⟨n, (escapes (units.take n)).length, escapes (units.take n)⟩ := by
    rw [encodeNonLossyASCII]
    exact hlen ▸ heq
  have hcount := encodeNonLossyASCII_none map str hrange junk
  rw [hunits] at hcount
  have hitems := items_escapes (units.take n)
  simp only [hencode, hcount, true_and]
  refine ⟨hmax, hitems.forall_ascii, by omega, fun hroom => ?_, (decodeNonLossyASCII_result_iff _ _ _).mpr ⟨_, hitems⟩, ?_⟩
  · rcases Nat.lt_or_ge n units.length with hlt | hge
    · have hsplit : escapes units = escapes (units.take (n + 1)) ++ escapes (units.drop (n + 1)) := by
        rw [escapes, escapes, escapes, ← List.flatMap_append, List.take_append_drop]
      have := hfull hlt
      rw [hsplit, List.length_append] at hroom
      omega
    · omega
  · rw [characters_decodeNonLossyASCII hitems, ← hunits, List.take_take, Nat.min_eq_left (by omega)]

/-- A string of a backslash, a lone surrogate and the letters of an escape. -/
theorem nonLossyASCII_roundTrip_escape :
    let units : List UniChar := [0x5C, 0xD800, 0x5C, 0x75, 0x30, 0xE9]
    let encoded := encodeNonLossyASCII .initial (inlineUnicode units) 0 6 (some 16) []
    encoded.numCharsProcessed = 6 ∧ (decodeNonLossyASCII encoded.bytes true false).buffer.characters = units := by
  let str : CFStringRef := ⟨inlineUnicode [0x5C, 0xD800, 0x5C, 0x75, 0x30, 0xE9], inlineUnicode_wellFormed _⟩
  have hrange : 0 + 6 ≤ str.val.getLength := by decide
  obtain ⟨-, -, -, -, hall, -, hcharacters⟩ := (nonLossyASCII_roundTrip .initial str hrange [] true false).1 16
  rw [encodeNonLossyASCII_none _ str hrange] at hall
  have hprocessed := hall (by decide)
  refine ⟨hprocessed, hcharacters.trans ?_⟩
  rw [hprocessed]
  rfl

end NonLossyASCII

end CFLite.Strings
