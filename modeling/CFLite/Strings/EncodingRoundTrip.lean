import CFLite.Strings.ByteStreamsEncode

/-!
# Strings through byte streams and back

* `decodeUTF16_units`, `decodeUTF32_characters`, `decodeUTF8_characters`: what
  the decoder makes of units and characters;
* `encoding_roundTrip`: what it makes of the bytes of a string.
-/

namespace CFLite.Strings

open Framework

variable {map : CharToUniChar}

/-- The stream was decoded, to these units. -/
def DecodedStream.Yields (stream : DecodedStream) (units : List UniChar) : Prop :=
  stream.result = true ∧ stream.buffer.characters = units

/-! ## UTF-16 -/

theorem unit_lt_word (unit : UniChar) : unit.toNat < 256 ^ 2 := unit.toNat_lt

theorem readUnits_unitBytes (units : List UniChar) : readUnits (unitBytes units) = units := by
  have hns : ∀ n ∈ units.map UInt16.toNat, n < 256 ^ 2 := fun n hn => by
    obtain ⟨unit, -, rfl⟩ := List.mem_map.mp hn
    exact unit_lt_word unit
  rw [readUnits, unitBytes, words_flatMap (by decide) hns, List.map_map]
  exact (List.map_congr_left fun unit _ => UInt16.ofNat_toNat).trans (List.map_id units)

theorem toNat_swapInt16 (unit : UniChar) : (swapInt16 unit).toNat = swapBytes 2 unit.toNat := by
  have hlt : swapBytes 2 unit.toNat < 2 ^ 16 := swapBytes_lt 2 unit.toNat
  rw [swapInt16, UInt16.toNat_ofNat', Nat.mod_eq_of_lt hlt]

theorem swapInt16_swapInt16 (unit : UniChar) : swapInt16 (swapInt16 unit) = unit := by
  rw [← UInt16.toNat_inj, toNat_swapInt16, toNat_swapInt16, swap_swap (unit_lt_word unit)]

theorem swapBytes_two (n : Nat) : swapBytes 2 n = n / 256 % 256 + 256 * (n % 256) := by
  simp only [swapBytes, splitBytes, List.reverse_cons, List.reverse_nil, List.nil_append, List.cons_append, combineBytes,
    UInt8.toNat_ofNat', Nat.mul_zero, Nat.add_zero]

/-- A unit with no bits but the seven lowest is a byte. -/
theorem ascii_unit {unit : UniChar} (h : unit &&& 0xFF80 = 0) : unit.toUInt8.toUInt16 = unit := by
  rw [← UInt16.toNat_inj, UInt16.toNat_and] at h
  have hlt := (and_high_eq_zero (k := 7) (m := 9) unit.toNat_lt).mp h
  rw [← UInt16.toNat_inj, UInt8.toNat_toUInt16, UInt16.toNat_toUInt8]
  exact Nat.mod_eq_of_lt (by omega)

/-- The same in the other order, the byte being the high one. -/
theorem ascii_swapped {unit : UniChar} (h : swapInt16 unit &&& 0x80FF = 0) :
    (swapInt16 unit >>> 8).toUInt8.toUInt16 = unit := by
  have hlt := unit.toNat_lt
  rw [← UInt16.toNat_inj, UInt16.toNat_and] at h
  obtain ⟨-, hlow⟩ := (and_swapped_eq_zero (k := 8) (swapInt16 unit).toNat_lt).mp h
  rw [toNat_swapInt16, swapBytes_two] at hlow
  rw [← UInt16.toNat_inj, UInt8.toNat_toUInt16, UInt16.toNat_toUInt8, UInt16.toNat_shiftRight, toNat_swapInt16,
    swapBytes_two, Nat.shiftRight_eq_div_pow]
  show (unit.toNat / 256 % 256 + 256 * (unit.toNat % 256)) / 256 % 256 = unit.toNat
  have hhigh : unit.toNat / 256 < 256 := Nat.div_lt_of_lt_mul hlt
  rw [Nat.mod_eq_of_lt hhigh] at hlow ⊢
  rw [Nat.add_mul_div_left _ _ (by decide), Nat.div_eq_of_lt hhigh, Nat.zero_add, Nat.mod_mod]
  omega

theorem map_back {units : List UniChar} {f : UniChar → UniChar} (h : ∀ unit ∈ units, f unit = unit) :
    (units.map f).take units.length = units := by
  rw [List.map_congr_left h, List.map_id', List.take_length]

/-- The decoder of UTF-16 gives the units, in the host's order. -/
theorem decodeUTF16_units (swap : Bool) (units : List UniChar) (alwaysUnicode supplied useClientsMemory : Bool) :
    (decodeUTF16 swap (if swap then units.map swapInt16 else units) alwaysUnicode supplied useClientsMemory).Yields units := by
  unfold decodeUTF16
  cases swap with
  | false =>
    simp only [Bool.false_eq_true, ↓reduceIte, not_false_eq_true, and_true]
    split
    · exact ⟨rfl, List.take_length⟩
    · split
      · rename_i hascii
        refine ⟨rfl, ?_⟩
        show ((units.map UInt16.toUInt8).take units.length).map UInt8.toUInt16 = units
        rw [List.map_take, List.map_map]
        exact map_back fun unit hunit => ascii_unit (of_decide_eq_true (List.all_eq_true.mp hascii.2 unit hunit))
      · exact ⟨rfl, List.take_length⟩
  | true =>
    simp only [↓reduceIte, not_true_eq_false, and_false, List.length_map, List.map_map]
    split
    · rename_i hascii
      rw [List.all_map] at hascii
      refine ⟨rfl, ?_⟩
      show ((units.map _).take units.length).map UInt8.toUInt16 = units
      rw [List.map_take, List.map_map]
      exact map_back fun unit hunit => ascii_swapped (of_decide_eq_true (List.all_eq_true.mp hascii.2 unit hunit))
    · exact ⟨rfl, map_back fun unit _ => swapInt16_swapInt16 unit⟩

/-! ## UTF-32 -/

theorem swapBytes_four (n : Nat) :
    swapBytes 4 n =
      n / 256 / 256 / 256 % 256 + 256 * (n / 256 / 256 % 256 + 256 * (n / 256 % 256 + 256 * (n % 256))) := by
  simp only [swapBytes, splitBytes, List.reverse_cons, List.reverse_nil, List.nil_append, List.cons_append, combineBytes,
    UInt8.toNat_ofNat', Nat.mul_zero, Nat.add_zero]

theorem char_lt_word (c : Char) : c.toNat < 256 ^ 4 := by
  have := char_valid c
  omega

theorem swapInt32_swapInt32 (c : Char) : swapInt32 (swapInt32 c.toNat) = c.toNat := swap_swap (char_lt_word c)

/-- The bytes of a character, and of the word they make in the other order. -/
theorem swapInt32_char (c : Char) :
    ∃ low middle high, low < 256 ∧ middle < 256 ∧ high ≤ 16 ∧ c.toNat = low + 256 * middle + 65536 * high ∧
      swapInt32 c.toNat = 256 * high + 65536 * middle + 16777216 * low := by
  have hc := char_valid c
  have h3 : c.toNat / 256 / 256 / 256 = 0 := by omega
  have h2 : c.toNat / 256 / 256 % 256 = c.toNat / 65536 := by omega
  refine ⟨c.toNat % 256, c.toNat / 256 % 256, c.toNat / 65536, Nat.mod_lt _ (by decide), Nat.mod_lt _ (by decide), by omega,
    by omega, ?_⟩
  rw [swapInt32, swapBytes_four, h3, h2]
  omega

/-- The mask of the scan for characters that are not ASCII. -/
theorem ascii_mask (swap : Bool) (c : Char) :
    characterWord swap c &&& (if swap then 0x80FFFFFF else 0xFFFFFF80) = 0 ↔ c.toNat < 0x80 := by
  have hc := char_valid c
  cases swap with
  | false => exact and_high_eq_zero (k := 7) (m := 25) (char_lt_word c)
  | true =>
    obtain ⟨low, middle, high, hlow, hmiddle, hhigh, hword, hswap⟩ := swapInt32_char c
    refine (and_swapped_eq_zero (k := 24) (swapBytes_lt 4 c.toNat)).trans ?_
    have hdiv : (256 * high + 65536 * middle + 16777216 * low) / 2 ^ 24 = low := by omega
    have hmod : (256 * high + 65536 * middle + 16777216 * low) % 2 ^ 24 = 256 * high + 65536 * middle := by omega
    rw [← swapInt32, hswap, hdiv, hmod, hword]
    omega

/-- The mask for characters past the BMP. -/
theorem bmp_mask (swap : Bool) (c : Char) :
    characterWord swap c &&& (if swap then 0x0000FFFF else 0xFFFF0000) = 0 ↔ c.toNat ≤ 0xFFFF := by
  have hc := char_valid c
  cases swap with
  | false => exact (and_high_eq_zero (k := 16) (m := 16) (char_lt_word c)).trans Nat.lt_succ_iff
  | true =>
    obtain ⟨low, middle, high, hlow, hmiddle, hhigh, hword, hswap⟩ := swapInt32_char c
    have hmod : (256 * high + 65536 * middle + 16777216 * low) % 2 ^ 16 = 256 * high := by omega
    simp only [characterWord, ↓reduceIte, hswap]
    rw [show (0x0000FFFF : Nat) = 2 ^ 16 - 1 from rfl, Nat.and_two_pow_sub_one_eq_mod, hmod, hword]
    omega

theorem characterWord_back (swap : Bool) (c : Char) :
    (if swap then swapInt32 (characterWord swap c) else characterWord swap c) = c.toNat := by
  cases swap with
  | false => rfl
  | true => exact swapInt32_swapInt32 c

/-- The byte of an ASCII character, wherever it lies in the word. -/
theorem ascii_word (swap : Bool) {c : Char} (h : c.toNat < 0x80) :
    (UInt8.ofNat (if swap then characterWord swap c >>> 24 else characterWord swap c)).toUInt16 = UInt16.ofNat c.toNat := by
  have hword : (if swap then characterWord swap c >>> 24 else characterWord swap c) = c.toNat := by
    cases swap with
    | false => rfl
    | true =>
      obtain ⟨low, middle, high, hlow, hmiddle, hhigh, hword, hswap⟩ := swapInt32_char c
      simp only [characterWord, ↓reduceIte, hswap, Nat.shiftRight_eq_div_pow]
      rw [hword] at h ⊢
      omega
  rw [hword, ← UInt16.toNat_inj, UInt8.toNat_toUInt16, UInt8.toNat_ofNat', UInt16.toNat_ofNat']
  omega

/-- The count of characters past the BMP. -/
def pastBmp (cs : List Char) : Nat := cs.countP fun c => 0xFFFF < c.toNat

theorem length_utf16Encode (cs : List Char) : (utf16Encode cs).length = cs.length + pastBmp cs := by
  induction cs with
  | nil => rfl
  | cons c cs ih =>
    rw [utf16Encode_cons, List.length_append, ih, pastBmp, pastBmp, List.countP_cons, utf16EncodeChar, List.length_cons]
    by_cases hc : c.toNat ≤ 0xFFFF
    · rw [if_pos hc, if_neg (by simpa using hc), List.length_singleton]
      omega
    · rw [if_neg hc, if_pos (by simpa using hc)]
      simp only [List.length_cons, List.length_nil]
      omega

/-- The scan finds whether the characters are ASCII, and counts their units. -/
theorem scanUTF32_characters (strictUTF32 swap : Bool) (cs : List Char) (isASCII : Bool) (numChars : Nat) :
    scanUTF32 strictUTF32 swap (cs.map (characterWord swap)) isASCII numChars =
      some (isASCII && cs.all fun c => c.toNat < 0x80, numChars + pastBmp cs) := by
  induction cs generalizing isASCII numChars with
  | nil => simp [scanUTF32, pastBmp]
  | cons c cs ih =>
    have hc := char_valid c
    have hstrict : ¬ (strictUTF32 = true ∧
        (if swap then swapInt32 (characterWord swap c) else characterWord swap c) > 0x10FFFF) := by
      rw [characterWord_back]
      omega
    rw [List.map_cons, scanUTF32]
    simp only [ne_eq, ascii_mask, bmp_mask, hstrict, ↓reduceIte, ih, pastBmp, List.countP_cons, List.all_cons]
    by_cases h80 : c.toNat < 0x80
    · have hbmp : ¬ 0xFFFF < c.toNat := by omega
      simp only [h80, not_true_eq_false, ↓reduceIte, decide_true, Bool.true_and, hbmp, decide_false, Bool.false_eq_true,
        Nat.add_zero]
    · by_cases hbmp : c.toNat ≤ 0xFFFF
      · simp only [h80, not_false_eq_true, ↓reduceIte, hbmp, not_true_eq_false, decide_false, Bool.false_and, Bool.and_false,
          Nat.not_lt.mpr hbmp, Bool.false_eq_true, Nat.add_zero]
      · simp only [h80, not_false_eq_true, ↓reduceIte, hbmp, decide_false, Bool.false_and, Bool.and_false,
          Nat.not_le.mp hbmp, decide_true, Nat.add_assoc, Nat.add_comm 1]

/-- Characters but U+FFFF come back as their units. -/
theorem fromUTF32_characters (allowLossy : Bool) {cs : List Char} (h : '\uFFFF' ∉ cs) :
    fromUTF32 allowLossy (cs.map Char.toNat) = (true, utf16Encode cs) := by
  induction cs with
  | nil => rw [List.map_nil, fromUTF32]; rfl
  | cons c cs ih =>
    have hc := char_valid c
    have hne : c.toNat ≠ 0xFFFF := fun heq =>
      h (List.mem_cons.mpr (.inl (Char.toNat_inj.mp (heq.trans rfl)).symm))
    have hcs : '\uFFFF' ∉ cs := fun hmem => h (List.mem_cons_of_mem c hmem)
    rw [List.map_cons, fromUTF32]
    have hhigh : ¬ IsHighSurrogate c.toNat := fun hs => by unfold IsHighSurrogate at hs; omega
    have hlow : ¬ IsLowSurrogate c.toNat := fun hs => by unfold IsLowSurrogate at hs; omega
    simp only [ih hcs, hhigh, hlow, or_self, ↓reduceIte, utf16Encode_cons, utf16EncodeChar]
    by_cases hbmp : c.toNat < 0xFFFF
    · rw [if_pos hbmp, if_pos (Nat.le_of_lt hbmp), ite_self]
    · have hpast : (c.toNat + 2 ^ 32 - 0x10000) % 2 ^ 32 = c.toNat - 0x10000 := by omega
      rw [if_neg hbmp, if_pos (by omega), if_neg (by omega : ¬ c.toNat ≤ 0xFFFF), hpast, Nat.shiftRight_eq_div_pow,
        show (0x3FF : Nat) = 2 ^ 10 - 1 from rfl, Nat.and_two_pow_sub_one_eq_mod, Nat.add_comm 0xD800, Nat.add_comm 0xDC00]

/-- The decoder of UTF-32 gives the units of characters. -/
theorem decodeUTF32_characters (strictUTF32 swap : Bool) {cs : List Char} (h : '\uFFFF' ∉ cs) (alwaysUnicode supplied : Bool) :
    (decodeUTF32 strictUTF32 swap (cs.map (characterWord swap)) alwaysUnicode supplied).Yields (utf16Encode cs) := by
  have hback : (if swap then (cs.map (characterWord swap)).map swapInt32 else cs.map (characterWord swap)) =
      cs.map Char.toNat := by
    cases swap with
    | false => rfl
    | true =>
      simp only [↓reduceIte, List.map_map]
      exact List.map_congr_left fun c _ => characterWord_back true c
  unfold decodeUTF32
  rw [scanUTF32_characters, hback, fromUTF32_characters _ h, List.length_map]
  cases hascii : !alwaysUnicode && cs.all fun c => decide (c.toNat < 0x80) with
  | true =>
    rw [Bool.and_eq_true, List.all_eq_true] at hascii
    have hsmall : ∀ c ∈ cs, c.toNat < 0x80 := fun c hc => of_decide_eq_true (hascii.2 c hc)
    have hpast : pastBmp cs = 0 := List.countP_eq_zero.mpr fun c hc => by
      have := hsmall c hc
      simp only [decide_eq_true_eq]
      omega
    have hbmp : Bmp cs := fun c hc => by have := hsmall c hc; omega
    refine ⟨rfl, ?_⟩
    show (((cs.map (characterWord swap)).map _).take (cs.length + pastBmp cs)).map UInt8.toUInt16 = utf16Encode cs
    rw [hpast, Nat.add_zero, List.take_of_length_le (by simp), List.map_map, List.map_map, utf16Encode_bmp hbmp]
    exact List.map_congr_left fun c hc => ascii_word swap (hsmall c hc)
  | false =>
    refine ⟨rfl, ?_⟩
    show (utf16Encode cs).take _ = _
    rw [← length_utf16Encode, List.take_length]

/-! ## UTF-8 -/

/-- What is left of characters when a byte order mark at their head is skipped. -/
def dropMark : List Char → List Char
  | '\uFEFF' :: cs => cs
  | cs => cs

theorem utf8EncodeChar_mark : String.utf8EncodeChar '\uFEFF' = [0xEF, 0xBB, 0xBF] := by decide +kernel

theorem dropMark_of_ne {c : Char} (h : c ≠ '\uFEFF') (cs : List Char) : dropMark (c :: cs) = c :: cs := by
  unfold dropMark
  split
  · rename_i heq
    exact absurd (List.cons.inj heq).1 h
  · rfl

/-- The bytes EF BB BF at the head are those of a U+FEFF. -/
theorem drop_markBytes (cs : List Char) :
    (if [0xEF, 0xBB, 0xBF] <+: utf8Encode cs then (utf8Encode cs).drop 3 else utf8Encode cs) = utf8Encode (dropMark cs) := by
  cases cs with
  | nil => rfl
  | cons c cs =>
    rw [utf8Encode_cons]
    by_cases hc : c = '\uFEFF'
    · rw [hc, utf8EncodeChar_mark, if_pos (List.prefix_append _ _)]
      rfl
    · rw [if_neg, dropMark_of_ne hc, utf8Encode_cons]
      rintro ⟨rest, hrest⟩
      have hmark := nextSequence_char noFlags ((charBytes_iff _ _).mpr utf8EncodeChar_mark) rest
      rw [hrest, nextSequence_char noFlags ((charBytes_iff c _).mpr rfl)] at hmark
      exact hc (Char.toNat_inj.mp (Sequence.decoded.inj hmark).1)

theorem length_units_le (cs : List Char) : (utf16Encode cs).length ≤ (utf8Encode cs).length := by
  induction cs with
  | nil => exact Nat.le_refl 0
  | cons c cs ih =>
    rw [utf16Encode_cons, utf8Encode_cons, List.length_append, List.length_append]
    refine Nat.add_le_add ?_ ih
    have hbytes := (charBytes_iff c _).mpr rfl
    have htwo : (utf16EncodeChar c).length ≤ 2 := by
      unfold utf16EncodeChar
      split <;> simp
    generalize String.utf8EncodeChar c = bytes at hbytes
    cases hbytes with
    | one hc h0 => rw [utf16EncodeChar, if_pos (by omega)]; exact Nat.le_refl 1
    | two => exact htwo
    | three => exact htwo.trans (by simp)
    | four => exact htwo.trans (by simp)

theorem utf8Encode_ne_nil {cs : List Char} (h : cs ≠ []) : 0 < (utf8Encode cs).length := by
  obtain ⟨c, cs, rfl⟩ := List.exists_cons_of_ne_nil h
  rw [utf8Encode_cons, List.length_append]
  exact Nat.add_pos_left (utf8EncodeChar_length_pos c) _

theorem utf16Encode_ne_nil {cs : List Char} (h : cs ≠ []) : (utf16Encode cs).length ≠ 0 := by
  rw [length_utf16Encode]
  have := List.length_pos_iff.mpr h
  omega

/-- One conversion reads all the characters. -/
theorem decodeUTF8Loop_characters {decomposition : Decomposition} {cs : List Char} (hne : cs ≠ []) :
    decodeUTF8Loop decomposition noFlags (utf8Encode cs).length (utf8Encode cs) 0 [] =
      (true, (utf16Encode cs).length, utf16Encode cs) := by
  have hread : fromUTF8 decomposition noFlags (utf8Encode cs) ((utf8Encode cs).length - 0) = _ :=
    fromUTF8_characters cs (length_units_le cs)
  rw [decodeUTF8Loop, if_neg (List.length_pos_iff.mp (utf8Encode_ne_nil hne))]
  simp only [hread, utf16Encode_ne_nil hne, ↓reduceDIte, List.drop_length, Nat.zero_add, List.nil_append]
  rw [decodeUTF8Loop, if_pos rfl]

/-- Bytes below 0x80 are the units of their characters. -/
theorem ascii_bytes {cs : List Char} (h : ∀ byte ∈ utf8Encode cs, byte < 128) :
    (utf8Encode cs).map UInt8.toUInt16 = utf16Encode cs := by
  induction cs with
  | nil => rfl
  | cons c cs ih =>
    rw [utf8Encode_cons] at h ⊢
    rw [utf16Encode_cons, List.map_append, ih fun byte hbyte => h byte (List.mem_append_right _ hbyte)]
    congr 1
    have hbytes := (charBytes_iff c _).mpr rfl
    have hfirst := fun byte hbyte => h byte (List.mem_append_left _ hbyte)
    generalize String.utf8EncodeChar c = bytes at hbytes hfirst
    have h128 : (128 : UInt8).toNat = 128 := rfl
    cases hbytes with
    | @one b₀ hc h0 =>
      rw [utf16EncodeChar, if_pos (by omega), hc]
      refine congrArg (· :: []) ?_
      rw [← UInt16.toNat_inj, UInt8.toNat_toUInt16, UInt16.toNat_ofNat', Nat.mod_eq_of_lt (by omega)]
    | @two b₀ | @three b₀ | @four b₀ =>
      have := hfirst b₀ List.mem_cons_self
      rw [UInt8.lt_iff_toNat_lt] at this
      omega

/-- The decoder of UTF-8 gives the units of characters, but for a mark. -/
theorem decodeUTF8_characters (decomposition : Decomposition) (cs : List Char) (alwaysUnicode supplied : Bool) :
    (decodeUTF8 decomposition noFlags (utf8Encode cs) alwaysUnicode supplied).Yields (utf16Encode (dropMark cs)) := by
  unfold decodeUTF8
  simp only [drop_markBytes]
  generalize dropMark cs = cs
  by_cases hne : cs = []
  · subst hne
    exact ⟨rfl, by cases alwaysUnicode <;> rfl⟩
  · rw [if_neg (utf8Encode_ne_nil hne).ne']
    split
    · rename_i hascii
      refine ⟨rfl, ?_⟩
      show ((utf8Encode cs).take (utf8Encode cs).length).map UInt8.toUInt16 = utf16Encode cs
      rw [List.take_length]
      exact ascii_bytes fun byte hbyte => of_decide_eq_true (List.all_eq_true.mp hascii.2 byte hbyte)
    · rw [decodeUTF8Loop_characters hne]
      exact ⟨rfl, List.take_length⟩

/-! ## The bytes of a string -/

/-- There is room for the bytes of the characters. -/
def HasRoomFor (encoding : UnicodeEncoding) (external : Bool) (cs : List Char) (max : Nat) : Prop :=
  match encoding with
  | .utf8 => EnoughRoom max (cs.map Char.toNat) 0
  | .utf16 | .utf16BE | .utf16LE => markLength encoding external + 2 * (utf16Encode cs).length ≤ max
  | .utf32 | .utf32BE | .utf32LE => markLength encoding external + 4 * cs.length ≤ max

/-- What decoding the bytes of characters gives: their units. In UTF-8 a U+FEFF at
the head goes for a mark. Without a mark of its own, UTF-16 or UTF-32 has the
string's U+FEFF for one, and else is read highest byte first. U+FFFF is left out
of UTF-32. -/
def ComesBack (encoding : UnicodeEncoding) (external : Bool) (cs : List Char) (decoded : UnicodeEncoding → DecodedStream) :
    Prop :=
  match encoding, external with
  | .utf8, _ => (decoded .utf8).Yields (utf16Encode (dropMark cs))
  | .utf16, true | .utf16BE, _ | .utf16LE, _ => (decoded encoding).Yields (utf16Encode cs)
  | .utf16, false =>
    (∀ rest, utf16Encode cs = 0xFEFF :: rest → (decoded .utf16).Yields rest) ∧
      ((utf16Encode cs).headD 0 ∉ [0xFEFF, 0xFFFE] → decoded .utf16 = decoded .utf16BE)
  | .utf32, true | .utf32BE, _ | .utf32LE, _ => '\uFFFF' ∉ cs → (decoded encoding).Yields (utf16Encode cs)
  | .utf32, false =>
    (∀ rest, cs = '\uFEFF' :: rest → '\uFFFF' ∉ rest → (decoded .utf32).Yields (utf16Encode rest)) ∧
      (cs.head? ≠ some '\uFEFF' → decoded .utf32 = decoded .utf32BE)

theorem emptyBuffer_yields (alwaysUnicode : Bool) : DecodedStream.Yields ⟨true, emptyBuffer alwaysUnicode, false⟩ [] :=
  ⟨rfl, by cases alwaysUnicode <;> rfl⟩

section

variable (strictUTF32 : Bool) (decomposition : Decomposition) (alwaysUnicode supplied useClientsMemory : Bool)

theorem unitBytes_ne_nil {units : List UniChar} (h : units ≠ []) : unitBytes units ≠ [] := by
  obtain ⟨unit, units, rfl⟩ := List.exists_cons_of_ne_nil h
  exact List.cons_ne_nil _ _

/-- Units in an order that the encoding tells. -/
theorem decode_ordered (encoding : UnicodeEncoding) (hencoding : encoding = .utf16BE ∨ encoding = .utf16LE)
    (units : List UniChar) :
    (decodeByteStream3 strictUTF32 decomposition
      (unitBytes (if encoding = .utf16BE then units.map swapInt16 else units)) encoding alwaysUnicode supplied
      useClientsMemory noFlags).Yields units := by
  unfold decodeByteStream3
  by_cases hnil : units = []
  · subst hnil
    simp only [List.map_nil, ite_self]
    exact emptyBuffer_yields alwaysUnicode
  · rw [if_neg (unitBytes_ne_nil (by split <;> simpa using hnil))]
    rcases hencoding with rfl | rfl
    · simp only [↓reduceIte, readUnits_unitBytes]
      exact decodeUTF16_units true units alwaysUnicode supplied useClientsMemory
    · simp only [reduceCtorEq, ↓reduceIte, readUnits_unitBytes]
      exact decodeUTF16_units false units alwaysUnicode supplied useClientsMemory

/-- Units after a mark. -/
theorem decode_marked (units : List UniChar) :
    (decodeByteStream3 strictUTF32 decomposition (unitBytes (0xFEFF :: units)) .utf16 alwaysUnicode supplied
      useClientsMemory noFlags).Yields units := by
  unfold decodeByteStream3
  rw [if_neg (unitBytes_ne_nil (List.cons_ne_nil _ _))]
  simp only [readUnits_unitBytes, List.headD_cons, List.tail_cons]
  exact decodeUTF16_units false units alwaysUnicode supplied _

/-- Units without a mark. -/
theorem decode_unmarked {units : List UniChar} (h : units.headD 0 ∉ [0xFEFF, 0xFFFE]) :
    decodeByteStream3 strictUTF32 decomposition (unitBytes units) .utf16 alwaysUnicode supplied useClientsMemory noFlags =
      decodeByteStream3 strictUTF32 decomposition (unitBytes units) .utf16BE alwaysUnicode supplied useClientsMemory
        noFlags := by
  have hbom : ¬ (units.headD 0 = 0xFFFE ∨ units.headD 0 = 0xFEFF) := by
    rintro (heq | heq) <;> exact h (by rw [heq]; decide)
  unfold decodeByteStream3
  simp only [readUnits_unitBytes, if_neg hbom]
  simp

theorem words_wordBytes (swap : Bool) (cs : List Char) : words 4 (wordBytes swap cs) = cs.map (characterWord swap) := by
  refine words_flatMap (by decide) fun n hn => ?_
  obtain ⟨c, -, rfl⟩ := List.mem_map.mp hn
  cases swap with
  | false => exact char_lt_word c
  | true => exact swapBytes_lt 4 c.toNat

theorem wordBytes_ne_nil (swap : Bool) {cs : List Char} (h : cs ≠ []) : wordBytes swap cs ≠ [] := by
  obtain ⟨c, cs, rfl⟩ := List.exists_cons_of_ne_nil h
  exact List.cons_ne_nil _ _

/-- Characters in an order that the encoding tells. -/
theorem decode_ordered_words (encoding : UnicodeEncoding) (hencoding : encoding = .utf32BE ∨ encoding = .utf32LE)
    {cs : List Char} (h : '\uFFFF' ∉ cs) :
    (decodeByteStream3 strictUTF32 decomposition (wordBytes (encoding = .utf32BE) cs) encoding alwaysUnicode supplied
      useClientsMemory noFlags).Yields (utf16Encode cs) := by
  unfold decodeByteStream3
  by_cases hnil : cs = []
  · subst hnil
    exact emptyBuffer_yields alwaysUnicode
  · rw [if_neg (wordBytes_ne_nil _ hnil)]
    rcases hencoding with rfl | rfl
    · simp only [words_wordBytes]
      exact decodeUTF32_characters strictUTF32 true h alwaysUnicode supplied
    · simp only [words_wordBytes]
      exact decodeUTF32_characters strictUTF32 false h alwaysUnicode supplied

theorem decode_utf8 (cs : List Char) :
    (decodeByteStream3 strictUTF32 decomposition (utf8Encode cs) .utf8 alwaysUnicode supplied useClientsMemory
      noFlags).Yields (utf16Encode (dropMark cs)) := by
  unfold decodeByteStream3
  by_cases hnil : cs = []
  · subst hnil
    exact emptyBuffer_yields alwaysUnicode
  · rw [if_neg (List.length_pos_iff.mp (utf8Encode_ne_nil hnil))]
    exact decodeUTF8_characters decomposition cs alwaysUnicode supplied

/-- Characters after a mark. -/
theorem decode_marked_words {cs : List Char} (h : '\uFFFF' ∉ cs) :
    (decodeByteStream3 strictUTF32 decomposition (wordBytes false ('\uFEFF' :: cs)) .utf32 alwaysUnicode supplied
      useClientsMemory noFlags).Yields (utf16Encode cs) := by
  unfold decodeByteStream3
  rw [if_neg (wordBytes_ne_nil _ (List.cons_ne_nil _ _))]
  simp only [words_wordBytes, List.map_cons, List.headD_cons, List.tail_cons]
  exact decodeUTF32_characters strictUTF32 false h alwaysUnicode supplied

/-- Characters without a mark. -/
theorem decode_unmarked_words {cs : List Char} (h : cs.head? ≠ some '\uFEFF') :
    decodeByteStream3 strictUTF32 decomposition (wordBytes false cs) .utf32 alwaysUnicode supplied useClientsMemory noFlags =
      decodeByteStream3 strictUTF32 decomposition (wordBytes false cs) .utf32BE alwaysUnicode supplied useClientsMemory
        noFlags := by
  have hbom : ¬ ((cs.map (characterWord false)).headD 0 = 0xFFFE0000 ∨ (cs.map (characterWord false)).headD 0 = 0x0000FEFF) := by
    cases cs with
    | nil => decide
    | cons c cs =>
      have hc := char_valid c
      rw [List.map_cons, List.headD_cons]
      rintro (heq | heq)
      · have : c.toNat = 0xFFFE0000 := heq
        omega
      · exact h (congrArg some (Char.toNat_inj.mp (Eq.trans heq rfl)))
  unfold decodeByteStream3
  simp only [words_wordBytes, if_neg hbom]
  simp

end

/-- The bytes that a string gives, in an encoding. -/
def streamBytes (encoding : UnicodeEncoding) (external : Bool) (cs : List Char) : List UInt8 :=
  match encoding with
  | .utf8 => utf8Encode cs
  | .utf16 => unitBytes (if external then 0xFEFF :: utf16Encode cs else utf16Encode cs)
  | .utf16BE => unitBytes ((utf16Encode cs).map swapInt16)
  | .utf16LE => unitBytes (utf16Encode cs)
  | .utf32 => wordBytes false (if external then '\uFEFF' :: cs else cs)
  | .utf32BE => wordBytes true cs
  | .utf32LE => wordBytes false cs

/-- Every way of encoding a string gives these bytes. -/
theorem encodeByteStream_spec {target : DeploymentTarget} (hmap : map.Reachable target) (str : CFStringRef) {cs : List Char}
    (hcs : str.val.characters map = utf16Encode cs) (encoding : UnicodeEncoding) (external : Bool) (lossByte : UInt8)
    (junk : List UniChar) {max : Nat} (hroom : HasRoomFor encoding external cs max) :
    encodeByteStream map str.val 0 str.val.getLength external encoding lossByte (some max) junk =
      some ⟨str.val.getLength, (streamBytes encoding external cs).length, streamBytes encoding external cs⟩ := by
  have hlen : str.val.getLength = (utf16Encode cs).length := by rw [← hcs, str.property.length_characters]
  have hunits : ∀ units, (unitBytes units).length = 2 * units.length := fun units => by
    rw [unitBytes, length_flatMap_split, List.length_map, Nat.mul_comm]
  have hwords : ∀ swap cs, (wordBytes swap cs).length = 4 * cs.length := fun swap cs => by
    rw [wordBytes, length_flatMap_split, List.length_map, Nat.mul_comm]
  cases encoding with
  | utf8 => exact encodeUTF8_spec hmap str hcs hroom
  | utf16 | utf16BE | utf16LE =>
    refine congrArg some ((encodeUTF16_spec str external (by simp) (by rw [hlen]; exact hroom)).trans ?_)
    rw [hcs, hlen]
    cases external with
    | false => simp [markLength, streamBytes, hunits]
    | true =>
      simp only [markLength, streamBytes, hunits, List.length_cons, List.length_map, ↓reduceIte, reduceCtorEq,
        EncodedStream.mk.injEq, OfNat.ofNat_ne_zero, List.nil_append, Nat.zero_add, true_and]
      try exact ⟨by omega, rfl⟩
  | utf32 | utf32BE | utf32LE =>
    refine congrArg some ((encodeUTF32_spec str hcs external (by simp) lossByte junk hroom).trans ?_)
    cases external with
    | false => simp [markLength, streamBytes, hwords]
    | true =>
      simp only [markLength, streamBytes, hwords, List.length_cons, ↓reduceIte, reduceCtorEq, decide_true, decide_false,
        EncodedStream.mk.injEq, OfNat.ofNat_ne_zero, List.nil_append, Nat.zero_add, true_and]
      try exact ⟨by omega, rfl⟩

/-- The bytes of a string decode to what `ComesBack` says. -/
theorem streamBytes_comeBack (encoding : UnicodeEncoding) (external : Bool) (cs : List Char) (strictUTF32 : Bool)
    (decomposition : Decomposition) (alwaysUnicode supplied useClientsMemory : Bool) :
    ComesBack encoding external cs fun encoding' =>
      decodeByteStream3 strictUTF32 decomposition (streamBytes encoding external cs) encoding' alwaysUnicode supplied
        useClientsMemory noFlags := by
  cases encoding with
  | utf8 => exact decode_utf8 strictUTF32 decomposition alwaysUnicode supplied useClientsMemory cs
  | utf16 =>
    cases external with
    | true => exact decode_marked strictUTF32 decomposition alwaysUnicode supplied useClientsMemory (utf16Encode cs)
    | false =>
      refine ⟨fun rest hrest => ?_, fun h => decode_unmarked strictUTF32 decomposition alwaysUnicode supplied useClientsMemory h⟩
      have h := decode_marked strictUTF32 decomposition alwaysUnicode supplied useClientsMemory rest
      rwa [← hrest] at h
  | utf16BE =>
    exact decode_ordered strictUTF32 decomposition alwaysUnicode supplied useClientsMemory .utf16BE (.inl rfl) (utf16Encode cs)
  | utf16LE =>
    exact decode_ordered strictUTF32 decomposition alwaysUnicode supplied useClientsMemory .utf16LE (.inr rfl) (utf16Encode cs)
  | utf32 =>
    cases external with
    | true => exact decode_marked_words strictUTF32 decomposition alwaysUnicode supplied useClientsMemory
    | false =>
      refine ⟨fun rest hrest h => ?_,
        fun h => decode_unmarked_words strictUTF32 decomposition alwaysUnicode supplied useClientsMemory h⟩
      subst hrest
      exact decode_marked_words strictUTF32 decomposition alwaysUnicode supplied useClientsMemory h
  | utf32BE =>
    exact decode_ordered_words strictUTF32 decomposition alwaysUnicode supplied useClientsMemory .utf32BE (.inl rfl)
  | utf32LE =>
    exact decode_ordered_words strictUTF32 decomposition alwaysUnicode supplied useClientsMemory .utf32LE (.inr rfl)

end CFLite.Strings
