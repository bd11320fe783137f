import CFLite.Strings.ByteStreams
import CFLite.Strings.UTF8Conversion

/-!
# The bytes of a string

* `encodeUTF16_spec`, `encodeUTF32_spec`: words of the units or of the characters,
  after a mark;
* `encodeUTF8_spec`: the bytes of the characters, whichever way the string is
  stored.
-/

namespace CFLite.Strings

open Framework

variable {map : CharToUniChar}

/-! ## Characters through an inline buffer -/

/-- Inside the range the two reads are one. -/
theorem getCharacterFromInlineBuffer_eq {buf : InlineBuffer} {idx : Nat} (h : idx < buf.length) :
    getCharacterFromInlineBuffer map buf idx = getCharacterFromInlineBufferQuick map buf idx := by
  unfold getCharacterFromInlineBuffer getCharacterFromInlineBufferQuick
  have hidx : ¬ idx ≥ buf.length := Nat.not_le.mpr h
  cases buf.directBuffer with
  | some directBuffer => exact if_neg hidx
  | none =>
    dsimp only
    rw [if_neg hidx]

/-- A buffer over a string's characters, whatever was read through it. -/
def Reads (map : CharToUniChar) (units : List UniChar) (buf : InlineBuffer) : Prop :=
  buf.Buffers map ∧ buf.theString.characters map = units ∧ buf.location = 0 ∧ buf.length = units.length

theorem Reads.get {units : List UniChar} {buf : InlineBuffer} (h : Reads map units buf) {idx : Nat} {unit : UniChar}
    (hunit : units[idx]? = some unit) :
    ∃ buf', getCharacterFromInlineBuffer map buf idx = (unit, buf') ∧ Reads map units buf' := by
  obtain ⟨hb, hunits, hloc, hlen⟩ := h
  have hidx : idx < buf.length := hlen ▸ (List.getElem?_eq_some_iff.mp hunit).1
  obtain ⟨buf', heq, hb', hs', hl', hlen'⟩ := getCharacterFromInlineBufferQuick_spec hb hidx
  refine ⟨buf', ?_, hb', hs' ▸ hunits, hl'.trans hloc, hlen'.trans hlen⟩
  rw [getCharacterFromInlineBuffer_eq hidx, heq, hunits, hloc, Nat.zero_add, List.getD_eq_getElem?_getD, hunit,
    Option.getD_some]

/-- A buffer over a range of a string's characters, whatever was read through it. -/
structure ReadsRange (map : CharToUniChar) (units : List UniChar) (buf : InlineBuffer) : Prop where
  buffers : buf.Buffers map
  range : ((buf.theString.characters map).drop buf.location).take buf.length = units
  length_eq : buf.length = units.length

theorem ReadsRange.get {units : List UniChar} {buf : InlineBuffer} (h : ReadsRange map units buf) {idx : Nat} {unit : UniChar}
    (hunit : units[idx]? = some unit) :
    ∃ buf', getCharacterFromInlineBuffer map buf idx = (unit, buf') ∧ ReadsRange map units buf' := by
  have hidx : idx < buf.length := h.length_eq ▸ (List.getElem?_eq_some_iff.mp hunit).1
  obtain ⟨buf', heq, hb', hs', hl', hlen'⟩ := getCharacterFromInlineBufferQuick_spec h.buffers hidx
  refine ⟨buf', ?_, hb', by rw [hs', hl', hlen', h.range], hlen'.trans h.length_eq⟩
  rw [← h.range, List.getElem?_take_of_lt hidx, List.getElem?_drop] at hunit
  rw [getCharacterFromInlineBuffer_eq hidx, heq, List.getD_eq_getElem?_getD, hunit, Option.getD_some]

theorem readsRange_initInlineBuffer (str : CFStringRef) {rangeLoc rangeLen : Nat}
    (hrange : rangeLoc + rangeLen ≤ str.val.getLength) (junk : List UniChar) :
    ReadsRange map (((str.val.characters map).drop rangeLoc).take rangeLen) (initInlineBuffer str.val rangeLoc rangeLen junk) where
  buffers := initInlineBuffer_buffers map str.val hrange junk
  range := rfl
  length_eq := by
    rw [List.length_take, List.length_drop, str.property.length_characters]
    show rangeLen = _
    omega

/-- The value of a character past the BMP, from its surrogates. -/
theorem longCharacter_eq {c : Char} {high low : UniChar} (hc : ¬ c.toNat ≤ 0xFFFF)
    (hhigh : high.toNat = 0xD800 + (c.toNat - 0x10000) / 1024) (hlow : low.toNat = 0xDC00 + (c.toNat - 0x10000) % 1024) :
    longCharacterForSurrogatePair high.toNat low.toNat = c.toNat := by
  rw [longCharacterForSurrogatePair, hhigh, hlow, Nat.shiftLeft_eq]
  omega

theorem readCharacter_spec {pre : List UniChar} {c : Char} {cs : List Char} {buf : InlineBuffer}
    (h : Reads map (pre ++ utf16Encode (c :: cs)) buf) (lossByte : UInt8) :
    ∃ buf', readCharacter map (pre ++ utf16Encode (c :: cs)).length lossByte buf pre.length = (some c.toNat, buf') ∧
      Reads map (pre ++ utf16Encode (c :: cs)) buf' := by
  unfold readCharacter
  rw [utf16Encode_cons] at h ⊢
  by_cases hc : c.toNat ≤ 0xFFFF
  · obtain ⟨unit, hunits, hunit, hhigh, hlow⟩ := utf16EncodeChar_one hc
    rw [hunits] at h ⊢
    obtain ⟨buf', heq, hreads⟩ := h.get (show _[pre.length]? = some unit by simp)
    refine ⟨buf', ?_, hreads⟩
    rw [heq]
    simp only
    rw [if_neg hhigh, if_neg hlow, hunit]
  · obtain ⟨high, low, hunits, hhigh, hlow, hhv, hlv⟩ := utf16EncodeChar_two hc
    rw [hunits] at h ⊢
    obtain ⟨buf', heq, hreads⟩ := h.get (show _[pre.length]? = some high by simp)
    obtain ⟨buf'', heq', hreads'⟩ := hreads.get (show _[pre.length + 1]? = some low by simp)
    refine ⟨buf'', ?_, hreads'⟩
    rw [heq]
    simp only [if_pos hhigh, heq', if_pos hlow]
    rw [if_pos (by simp), longCharacter_eq hc hhv hlv]

/-! ## UTF-32 -/

/-- A character in the host's order or in the other. -/
def characterWord (swap : Bool) (c : Char) : Nat := if swap then swapInt32 c.toNat else c.toNat

/-- The bytes of characters in UTF-32. -/
def wordBytes (swap : Bool) (cs : List Char) : List UInt8 := (cs.map (characterWord swap)).flatMap (splitBytes 4)

/-- The loop writes a word for each character. -/
theorem encodeUTF32Loop_spec {swap : Bool} {lossByte : UInt8} {max : Nat} (cs : List Char) {pre : List UniChar}
    {buf : InlineBuffer} (hbuf : Reads map (pre ++ utf16Encode cs) buf) {used : Nat} {bytes : List UInt8}
    (hroom : used + 4 * cs.length ≤ max) :
    encodeUTF32Loop map swap (pre ++ utf16Encode cs).length lossByte (some max) buf ⟨pre.length, used, bytes⟩ =
      ⟨(pre ++ utf16Encode cs).length, used + 4 * cs.length, bytes ++ wordBytes swap cs⟩ := by
  induction cs generalizing pre buf used bytes with
  | nil =>
    rw [encodeUTF32Loop, if_neg (by simp [utf16Encode])]
    simp [utf16Encode, wordBytes]
  | cons c cs ih =>
    rw [List.length_cons] at hroom
    obtain ⟨buf', hread, hbuf'⟩ := readCharacter_spec hbuf lossByte
    have hlength : (utf16EncodeChar c).length = if c.toNat > 0xFFFF then 2 else 1 := by
      unfold utf16EncodeChar
      by_cases hc : c.toNat ≤ 0xFFFF
      · rw [if_pos hc, if_neg (by omega)]
        rfl
      · rw [if_neg hc, if_pos (by omega)]
        rfl
    have hassoc : pre ++ utf16Encode (c :: cs) = (pre ++ utf16EncodeChar c) ++ utf16Encode cs := by
      rw [utf16Encode_cons, List.append_assoc]
    have hpos : pre.length < (pre ++ utf16Encode (c :: cs)).length := by
      rw [utf16Encode_cons, List.length_append, List.length_append, hlength]
      split <;> omega
    rw [encodeUTF32Loop, if_pos hpos]
    simp only [hread]
    rw [if_neg (by omega), ← hlength, ← List.length_append, hassoc,
      ih (hassoc ▸ hbuf') (by omega), List.length_cons, wordBytes, wordBytes, List.map_cons, List.flatMap_cons,
      List.append_assoc bytes, Nat.mul_succ, Nat.add_assoc, Nat.add_comm 4]
    rfl

/-- What a stream of external representation begins with. -/
def markLength (encoding : UnicodeEncoding) (generatingExternalFile : Bool) : Nat :=
  if generatingExternalFile then
    match encoding with
    | .utf16 => 2
    | .utf32 => 4
    | _ => 0
  else 0

theorem reads_initInlineBuffer (str : CFStringRef) (junk : List UniChar) :
    Reads map (str.val.characters map) (initInlineBuffer str.val 0 str.val.getLength junk) :=
  ⟨initInlineBuffer_buffers map str.val (by rw [Nat.zero_add]) junk, rfl, rfl, (str.property.length_characters map).symm⟩

theorem encodeUTF32_spec (str : CFStringRef) {cs : List Char} (hcs : str.val.characters map = utf16Encode cs)
    (external : Bool) {encoding : UnicodeEncoding} (hencoding : encoding = .utf32 ∨ encoding = .utf32BE ∨ encoding = .utf32LE)
    (lossByte : UInt8) (junk : List UniChar) {max : Nat} (hroom : markLength encoding external + 4 * cs.length ≤ max) :
    encodeUTF32 map str.val 0 str.val.getLength external encoding lossByte (some max) junk =
      ⟨str.val.getLength, markLength encoding external + 4 * cs.length,
        (if markLength encoding external = 0 then [] else splitBytes 4 0xFEFF) ++
          wordBytes (encoding = .utf32BE) cs⟩ := by
  have hlen : str.val.getLength = (utf16Encode cs).length := by rw [← hcs, str.property.length_characters]
  have hbuf : Reads map _ _ := reads_initInlineBuffer str junk
  rw [hcs] at hbuf
  have hloop : ∀ (used : Nat) (bytes : List UInt8), used + 4 * cs.length ≤ max →
      encodeUTF32Loop map (encoding = .utf32BE) str.val.getLength lossByte (some max)
        (initInlineBuffer str.val 0 str.val.getLength junk) ⟨0, used, bytes⟩ =
      ⟨str.val.getLength, used + 4 * cs.length,
        bytes ++ wordBytes (encoding = .utf32BE) cs⟩ := fun used bytes hused => by
    have := @encodeUTF32Loop_spec map (encoding = .utf32BE) lossByte max cs [] _ hbuf used bytes hused
    rwa [List.nil_append, List.length_nil, ← hlen] at this
  rw [encodeUTF32]
  by_cases hmark : external ∧ encoding = .utf32
  · obtain ⟨rfl, rfl⟩ := hmark
    have h4 : markLength .utf32 true = 4 := rfl
    rw [h4] at hroom ⊢
    simp only [and_self, ↓reduceIte, if_neg (by omega : ¬ 4 > max)]
    exact hloop 4 _ hroom
  · have h0 : markLength encoding external = 0 := by
      unfold markLength
      cases external
      · rfl
      · rcases hencoding with rfl | rfl | rfl
        · exact absurd ⟨rfl, rfl⟩ hmark
        · rfl
        · rfl
    rw [h0] at hroom ⊢
    simp only [hmark, ↓reduceIte]
    exact hloop 0 [] hroom

/-! ## UTF-16 -/

theorem encodeUTF16_spec (str : CFStringRef) (external : Bool) {encoding : UnicodeEncoding}
    (hencoding : encoding = .utf16 ∨ encoding = .utf16BE ∨ encoding = .utf16LE) {max : Nat}
    (hroom : markLength encoding external + 2 * str.val.getLength ≤ max) :
    encodeUTF16 map str.val 0 str.val.getLength external encoding (some max) =
      ⟨str.val.getLength, markLength encoding external + 2 * str.val.getLength,
        (if markLength encoding external = 0 then [] else [0xFF, 0xFE]) ++
          unitBytes (if encoding = .utf16BE then (str.val.characters map).map swapInt16 else str.val.characters map)⟩ := by
  have hextra : (if external ∧ encoding = .utf16 then 2 else 0) = markLength encoding external := by
    unfold markLength
    rcases hencoding with rfl | rfl | rfl <;> cases external <;> rfl
  rw [encodeUTF16, hextra]
  simp only [if_neg (by omega : ¬ str.val.getLength * 2 + markLength encoding external > max)]
  rw [Nat.mul_comm, Nat.add_comm (2 * _), ite_not]
  rfl

/-! ## UTF-8 -/

theorem getD_not_surrogate {l : List UniChar} (h : ∀ c ∈ l, ¬ IsHighSurrogate c.toNat) (i : Nat) :
    ¬ IsHighSurrogate (l.getD i 0).toNat := by
  by_cases hi : i < l.length
  · exact h _ (getD_mem hi)
  · rw [List.getD_eq_default _ _ (Nat.not_lt.mp hi)]
    decide

theorem macRoman_to_uni_not_surrogate : ∀ c ∈ macRoman_to_uni, ¬ IsHighSurrogate c.toNat :=
  forall_of_all (by decide +kernel)

theorem cp1252_to_uni_not_surrogate : ∀ c ∈ cp1252_to_uni, ¬ IsHighSurrogate c.toNat :=
  forall_of_all (by decide +kernel)

theorem toUInt16_not_surrogate (byte : UInt8) : ¬ IsHighSurrogate byte.toUInt16.toNat := by
  have := toUInt16_lt byte
  unfold IsHighSurrogate
  omega

/-- The table gives bytes no surrogates, and bytes below 0x80 themselves. -/
theorem table_spec {target : DeploymentTarget} (hmap : map.Reachable target) (byte : UInt8) :
    ¬ IsHighSurrogate (map.table byte).toNat ∧ (byte < 0x80 → map.table byte = byte.toUInt16) := by
  rcases hmap.eq_or with rfl | rfl
  · exact ⟨toUInt16_not_surrogate byte, fun _ => rfl⟩
  · refine ⟨?_, fun h => if_pos h⟩
    show ¬ IsHighSurrogate (target.defaultConverter.tableOf byte).toNat
    cases target.defaultConverter with
    | macRoman =>
      rw [tableOf_macRoman]
      split
      · exact toUInt16_not_surrogate byte
      · exact getD_not_surrogate macRoman_to_uni_not_surrogate _
    | winLatin1 =>
      rw [tableOf_winLatin1]
      split
      · exact toUInt16_not_surrogate byte
      · exact getD_not_surrogate cp1252_to_uni_not_surrogate _
    | isoLatin1 =>
      rw [tableOf_isoLatin1]
      exact toUInt16_not_surrogate byte

/-- Characters of the BMP. -/
def Bmp (cs : List Char) : Prop := ∀ c ∈ cs, c.toNat ≤ 0xFFFF

theorem bmp_of_units {cs : List Char} (h : ∀ unit ∈ utf16Encode cs, ¬ IsHighSurrogate unit.toNat) : Bmp cs := by
  intro c hc
  by_contra hbig
  obtain ⟨high, low, hunits, hhigh, -⟩ := utf16EncodeChar_two hbig
  exact h high (List.mem_flatMap.mpr ⟨c, hc, by rw [hunits]; exact List.mem_cons_self⟩) hhigh

theorem utf16Encode_bmp {cs : List Char} (h : Bmp cs) : utf16Encode cs = cs.map fun c => UInt16.ofNat c.toNat := by
  induction cs with
  | nil => rfl
  | cons c cs ih =>
    obtain ⟨hc, hcs⟩ := List.forall_mem_cons.mp h
    rw [utf16Encode_cons, ih hcs, utf16EncodeChar, if_pos hc]
    rfl

theorem Bmp.take {cs : List Char} (h : Bmp cs) (n : Nat) : Bmp (cs.take n) := fun c hc => h c (List.mem_of_mem_take hc)

theorem Bmp.drop {cs : List Char} (h : Bmp cs) (n : Nat) : Bmp (cs.drop n) := fun c hc => h c (List.mem_of_mem_drop hc)

/-- A run of characters of a string in bytes. -/
theorem getCharacters_bmp {str : CFString} {cs : List Char} (hcs : str.characters map = utf16Encode cs) (h : Bmp cs)
    {location length : Nat} (hrange : location + length ≤ str.getLength) :
    str.getCharacters map location length = utf16Encode ((cs.drop location).take length) := by
  rw [str.getCharacters_eq map hrange, hcs, utf16Encode_bmp h, utf16Encode_bmp ((h.drop _).take _), List.map_take,
    List.map_drop]

/-! ### Room -/

theorem enoughRoom_append {max : Nat} {a b : List Nat} {used : Nat} (h : EnoughRoom max (a ++ b) used) :
    EnoughRoom max a used ∧ EnoughRoom max b (used + byteCount a) := by
  induction a generalizing used with
  | nil => exact ⟨trivial, h⟩
  | cons ch a ih =>
    obtain ⟨hlt, hroom, hrest⟩ := h
    obtain ⟨ha, hb⟩ := ih hrest
    refine ⟨⟨hlt, hroom, ha⟩, ?_⟩
    rwa [Nat.add_assoc] at hb

/-- What was used can be taken off the room. -/
theorem enoughRoom_sub {max k : Nat} {chs : List Nat} {used : Nat} (h : EnoughRoom max chs (k + used)) :
    EnoughRoom (max - k) chs used := by
  induction chs generalizing used with
  | nil => trivial
  | cons ch chs ih =>
    obtain ⟨hlt, hroom, hrest⟩ := h
    refine ⟨by omega, fun h80 => ?_, ih (Nat.add_assoc _ _ _ ▸ hrest)⟩
    rw [Nat.sub_sub]
    exact hroom h80

theorem utf8Encode_append (cs ds : List Char) : utf8Encode (cs ++ ds) = utf8Encode cs ++ utf8Encode ds :=
  List.flatMap_append

theorem byteCount_chars (cs : List Char) : byteCount (cs.map Char.toNat) = (utf8Encode cs).length := by
  induction cs with
  | nil => rfl
  | cons c cs ih =>
    rw [utf8Encode_cons, List.length_append, ← ih, ← utf8Bytes_char, length_utf8Bytes]
    rfl

/-! ### Chunks -/

theorem unicodeToBytes_characters {cs : List Char} {max : Nat} (hroom : EnoughRoom max (cs.map Char.toNat) 0) :
    unicodeToBytes (utf16Encode cs) max =
      (.success, ⟨(utf16Encode cs).length, (utf8Encode cs).length, utf8Encode cs⟩) := by
  unfold unicodeToBytes
  simp only [toUTF8_characters noFlags cs hroom, ↓reduceIte]

theorem charBufLength_le (map : CharToUniChar) (string : CFString) (rangeLoc rangeLen : Nat) :
    charBufLength map string rangeLoc rangeLen ≤ rangeLen := by
  unfold charBufLength
  simp only
  split <;> omega

/-- The chunks of a range give the bytes of its characters. -/
theorem encodeChunks_spec {str : CFString} {cs : List Char} (hcs : str.characters map = utf16Encode cs) (hbmp : Bmp cs)
    (hlen : cs.length = str.getLength) {rangeLoc rangeLen max : Nat} (hrange : rangeLoc + rangeLen = str.getLength)
    (hroom : EnoughRoom max ((cs.drop rangeLoc).map Char.toNat) 0) (done : EncodedStream) :
    encodeChunks map str rangeLoc rangeLen max done =
      some ⟨done.numCharsProcessed + rangeLen, done.usedBufLen + (utf8Encode (cs.drop rangeLoc)).length,
        done.bytes ++ utf8Encode (cs.drop rangeLoc)⟩ := by
  induction hn : rangeLen using Nat.strong_induction_on generalizing rangeLoc rangeLen max done with
  | _ n ih =>
    subst hn
    rw [encodeChunks]
    by_cases hpos : 0 < rangeLen
    · rw [if_pos hpos]
      have hcpos := charBufLength_pos map str rangeLoc hpos
      have hcle := charBufLength_le map str rangeLoc rangeLen
      generalize charBufLength map str rangeLoc rangeLen = currentLength at hcpos hcle ⊢
      have hsplit := List.take_append_drop currentLength (cs.drop rangeLoc)
      rw [List.drop_drop] at hsplit
      rw [← hsplit, List.map_append] at hroom
      obtain ⟨hchunk, hrest⟩ := enoughRoom_append hroom
      rw [byteCount_chars, Nat.zero_add] at hrest
      have hlater : EnoughRoom _ _ 0 := enoughRoom_sub (by rwa [Nat.add_zero])
      simp only [getCharacters_bmp hcs hbmp (by omega : rangeLoc + currentLength ≤ str.getLength),
        unicodeToBytes_characters hchunk]
      have hbytes : utf8Encode (cs.drop rangeLoc) = utf8Encode ((cs.drop rangeLoc).take currentLength) ++
          utf8Encode (cs.drop (rangeLoc + currentLength)) := by rw [← utf8Encode_append, hsplit]
      rw [hbytes, List.length_append]
      split
      · rename_i hfull
        -- the room is used up, so no character is left
        have hnil : cs.drop (rangeLoc + currentLength) = [] := by
          cases hd : cs.drop (rangeLoc + currentLength) with
          | nil => rfl
          | cons c cs' =>
            rw [hd] at hrest
            exact absurd hfull.2 (Nat.not_le.mpr hrest.1)
        have hall : rangeLen = currentLength := by
          have := List.drop_eq_nil_iff.mp hnil
          omega
        rw [hnil, hall]
        simp only [utf8Encode, List.flatMap_nil, List.append_nil, List.length_nil, Nat.add_zero]
      · rw [ih (rangeLen - currentLength) (by omega) (by omega) hlater _ rfl]
        simp only [List.append_assoc, Nat.add_assoc, Nat.add_sub_cancel' hcle]
    · have hzero : rangeLen = 0 := Nat.eq_zero_of_not_pos hpos
      subst hzero
      rw [if_neg hpos, List.drop_eq_nil_of_le (by omega)]
      simp [utf8Encode]

/-! ### Bytes below 0x80 -/

theorem asciiRun_le (cString : List UInt8) (limit : Nat) : asciiRun cString limit ≤ limit :=
  (List.takeWhile_prefix _).length_le.trans (List.length_take_le _ _)

theorem take_asciiRun (cString : List UInt8) (limit : Nat) :
    ∀ byte ∈ cString.take (asciiRun cString limit), byte < 0x80 := by
  intro byte hbyte
  have hprefix : (cString.take limit).takeWhile (fun byte => decide (byte < 0x80)) <+: cString :=
    (List.takeWhile_prefix _).trans (List.take_prefix _ _)
  have heq := List.prefix_iff_eq_take.mp hprefix
  unfold asciiRun at hbyte
  rw [← heq] at hbyte
  exact of_decide_eq_true (List.all_eq_true.mp List.all_takeWhile byte hbyte)

/-- Bytes below 0x80 are the bytes of their characters. -/
theorem utf8Encode_ascii {target : DeploymentTarget} (hmap : map.Reachable target) {bytes : List UInt8} {cs : List Char}
    (hbytes : ∀ byte ∈ bytes, byte < 0x80) (hbmp : Bmp cs)
    (hcs : bytes.map map.table = cs.map fun c => UInt16.ofNat c.toNat) : utf8Encode cs = bytes := by
  induction cs generalizing bytes with
  | nil =>
    cases List.map_eq_nil_iff.mp hcs
    rfl
  | cons c cs ih =>
    cases bytes with
    | nil => exact absurd hcs (List.cons_ne_nil _ _).symm
    | cons byte bytes =>
      obtain ⟨hb, hbytes⟩ := List.forall_mem_cons.mp hbytes
      obtain ⟨hc, hbmp⟩ := List.forall_mem_cons.mp hbmp
      obtain ⟨hhead, htail⟩ := List.cons.inj hcs
      have hval : c.toNat = byte.toNat := by
        have := congrArg UInt16.toNat hhead
        rw [(table_spec hmap byte).2 hb, UInt8.toNat_toUInt16, UInt16.toNat_ofNat', Nat.mod_eq_of_lt (by omega)] at this
        exact this.symm
      rw [UInt8.lt_iff_toNat_lt] at hb
      rw [utf8Encode_cons, ih hbytes hbmp htail, ← utf8Bytes_char, utf8Bytes, hval,
        if_pos (show byte.toNat < 0x80 from hb), UInt8.ofNat_toNat]
      rfl

/-- A run of bytes below 0x80 fits where its characters have room. -/
theorem length_le_of_enoughRoom {max : Nat} {chs : List Nat} (hchs : ∀ ch ∈ chs, ch < 0x110000) {used : Nat}
    (hroom : EnoughRoom max chs used) (hused : used ≤ max) : used + chs.length ≤ max := by
  induction chs generalizing used with
  | nil => exact hused
  | cons ch chs ih =>
    obtain ⟨hlt, hroom, hrest⟩ := hroom
    obtain ⟨hch, hchs⟩ := List.forall_mem_cons.mp hchs
    have hpos := bytesToWrite_pos hch
    have hle : used + bytesToWriteForCharacter ch ≤ max := by
      by_cases h80 : 0x80 ≤ ch
      · have := (hroom h80).trans (Nat.mod_le _ _)
        omega
      · have hone : bytesToWriteForCharacter ch = 1 := if_pos (Nat.not_le.mp h80)
        omega
    have := ih hchs hrest hle
    rw [List.length_cons]
    omega

/-- The copied bytes and the rest of the range give the bytes of the characters. -/
theorem encodeFromPtr_spec {target : DeploymentTarget} (hmap : map.Reachable target) {str : CFString} {cs : List Char}
    (hcs : str.characters map = utf16Encode cs) (hbmp : Bmp cs) (hlen : cs.length = str.getLength) {cString : List UInt8}
    (hptr : (cString.take str.getLength).map map.table = str.characters map) {limit max : Nat} (hlimit : limit ≤ str.getLength)
    (hroom : EnoughRoom max (cs.map Char.toNat) 0) :
    encodeFromPtr map str cString limit 0 str.getLength (some max) =
      some ⟨str.getLength, (utf8Encode cs).length, utf8Encode cs⟩ := by
  have hrun := asciiRun_le cString limit
  have hascii := take_asciiRun cString limit
  unfold encodeFromPtr
  simp only
  generalize asciiRun cString limit = run at hrun hascii ⊢
  have hfits := length_le_of_enoughRoom (fun ch hch => by
    obtain ⟨c, -, rfl⟩ := List.mem_map.mp hch
    have := char_valid c
    omega) hroom (Nat.zero_le _)
  rw [List.length_map, hlen] at hfits
  rw [Nat.min_eq_left (by omega : run ≤ max)]
  have hcopied : utf8Encode (cs.take run) = cString.take run := by
    refine utf8Encode_ascii hmap hascii (hbmp.take run) ?_
    rw [List.map_take, List.map_take, ← utf16Encode_bmp hbmp, ← hcs, ← hptr, List.map_take, List.take_take,
      Nat.min_eq_left (by omega)]
  have hlength : (cString.take run).length = run := by
    have := congrArg List.length hptr
    rw [hcs, utf16Encode_bmp hbmp, List.length_map, List.length_map, List.length_take, hlen] at this
    rw [List.length_take]
    omega
  split
  · rename_i hdone
    have hall : run = str.getLength := by
      rcases hdone with hz | hz
      · omega
      · have : max - run = 0 := Option.some.inj hz
        omega
    rw [List.take_of_length_le (by omega)] at hcopied
    rw [hcopied, hlength, hall]
  · rw [← List.take_append_drop run cs, List.map_append] at hroom
    have hrest := (enoughRoom_append hroom).2
    rw [byteCount_chars, hcopied, hlength, Nat.zero_add] at hrest
    show encodeChunks map str (0 + run) (str.getLength - run) (max - run) _ = _
    rw [Nat.zero_add, encodeChunks_spec hcs hbmp hlen (by omega) (enoughRoom_sub hrest)]
    have hwhole : utf8Encode cs = cString.take run ++ utf8Encode (cs.drop run) := by
      rw [← hcopied, ← utf8Encode_append, List.take_append_drop]
    rw [hwhole, List.length_append, hlength]
    simp only [Nat.add_sub_cancel' (by omega : run ≤ str.getLength)]

/-! ### Whichever way the string is stored -/

theorem length_utf16Encode_bmp {cs : List Char} (h : Bmp cs) : (utf16Encode cs).length = cs.length := by
  rw [utf16Encode_bmp h, List.length_map]

theorem encodeUTF8_spec {target : DeploymentTarget} (hmap : map.Reachable target) (str : CFStringRef) {cs : List Char}
    (hcs : str.val.characters map = utf16Encode cs) {max : Nat} (hroom : EnoughRoom max (cs.map Char.toNat) 0) :
    encodeUTF8 map str.val 0 str.val.getLength (some max) =
      some ⟨str.val.getLength, (utf8Encode cs).length, utf8Encode cs⟩ := by
  obtain ⟨str, hwf⟩ := str
  simp only at hcs ⊢
  have hlength := hwf.length_characters map
  unfold encodeUTF8
  cases hcontents : str.contents with
  | unicode units =>
    have hptr : str.getCharactersPtr = some units := by simp only [CFString.getCharactersPtr, hcontents]
    rw [CFString.characters_unicode hcontents] at hcs hlength
    simp only [hptr, List.drop_zero, hcs, Option.getD_some, toUTF8_characters noFlags cs hroom]
    rw [← hcs, hlength]
  | eightBit bytes =>
    have hptr : str.getCharactersPtr = none := by simp only [CFString.getCharactersPtr, hcontents]
    have hchars : str.characters map = _ := CFString.characters_eightBit hcontents
    have hbmp : Bmp cs := bmp_of_units fun unit hunit => by
      rw [← hcs, hchars] at hunit
      obtain ⟨byte, -, rfl⟩ := List.mem_map.mp hunit
      exact (table_spec hmap byte).1
    have hlen : cs.length = str.getLength := by rw [← length_utf16Encode_bmp hbmp, ← hcs, hlength]
    simp only [hptr]
    cases hcstring : str.getCStringPtr with
    | some cString =>
      have hstart : cString = bytes.drop str.skipAnyLengthByte := by
        simp only [CFString.getCStringPtr, hcontents, Option.ite_none_right_eq_some, Option.some.injEq] at hcstring
        exact hcstring.2.symm
      simp only
      exact encodeFromPtr_spec hmap hcs hbmp hlen (by rw [List.drop_zero, hstart, hchars]) (Nat.sub_le _ _) hroom
    | none =>
      simp only
      cases hpascal : str.getPascalStringPtr with
      | some pascal =>
        have hstart : pascal.drop (0 + 1) = bytes.drop str.skipAnyLengthByte := by
          simp only [CFString.getPascalStringPtr, hcontents] at hpascal
          split at hpascal
          · rename_i hbyte
            split at hpascal
            · cases hpascal
            · rw [← Option.some.inj hpascal, CFString.skipAnyLengthByte, if_pos hbyte]
          · cases hpascal
        exact encodeFromPtr_spec hmap hcs hbmp hlen (by rw [hstart, hchars]) (Nat.le_refl _) hroom
      | none =>
        have h := encodeChunks_spec hcs hbmp hlen (Nat.zero_add _) (by rwa [List.drop_zero]) ⟨0, 0, []⟩
        simpa only [List.drop_zero, Nat.zero_add, List.nil_append, Option.getD_some] using h

end CFLite.Strings
