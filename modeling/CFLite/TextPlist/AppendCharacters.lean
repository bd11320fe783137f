import CFLite.Base.Number
import CFLite.Strings.ByteStreamsEncode
import CFLite.Strings.Creation

/-!
# Appending characters to a property list in UTF-8

`_plistAppendCharacters` takes the ASCII characters at the head of its input
through a buffer on the stack, and the rest through a string and
`CFStringCreateExternalRepresentation`. Each round of the loop over the ASCII
characters counts from the first of them again, while the buffer only has room
for one round.

* `flushASCII_spec`, `flushASCII_overflow`: the loop, with at most 400 characters
  and with more;
* `createExternalRepresentation_spec`: the rest in UTF-8, while its length and
  its bytes fit 32 bits;
* `appends_iff`: the inputs that are appended as they should be.
-/

namespace CFLite.TextPlist

open CFLite.Framework CFLite.Strings

/-! ## The code -/

/-- `BUFLEN` -/
def bufLen : Nat := 400

/-- The `while` that copies ASCII characters to `buf`, of which `buf` are the
bytes written so far. A byte past the end of the buffer leaves none. -/
def copyASCII (curLoc : Nat) : (chars : List UniChar) → (cnt : Nat) → (buf : List UInt8) → Option (Nat × List UInt8)
  | [], cnt, buf => some (cnt, buf)
  | ch :: chars, cnt, buf =>
    if cnt < curLoc + bufLen ∧ ch.toNat < 128 then
      if buf.length < bufLen then copyASCII curLoc chars (cnt + 1) (buf ++ [ch.toUInt8]) else none
    else some (cnt, buf)

/-- The `do` loop over the ASCII characters. It would not end if it stood before
one of them without copying any. -/
def flushASCII (chars : List UniChar) (mData : List UInt8) (curLoc : Nat) : Option (List UInt8 × Nat) :=
  match copyASCII curLoc chars 0 [] with
  | none => none
  | some (cnt, buf) =>
    if _h : curLoc < cnt then
      if _h' : cnt < chars.length ∧ (chars.getD cnt 0).toNat < 128 then
        flushASCII chars (mData ++ buf.take (cnt - curLoc)) cnt
      else some (mData ++ buf.take (cnt - curLoc), cnt)
    else if curLoc < chars.length ∧ (chars.getD curLoc 0).toNat < 128 then none
    else some (mData, curLoc)
  termination_by chars.length - curLoc

/-- `CFStringGetMaximumSizeForEncoding` for UTF-8 -/
def getMaximumSizeForUTF8 (length : Nat) : Int := if length > (2 ^ 63 - 1) / 3 then -1 else (length * 3 : Nat)

/-- `CFStringCreateExternalRepresentation` in UTF-8, without a loss byte, for a
string whose characters are stored as such. The count of characters goes through
an `SInt32`. -/
def createExternalRepresentation (map : CharToUniChar) (string : CFString) : Option (List UInt8) :=
  let length := string.getLength
  let guessedByteLength := getMaximumSizeForUTF8 length
  let guessedByteLength :=
    if guessedByteLength > length then
      let aLength := toUTF8Len noFlags (string.characters map)
      if aLength > 0 then (aLength : Int) else guessedByteLength
    else guessedByteLength
  match encodeByteStream map string 0 length true .utf8 0 (some guessedByteLength.toNat) [] with
  | none => none
  | some stream => if int32 stream.numCharsProcessed ≠ length then none else some stream.bytes

/-- `_plistAppendCharacters` -/
def plistAppendCharacters (map : CharToUniChar) (alloc : Allocator) (mData : List UInt8) (chars : List UniChar) :
    Option (List UInt8) :=
  match flushASCII chars mData 0 with
  | none => none
  | some (mData, curLoc) =>
    if curLoc < chars.length then
      let str := createWithCharactersNoCopy alloc (chars.drop curLoc) (chars.length - curLoc)
      match createExternalRepresentation map str with
      | some data => some (mData ++ data)
      | none => some mData
    else some mData

/-! ## The ASCII characters -/

/-- The ASCII characters at the head. -/
def leadingASCII (chars : List UniChar) : List UniChar := chars.takeWhile fun ch => ch.toNat < 128

/-- What follows them. -/
def afterASCII (chars : List UniChar) : List UniChar := chars.dropWhile fun ch => ch.toNat < 128

variable {map : CharToUniChar} {alloc : Allocator} {chars : List UniChar}

theorem leadingASCII_append_afterASCII (chars : List UniChar) : leadingASCII chars ++ afterASCII chars = chars :=
  List.takeWhile_append_dropWhile

theorem leadingASCII_cons (ch : UniChar) (chars : List UniChar) :
    leadingASCII (ch :: chars) = if ch.toNat < 128 then ch :: leadingASCII chars else [] := by
  rw [leadingASCII, List.takeWhile_cons]
  simp only [decide_eq_true_eq]
  rfl

theorem afterASCII_cons (ch : UniChar) (chars : List UniChar) :
    afterASCII (ch :: chars) = if ch.toNat < 128 then afterASCII chars else ch :: chars := by
  rw [afterASCII, List.dropWhile_cons]
  simp only [decide_eq_true_eq]
  rfl

theorem drop_leadingASCII (chars : List UniChar) : chars.drop (leadingASCII chars).length = afterASCII chars := by
  induction chars with
  | nil => rfl
  | cons ch chars ih =>
    rw [leadingASCII_cons, afterASCII_cons]
    split
    · exact ih
    · rfl

theorem take_leadingASCII (chars : List UniChar) : chars.take (leadingASCII chars).length = leadingASCII chars := by
  induction chars with
  | nil => rfl
  | cons ch chars ih =>
    rw [leadingASCII_cons]
    split
    · exact congrArg (ch :: ·) ih
    · rfl

theorem length_leadingASCII_le (chars : List UniChar) : (leadingASCII chars).length ≤ chars.length :=
  (List.takeWhile_sublist _).length_le

/-- The characters before the end of the run are ASCII, and the one there is not. -/
theorem getD_ascii_iff {k : Nat} (h : k ≤ (leadingASCII chars).length) :
    (k < chars.length ∧ (chars.getD k 0).toNat < 128) ↔ k < (leadingASCII chars).length := by
  induction chars generalizing k with
  | nil => exact iff_of_false (fun h => Nat.not_lt_zero k h.1) (Nat.not_lt_zero k)
  | cons ch chars ih =>
    rw [leadingASCII_cons] at h ⊢
    by_cases hch : ch.toNat < 128
    · simp only [hch, ↓reduceIte, List.length_cons] at h ⊢
      cases k with
      | zero => exact iff_of_true ⟨Nat.succ_pos _, hch⟩ (Nat.succ_pos _)
      | succ k =>
        rw [Nat.add_lt_add_iff_right, Nat.add_lt_add_iff_right, List.getD_cons_succ]
        exact ih (Nat.le_of_succ_le_succ h)
    · simp only [hch, ↓reduceIte, List.length_nil] at h ⊢
      obtain rfl := Nat.le_zero.mp h
      exact iff_of_false (fun h => hch h.2) (Nat.lt_irrefl 0)

/-- The `while` copies the ASCII characters that fit its count, if they fit the
buffer. -/
theorem copyASCII_eq (chars : List UniChar) {curLoc cnt : Nat} (buf : List UInt8) (hcnt : cnt ≤ curLoc + bufLen)
    (hbuf : buf.length ≤ bufLen) {m : Nat} (hm : m = min (leadingASCII chars).length (curLoc + bufLen - cnt)) :
    copyASCII curLoc chars cnt buf =
      if buf.length + m ≤ bufLen then some (cnt + m, buf ++ (chars.take m).map UInt16.toUInt8) else none := by
  induction chars generalizing cnt buf m with
  | nil =>
    obtain rfl : m = 0 := by rw [hm]; exact Nat.zero_min _
    rw [copyASCII, Nat.add_zero, if_pos hbuf, List.take_nil, List.map_nil, List.append_nil, Nat.add_zero]
  | cons ch chars ih =>
    rw [copyASCII]
    rw [leadingASCII_cons] at hm
    by_cases hch : cnt < curLoc + bufLen ∧ ch.toNat < 128
    · rw [if_pos hch.2, List.length_cons] at hm
      obtain ⟨n, rfl⟩ : ∃ n, m = n + 1 := ⟨m - 1, by omega⟩
      have hn : n = min (leadingASCII chars).length (curLoc + bufLen - (cnt + 1)) := by omega
      rw [if_pos hch]
      by_cases hroom : buf.length < bufLen
      · rw [if_pos hroom, ih _ hch.1 (by rw [List.length_append]; exact hroom) hn, List.length_append,
          List.length_singleton, Nat.add_assoc, Nat.add_comm 1 n, Nat.succ_add, List.append_assoc]
        rfl
      · rw [if_neg hroom, if_neg (by omega)]
    · obtain rfl : m = 0 := by
        rw [not_and_or] at hch
        rcases hch with hfull | hascii
        · omega
        · rw [if_neg hascii] at hm
          rw [hm]
          exact Nat.zero_min _
      rw [if_neg hch, Nat.add_zero, if_pos hbuf, List.take_zero, List.map_nil, List.append_nil, Nat.add_zero]

/-- As many ASCII characters as the buffer holds are appended in one round. -/
theorem flushASCII_spec (h : (leadingASCII chars).length ≤ bufLen) (mData : List UInt8) :
    flushASCII chars mData 0 =
      some (mData ++ (leadingASCII chars).map UInt16.toUInt8, (leadingASCII chars).length) := by
  have hm : (leadingASCII chars).length = min (leadingASCII chars).length (0 + bufLen - 0) := by
    rw [Nat.zero_add, Nat.sub_zero, min_eq_left h]
  have hcopy := copyASCII_eq chars [] (Nat.zero_le _) (Nat.zero_le _) hm
  rw [List.length_nil, Nat.zero_add, if_pos h, List.nil_append, take_leadingASCII] at hcopy
  have hstop := mt (getD_ascii_iff (le_refl (leadingASCII chars).length)).mp (Nat.lt_irrefl _)
  rw [flushASCII, hcopy]
  simp only
  by_cases hpos : 0 < (leadingASCII chars).length
  · rw [dif_pos hpos, dif_neg hstop, Nat.sub_zero, List.take_of_length_le (by rw [List.length_map])]
  · have hzero := Nat.eq_zero_of_not_pos hpos
    rw [hzero] at hstop
    rw [dif_neg hpos, if_neg hstop, hzero, List.length_eq_zero_iff.mp hzero, List.map_nil, List.append_nil]

/-- With more of them the second round writes past the end of the buffer. -/
theorem flushASCII_overflow (h : bufLen < (leadingASCII chars).length) (mData : List UInt8) :
    flushASCII chars mData 0 = none := by
  have hm : bufLen = min (leadingASCII chars).length (0 + bufLen - 0) := by
    rw [Nat.zero_add, Nat.sub_zero, min_eq_right h.le]
  have hfirst := copyASCII_eq chars [] (Nat.zero_le _) (Nat.zero_le _) hm
  rw [List.length_nil, Nat.zero_add, if_pos le_rfl, List.nil_append] at hfirst
  have hsecond := copyASCII_eq chars [] (Nat.zero_le (bufLen + bufLen)) (Nat.zero_le _) rfl
  rw [if_neg] at hsecond
  · rw [flushASCII, hfirst]
    simp only
    rw [dif_pos (by decide), dif_pos ((getD_ascii_iff h.le).mpr h), flushASCII, hsecond]
  · rw [List.length_nil, bufLen]
    rw [bufLen] at h
    omega

/-! ## The rest -/

/-- The characters of the rest and their bytes can be counted in 32 bits. At 2³²
bytes the count is 0, and three bytes a unit are allocated instead. -/
def Counts (units : List UniChar) : Prop :=
  units.length < 2 ^ 31 ∧ (byteCount (codes units) < 2 ^ 32 ∨
    byteCount (codes units) = 2 ^ 32 ∧ EnoughRoom (3 * units.length) (codes units) 0)

/-- The size of the buffer that the rest is converted in. -/
def bufferSize (units : List UniChar) : Nat :=
  if byteCount (codes units) % 2 ^ 32 > 0 then byteCount (codes units) % 2 ^ 32 else 3 * units.length

theorem createExternalRepresentation_eq {units : List UniChar} (hpos : 0 < units.length)
    (hlen : units.length < 2 ^ 31) :
    createExternalRepresentation map (createWithCharactersNoCopy alloc units units.length) =
      if (toUTF8 noFlags units (bufferSize units)).consumed = units.length then
        some (toUTF8 noFlags units (bufferSize units)).output
      else none := by
  obtain ⟨str, hstr⟩ : ∃ str, str = createWithCharactersNoCopy alloc units units.length := ⟨_, rfl⟩
  have hcontents : str.contents = .unicode units ∧ str.getLength = units.length := by
    rw [hstr, createWithCharactersNoCopy, createImmutableFunnel3, if_neg fun h => hpos.ne' h.2]
    exact ⟨rfl, rfl⟩
  obtain ⟨hcontents, hlength⟩ := hcontents
  have hunits : str.characters map = units := by
    rw [CFString.characters_unicode hcontents, hlength, List.take_length]
  have hptr : str.getCharactersPtr = some units := by
    rw [CFString.getCharactersPtr, hcontents]
  have hmax : getMaximumSizeForUTF8 units.length = (units.length * 3 : Nat) :=
    if_neg (Nat.not_lt.mpr (Nat.le_trans hlen.le (by decide)))
  have hcount : toUTF8Len noFlags units = byteCount (codes units) % 2 ^ 32 := by
    rw [toUTF8Len, toUTF8LenLoop_mod (by decide), Nat.zero_add]
  have hconsumed : (toUTF8 noFlags units (bufferSize units)).consumed ≤ units.length :=
    Nat.le_trans (toUTF8Loop_consumed_le _ _ units _) (Nat.le_of_eq (Nat.zero_add _))
  have hsize : (if byteCount (codes units) % 2 ^ 32 > 0 then ((byteCount (codes units) % 2 ^ 32 : Nat) : Int)
      else (units.length * 3 : Nat)).toNat = bufferSize units := by
    rw [bufferSize]
    split
    · exact Int.toNat_natCast _
    · rw [Int.toNat_natCast, Nat.mul_comm]
  rw [← hstr, createExternalRepresentation]
  simp only [hlength, hunits, hmax, hcount, encodeByteStream, encodeUTF8, hptr, List.drop_zero, List.take_length]
  rw [if_pos (Int.ofNat_lt.mpr (by omega)), hsize, Option.getD_some, int32_of_fits (by omega) (by omega), ite_not]
  simp only [Int.natCast_inj]

theorem byteCount_cons (ch : Nat) (chs : List Nat) :
    byteCount (ch :: chs) = bytesToWriteForCharacter ch + byteCount chs :=
  List.sum_cons

theorem byteCount_pos {units : List UniChar} (h : 0 < units.length) : 0 < byteCount (codes units) := by
  obtain ⟨ch, chs, hcodes⟩ : ∃ ch chs, codes units = ch :: chs := by
    cases units using codes.induct with
    | case1 => exact absurd h (Nat.lt_irrefl 0)
    | case2 unit low rest hpair => exact ⟨_, _, by rw [codes, if_pos hpair]⟩
    | case3 unit low rest hpair => exact ⟨_, _, by rw [codes, if_neg hpair]⟩
    | case4 unit => exact ⟨_, _, rfl⟩
  have hpos := bytesToWrite_pos (codes_lt units ch (by rw [hcodes]; exact List.mem_cons_self))
  rw [hcodes, byteCount_cons]
  omega

theorem byteCount_le (units : List UniChar) : byteCount (codes units) ≤ 3 * units.length := by
  have hunit : ∀ unit : UniChar, bytesToWriteForCharacter unit.toNat ≤ 3 := fun unit => by
    have hlt := unit.toNat_lt
    unfold bytesToWriteForCharacter
    split_ifs <;> omega
  induction units using codes.induct with
  | case1 => exact le_rfl
  | case2 unit low rest hpair ih =>
    have hbytes : bytesToWriteForCharacter ((unit.toNat - 0xD800) <<< 10 + (low.toNat - 0xDC00) + 0x10000) ≤ 4 := by
      have hbounds := pair_bounds hpair
      unfold bytesToWriteForCharacter
      split_ifs <;> omega
    rw [codes, if_pos hpair, byteCount_cons, List.length_cons, List.length_cons]
    omega
  | case3 unit low rest hpair ih =>
    have hbytes := hunit unit
    rw [codes, if_neg hpair, byteCount_cons, List.length_cons]
    omega
  | case4 unit =>
    have hnil : byteCount [] = 0 := rfl
    rw [codes, byteCount_cons, hnil]
    exact hunit unit

theorem byteCount_le_of_enoughRoom {max : Nat} {chs : List Nat} {used : Nat} (h : EnoughRoom max chs used)
    (hused : used ≤ max) : used + byteCount chs ≤ max := by
  induction chs generalizing used with
  | nil => exact hused
  | cons ch chs ih =>
    obtain ⟨hlt, hroom, hrest⟩ := h
    rw [byteCount_cons, ← Nat.add_assoc]
    refine ih hrest ?_
    by_cases h80 : 0x80 ≤ ch
    · have := (hroom h80).trans (Nat.mod_le _ _)
      omega
    · rw [show bytesToWriteForCharacter ch = 1 from if_pos (Nat.not_le.mp h80)]
      exact hlt

/-- The buffer has room for the rest exactly when its characters and bytes can be
counted. -/
theorem enoughRoom_bufferSize_iff {units : List UniChar} (hpos : 0 < units.length) (hlen : units.length < 2 ^ 31) :
    EnoughRoom (bufferSize units) (codes units) 0 ↔ Counts units := by
  have hbytes := byteCount_pos hpos
  have hle := byteCount_le units
  rw [Counts, bufferSize]
  by_cases hsmall : byteCount (codes units) < 2 ^ 32
  · rw [Nat.mod_eq_of_lt hsmall, if_pos hbytes]
    exact iff_of_true (enoughRoom_of_le hsmall (codes_lt units) (Nat.le_of_eq (Nat.zero_add _))) ⟨hlen, .inl hsmall⟩
  · by_cases hexact : byteCount (codes units) = 2 ^ 32
    · rw [hexact, Nat.mod_self, if_neg (Nat.lt_irrefl 0)]
      exact ⟨fun h => ⟨hlen, .inr ⟨rfl, h⟩⟩, fun h => (h.2.resolve_left (Nat.lt_irrefl _)).2⟩
    · have hmod : 0 < byteCount (codes units) % 2 ^ 32 ∧
          byteCount (codes units) % 2 ^ 32 < byteCount (codes units) := by omega
      rw [if_pos hmod.1]
      refine iff_of_false (fun h => ?_) fun h => (h.2.elim hsmall fun h => hexact h.1)
      have := byteCount_le_of_enoughRoom h (Nat.zero_le _)
      omega

/-- A rest that can be counted gives its characters in UTF-8. -/
theorem createExternalRepresentation_of_counts {cs : List Char} (hpos : 0 < (utf16Encode cs).length)
    (h : Counts (utf16Encode cs)) :
    createExternalRepresentation map (createWithCharactersNoCopy alloc (utf16Encode cs) (utf16Encode cs).length) =
      some (utf8Encode cs) := by
  have hroom := (enoughRoom_bufferSize_iff hpos h.1).mpr h
  rw [codes_utf16Encode] at hroom
  rw [createExternalRepresentation_eq hpos h.1, toUTF8_characters noFlags cs hroom]
  exact if_pos rfl

/-- Another gives nothing. -/
theorem createExternalRepresentation_of_not_counts {units : List UniChar} (hpos : 0 < units.length)
    (hread : WellFormedUtf16 units) (h : ¬ Counts units) :
    createExternalRepresentation map (createWithCharactersNoCopy alloc units units.length) = none := by
  by_cases hlen : units.length < 2 ^ 31
  · rw [createExternalRepresentation_eq hpos hlen, if_neg fun hall => h ?_]
    have hbuffer : bufferSize units ≠ 0 := by
      rw [bufferSize]
      split <;> omega
    have hall : (toUTF8Loop (!noFlags.useHFSPlusCanonical) (bufferSize units) units ⟨0, 0, []⟩).consumed = _ := hall
    exact (enoughRoom_bufferSize_iff hpos hlen).mp
      (enoughRoom_of_consumed hbuffer hread (hall.trans (Nat.zero_add _).symm))
  · -- no `SInt32` is the number of units
    have hlength : (createWithCharactersNoCopy alloc units units.length).getLength = units.length := by
      rw [createWithCharactersNoCopy, createImmutableFunnel3, if_neg fun h => hpos.ne' h.2]
      rfl
    rw [createExternalRepresentation]
    simp only [hlength]
    split
    · rfl
    · rename_i stream _
      refine if_pos fun heq => hlen ?_
      have hfits : int32 stream.numCharsProcessed < 2 ^ 31 := Int.bmod_lt (by decide)
      rw [heq] at hfits
      exact_mod_cast hfits

/-! ## The whole input -/

/-- The ASCII characters and the rest of a sequence of characters. -/
theorem exists_split (cs : List Char) :
    ∃ cs₁ cs₂, cs = cs₁ ++ cs₂ ∧ afterASCII (utf16Encode cs) = utf16Encode cs₂ ∧
      (leadingASCII (utf16Encode cs)).map UInt16.toUInt8 = utf8Encode cs₁ := by
  induction cs with
  | nil => exact ⟨[], [], rfl, rfl, rfl⟩
  | cons c cs ih =>
    by_cases hc : c.toNat < 128
    · obtain ⟨unit, hunit, hvalue, -⟩ := utf16EncodeChar_one (c := c) (by omega)
      have hbyte : String.utf8EncodeChar c = [unit.toUInt8] := by
        rw [← utf8Bytes_char, ← hvalue]
        exact (utf8Bytes_ascii (hvalue ▸ hc)).1
      have hascii : unit.toNat < 128 := hvalue ▸ hc
      obtain ⟨cs₁, cs₂, rfl, hafter, hbytes⟩ := ih
      refine ⟨c :: cs₁, cs₂, rfl, ?_, ?_⟩
      · rw [utf16Encode_cons, hunit, ← hafter, List.singleton_append, afterASCII_cons, if_pos hascii]
      · rw [utf16Encode_cons, hunit, utf8Encode_cons, hbyte, ← hbytes, List.singleton_append, leadingASCII_cons,
          if_pos hascii]
        rfl
    · obtain ⟨unit, units, hunits, hlarge⟩ : ∃ unit units, utf16EncodeChar c = unit :: units ∧ ¬ unit.toNat < 128 := by
        by_cases hone : c.toNat ≤ 0xFFFF
        · obtain ⟨unit, hunit, hvalue, -⟩ := utf16EncodeChar_one hone
          exact ⟨unit, [], hunit, hvalue ▸ hc⟩
        · obtain ⟨high, low, hunits, hhigh, -⟩ := utf16EncodeChar_two hone
          exact ⟨high, [low], hunits, fun h => absurd hhigh.1 (by omega)⟩
      refine ⟨[], c :: cs, rfl, ?_, ?_⟩
      · rw [utf16Encode_cons, hunits, List.cons_append, afterASCII_cons, if_neg hlarge]
      · rw [utf16Encode_cons, hunits, List.cons_append, leadingASCII_cons, if_neg hlarge]
        rfl

/-- The bytes that are appended after the ASCII characters. -/
def afterBytes (map : CharToUniChar) (alloc : Allocator) (units : List UniChar) : List UInt8 :=
  if units = [] then []
  else (createExternalRepresentation map (createWithCharactersNoCopy alloc units units.length)).getD []

theorem plistAppendCharacters_eq (h : (leadingASCII chars).length ≤ bufLen) (mData : List UInt8) :
    plistAppendCharacters map alloc mData chars =
      some (mData ++ (leadingASCII chars).map UInt16.toUInt8 ++ afterBytes map alloc (afterASCII chars)) := by
  have hlength : chars.length = (leadingASCII chars).length + (afterASCII chars).length := by
    rw [← List.length_append, leadingASCII_append_afterASCII]
  rw [plistAppendCharacters, flushASCII_spec h]
  simp only [drop_leadingASCII]
  rw [hlength, Nat.add_sub_cancel_left, afterBytes]
  by_cases hnil : afterASCII chars = []
  · rw [hnil, List.length_nil, Nat.add_zero, if_neg (Nat.lt_irrefl _), if_pos rfl, List.append_nil]
  · rw [if_pos (Nat.lt_add_of_pos_right (List.length_pos_iff.mpr hnil)), if_neg hnil]
    generalize createExternalRepresentation map _ = data
    cases data with
    | none => rw [Option.getD_none, List.append_nil]
    | some data => rfl

theorem plistAppendCharacters_overflow (h : bufLen < (leadingASCII chars).length) (mData : List UInt8) :
    plistAppendCharacters map alloc mData chars = none := by
  rw [plistAppendCharacters, flushASCII_overflow h]

/-- The input is appended in UTF-8 if it is well formed, and no byte is stored
past the end of the buffer. -/
structure Appends (chars : List UniChar) : Prop where
  inBuffer : ∀ map alloc mData, plistAppendCharacters map alloc mData chars ≠ none
  appended : ∀ map alloc mData cs, chars = utf16Encode cs →
    plistAppendCharacters map alloc mData chars = some (mData ++ utf8Encode cs)

end CFLite.TextPlist
