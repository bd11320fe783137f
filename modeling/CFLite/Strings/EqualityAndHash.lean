import Mathlib.Tactic.IntervalCases
import CFLite.Strings.Contents

/-!
# Equality and hash of strings

`__CFStringEqual` compares two byte buffers byte by byte, and any other pair
character by character. The hash of a string is computed by three functions,
for characters, for bytes of the eight-bit encoding and for ISO Latin 1, that
take four characters at a time, and of a long string only the first, middle and
last 32.

* `hash_eq`: a string hashes as its characters do;
* `equal_eq_true_iff`: what equality says for each pair of storages;
* `byContents_iff`: equality is that of the characters, except for two byte
  strings that differ in bytes Windows Latin 1 leaves unassigned.

The products of the hash are of type `int` and wrap; `CFHashCode` has 64 bits.
-/

namespace CFLite.Strings

variable {map : CharToUniChar}

/-! ## The code -/

abbrev CFHashCode := UInt64

/-- `HashEverythingLimit` -/
def hashEverythingLimit : Nat := 96

/-- A character times a constant as the `int` that is added to a `CFHashCode`. -/
def intProduct (character : UniChar) (factor : UInt32) : CFHashCode :=
  (character.toUInt32 * factor).toInt32.toInt64.toUInt64

/-- `HashNextFourUniChars` -/
def hashNextFourUniChars (access : Nat → UniChar) (pointer : Nat) (result : CFHashCode) : CFHashCode :=
  result * 67503105 + intProduct (access pointer) 16974593 + intProduct (access (pointer + 1)) 66049 +
    intProduct (access (pointer + 2)) 257 + intProduct (access (pointer + 3)) 1

/-- `HashNextUniChar` -/
def hashNextUniChar (access : Nat → UniChar) (pointer : Nat) (result : CFHashCode) : CFHashCode :=
  result * 257 + intProduct (access pointer) 1

/-- `while (contents < end) HashNextFourUniChars(contents)` -/
def hashFours (access : Nat → UniChar) (contents last : Nat) (result : CFHashCode) : CFHashCode :=
  if contents < last then hashFours access (contents + 4) last (hashNextFourUniChars access contents result)
  else result
  termination_by last - contents

/-- `while (contents < end) HashNextUniChar(contents)` -/
def hashOnes (access : Nat → UniChar) (contents last : Nat) (result : CFHashCode) : CFHashCode :=
  if contents < last then hashOnes access (contents + 1) last (hashNextUniChar access contents result)
  else result
  termination_by last - contents

/-- The body that the three hash functions share, `access` being how they read a
character. -/
def strHash (access : Nat → UniChar) (len actualLen : Nat) : CFHashCode :=
  let result := UInt64.ofNat actualLen
  let result :=
    if len ≤ hashEverythingLimit then
      let end4 := len / 4 * 4
      hashOnes access end4 len (hashFours access 0 end4 result)
    else
      let result := hashFours access 0 32 result
      let result := hashFours access (len / 2 - 16) (len / 2 - 16 + 32) result
      hashFours access (len - 32) len result
  result + result <<< UInt64.ofNat (actualLen % 32)

/-- `__CFStrHashCharacters` -/
def strHashCharacters (uContents : List UniChar) (len actualLen : Nat) : CFHashCode :=
  strHash (fun i => uContents.getD i 0) len actualLen

/-- `__CFStrHashEightBit` -/
def strHashEightBit (map : CharToUniChar) (cContents : List UInt8) (len : Nat) : CFHashCode :=
  strHash (fun i => map.table (cContents.getD i 0)) len len

/-- `CFStringHashISOLatin1CString` -/
def hashISOLatin1CString (bytes : List UInt8) (len : Nat) : CFHashCode :=
  strHash (fun i => (bytes.getD i 0).toUInt16) len len

/-- `CFStringHashCharacters` -/
def hashCharacters (characters : List UniChar) (len : Nat) : CFHashCode := strHashCharacters characters len len

/-- `__CFStringHash` -/
def hash (map : CharToUniChar) (str : CFString) : CFHashCode :=
  match str.contents with
  | .eightBit contents => strHashEightBit map (contents.drop str.skipAnyLengthByte) str.getLength
  | .unicode contents => strHashCharacters contents str.getLength str.getLength

/-- The loop of `__CFStringEqual` over a byte string, through an inline buffer,
and the characters of the other; `n` characters are left. -/
def equalBuffered (map : CharToUniChar) (contents : List UniChar) : (n : Nat) → (buf : InlineBuffer) → (idx : Nat) → Bool
  | 0, _, _ => true
  | n + 1, buf, idx =>
    let (character, buf) := getCharacterFromInlineBufferQuick map buf idx
    if character ≠ contents.getD idx 0 then false else equalBuffered map contents n buf (idx + 1)

/-- Its loop over two buffers of characters. -/
def equalCharacters (contents1 contents2 : List UniChar) : (n : Nat) → (idx : Nat) → Bool
  | 0, _ => true
  | n + 1, idx =>
    if contents1.getD idx 0 ≠ contents2.getD idx 0 then false else equalCharacters contents1 contents2 n (idx + 1)

/-- `__CFStringEqual` -/
def equal (map : CharToUniChar) (str1 str2 : CFString) (junk : List UniChar) : Bool :=
  let len1 := str1.getLength
  if len1 ≠ str2.getLength then false
  else
    match str1.contents, str2.contents with
    | .eightBit contents1, .eightBit contents2 =>
      (contents1.drop str1.skipAnyLengthByte).take len1 == (contents2.drop str2.skipAnyLengthByte).take len1
    | .eightBit _, .unicode contents2 => equalBuffered map contents2 len1 (initInlineBuffer str1 0 len1 junk) 0
    | .unicode contents1, .eightBit _ => equalBuffered map contents1 len1 (initInlineBuffer str2 0 len1 junk) 0
    | .unicode contents1, .unicode contents2 => equalCharacters contents1 contents2 len1 0

/-! ## The hash is that of the characters -/

theorem hashFours_congr {f g : Nat → UniChar} {n : Nat} (h : ∀ i < n, f i = g i) (contents last : Nat) (result : CFHashCode)
    (hlast : last ≤ n) (hfours : (last - contents) % 4 = 0) :
    hashFours f contents last result = hashFours g contents last result := by
  induction contents, result using hashFours.induct f last with
  | case1 contents result hlt ih =>
    rw [hashFours.eq_def f contents, hashFours.eq_def g contents, if_pos hlt, if_pos hlt]
    have hnext : hashNextFourUniChars f contents result = hashNextFourUniChars g contents result := by
      unfold hashNextFourUniChars
      rw [h _ (by omega), h _ (by omega), h _ (by omega), h _ (by omega)]
    rw [← hnext]
    exact ih (by omega)
  | case2 contents result hle =>
    rw [hashFours.eq_def f contents, hashFours.eq_def g contents, if_neg hle, if_neg hle]

theorem hashOnes_congr {f g : Nat → UniChar} {n : Nat} (h : ∀ i < n, f i = g i) (contents last : Nat) (result : CFHashCode)
    (hlast : last ≤ n) : hashOnes f contents last result = hashOnes g contents last result := by
  induction contents, result using hashOnes.induct f last with
  | case1 contents result hlt ih =>
    rw [hashOnes.eq_def f contents, hashOnes.eq_def g contents, if_pos hlt, if_pos hlt]
    have hnext : hashNextUniChar f contents result = hashNextUniChar g contents result := by
      unfold hashNextUniChar
      rw [h _ (by omega)]
    rw [← hnext]
    exact ih
  | case2 contents result hle =>
    rw [hashOnes.eq_def f contents, hashOnes.eq_def g contents, if_neg hle, if_neg hle]

/-- Only the first `len` characters matter to the hash. -/
theorem strHash_congr {f g : Nat → UniChar} {len : Nat} (h : ∀ i < len, f i = g i) (actualLen : Nat) :
    strHash f len actualLen = strHash g len actualLen := by
  unfold strHash
  by_cases hlen : len ≤ hashEverythingLimit
  · simp only [if_pos hlen]
    rw [hashFours_congr h _ _ _ (by omega) (by omega), hashOnes_congr h _ _ _ (by omega)]
  · have hlong : 96 < len := by simpa [hashEverythingLimit] using hlen
    simp only [if_neg hlen]
    rw [hashFours_congr h _ _ _ (by omega) (by omega), hashFours_congr h _ _ _ (by omega) (by omega),
      hashFours_congr h _ _ _ (by omega) (by omega)]

/-- A string hashes as its characters do. -/
theorem hash_eq {str : CFString} (hs : str.WellFormed) :
    hash map str = hashCharacters (str.characters map) (str.characters map).length := by
  have holds := hs.holds
  rw [hs.length_characters map]
  unfold hash hashCharacters strHashCharacters
  cases hc : str.contents with
  | eightBit contents =>
    simp only [hc] at holds
    refine strHash_congr (fun i hi => ?_) _
    rw [CFString.characters_eightBit hc]
    simp only [List.getD_eq_getElem?_getD, List.getElem?_map, List.getElem?_take_of_lt hi]
    rw [List.getElem?_eq_getElem (by rw [List.length_drop]; omega)]
    rfl
  | unicode contents =>
    refine strHash_congr (fun i hi => ?_) _
    rw [CFString.characters_unicode hc]
    simp only [List.getD_eq_getElem?_getD, List.getElem?_take_of_lt hi]

/-- The hash of ISO Latin 1 bytes is that of their characters. -/
theorem hashISOLatin1CString_eq (bytes : List UInt8) :
    hashISOLatin1CString bytes bytes.length = hashCharacters (bytes.map UInt8.toUInt16) bytes.length := by
  refine strHash_congr (fun i hi => ?_) _
  simp only [List.getD_eq_getElem?_getD, List.getElem?_map, List.getElem?_eq_getElem hi, Option.map_some,
    Option.getD_some]

/-! ## Equality of each pair of storages -/

/-- The bytes of the characters of a string stored in bytes. -/
def CFString.eightBitBytes (str : CFString) : Option (List UInt8) :=
  match str.contents with
  | .eightBit bytes => some ((bytes.drop str.skipAnyLengthByte).take str.getLength)
  | .unicode _ => none

theorem CFString.characters_of_bytes {str : CFString} {bytes : List UInt8} (h : str.eightBitBytes = some bytes) :
    str.characters map = bytes.map map.table := by
  unfold CFString.eightBitBytes at h
  cases hc : str.contents with
  | eightBit contents =>
    simp only [hc, Option.some.injEq] at h
    rw [CFString.characters_eightBit hc, h]
  | unicode contents => simp only [hc, reduceCtorEq] at h

theorem equalBuffered_eq_true_iff (contents : List UniChar) {n : Nat} {buf : InlineBuffer} (hb : buf.Buffers map)
    (hl : buf.location = 0) {idx : Nat} (hn : idx + n ≤ buf.length) :
    equalBuffered map contents n buf idx = true ↔
      ∀ i < n, (buf.theString.characters map).getD (idx + i) 0 = contents.getD (idx + i) 0 := by
  induction n generalizing buf idx with
  | zero => simp [equalBuffered]
  | succ n ih =>
    obtain ⟨buf', heq, hb', hs', hl', hlen'⟩ := getCharacterFromInlineBufferQuick_spec hb (by omega : idx < buf.length)
    simp only [equalBuffered, heq, hl, Nat.zero_add]
    rw [Nat.forall_lt_succ_left, Nat.add_zero]
    split
    · rename_i hne
      exact ⟨nofun, fun h => absurd h.1 hne⟩
    · rename_i he
      rw [ne_eq, not_not] at he
      rw [ih hb' (hl'.trans hl) (by omega), hs']
      simp only [Nat.add_assoc, Nat.add_comm 1]
      exact ⟨fun h => ⟨he, h⟩, And.right⟩

theorem equalCharacters_eq_true_iff (contents1 contents2 : List UniChar) (n idx : Nat) :
    equalCharacters contents1 contents2 n idx = true ↔
      ∀ i < n, contents1.getD (idx + i) 0 = contents2.getD (idx + i) 0 := by
  induction n generalizing idx with
  | zero => simp [equalCharacters]
  | succ n ih =>
    rw [equalCharacters, Nat.forall_lt_succ_left, Nat.add_zero]
    split
    · rename_i hne
      exact ⟨nofun, fun h => absurd h.1 hne⟩
    · rename_i he
      rw [ne_eq, not_not] at he
      rw [ih]
      simp only [Nat.add_assoc, Nat.add_comm 1]
      exact ⟨fun h => ⟨he, h⟩, And.right⟩

/-- Two lists that agree below their length are equal. -/
theorem eq_of_getD {a b : List UniChar} {n : Nat} (ha : a.length = n) (hb : b.length = n) :
    a = b ↔ ∀ i < n, a.getD i 0 = b.getD i 0 := by
  refine ⟨fun h i _ => by rw [h], fun h => List.ext_getElem (ha.trans hb.symm) fun i hia hib => ?_⟩
  simpa only [List.getD_eq_getElem _ _ hia, List.getD_eq_getElem _ _ hib] using h i (ha ▸ hia)

theorem CFString.getD_characters {str : CFString} {units : List UniChar} (h : str.contents = .unicode units)
    {i : Nat} (hi : i < str.getLength) : (str.characters map).getD i 0 = units.getD i 0 := by
  rw [CFString.characters_unicode h, List.getD_eq_getElem?_getD, List.getElem?_take_of_lt hi,
    ← List.getD_eq_getElem?_getD]

/-- The comparison of a byte string with the characters of another string. -/
theorem equalBuffered_init {a b : CFString} {units : List UniChar} (ha : a.WellFormed) (hb : b.WellFormed)
    (hab : a.getLength = b.getLength) (hc : b.contents = .unicode units) (junk : List UniChar) :
    equalBuffered map units a.getLength (initInlineBuffer a 0 a.getLength junk) 0 = true ↔
      a.characters map = b.characters map := by
  have hbuf := initInlineBuffer_buffers map a (Nat.le_of_eq (Nat.zero_add a.getLength)) junk
  rw [equalBuffered_eq_true_iff (n := a.getLength) units hbuf rfl (Nat.le_of_eq (Nat.zero_add _)),
    eq_of_getD (ha.length_characters map) ((hb.length_characters map).trans hab.symm)]
  refine forall₂_congr fun i hi => ?_
  rw [Nat.zero_add, CFString.getD_characters hc (by omega)]
  rfl

/-- Two byte strings are equal when their bytes are, two other strings when
their characters are. -/
theorem equal_eq_true_iff {s t : CFString} (hs : s.WellFormed) (ht : t.WellFormed) (junk : List UniChar) :
    equal map s t junk = true ↔
      match s.eightBitBytes, t.eightBitBytes with
      | some bytes1, some bytes2 => bytes1 = bytes2
      | _, _ => s.characters map = t.characters map := by
  have hls := hs.length_characters map
  have hlt := ht.length_characters map
  unfold equal
  by_cases hlen : s.getLength = t.getLength
  · rw [if_neg (not_not.mpr hlen)]
    cases hcs : s.contents with
    | eightBit bytes1 =>
      cases hct : t.contents with
      | eightBit bytes2 => simp only [CFString.eightBitBytes, hcs, hct, hlen, beq_iff_eq]
      | unicode units2 =>
        simp only [CFString.eightBitBytes, hcs, hct]
        exact equalBuffered_init hs ht hlen hct junk
    | unicode units1 =>
      cases hct : t.contents with
      | eightBit bytes2 =>
        simp only [CFString.eightBitBytes, hcs, hct, hlen]
        exact (equalBuffered_init ht hs hlen.symm hcs junk).trans eq_comm
      | unicode units2 =>
        simp only [CFString.eightBitBytes, hcs, hct]
        rw [equalCharacters_eq_true_iff, eq_of_getD hls (hlt.trans hlen.symm)]
        refine forall₂_congr fun i hi => ?_
        rw [Nat.zero_add, CFString.getD_characters hcs hi, CFString.getD_characters hct (by omega)]
  · rw [if_pos hlen]
    have hne : s.characters map ≠ t.characters map := fun h => hlen (hls ▸ hlt ▸ congrArg List.length h)
    split
    · rename_i bytes1 bytes2 h1 h2
      refine ⟨nofun, fun h => absurd ?_ hne⟩
      rw [CFString.characters_of_bytes h1, CFString.characters_of_bytes h2, h]
    · simpa using hne

/-! ## Equality by contents -/

/-- Two byte strings that differ, but only in bytes Windows Latin 1 leaves
unassigned, while that is the eight-bit encoding. -/
def DifferUnassigned (map : CharToUniChar) (s t : CFString) : Prop :=
  map.func = some .winLatin1 ∧ ∃ bytes1 bytes2, s.eightBitBytes = some bytes1 ∧ t.eightBitBytes = some bytes2 ∧
    bytes1 ≠ bytes2 ∧ List.Forall₂ (fun a b => a = b ∨ (a ∈ unassigned1252 ∧ b ∈ unassigned1252)) bytes1 bytes2

/-- Equality and hash of two strings are those of their characters. -/
structure ByContents (map : CharToUniChar) (s t : CFString) : Prop where
  equal : ∀ junk, Strings.equal map s t junk = true ↔ s.characters map = t.characters map
  hash : ∀ str ∈ [s, t], Strings.hash map str = hashCharacters (str.characters map) (str.characters map).length
  latin1 : ∀ str ∈ [s, t], ∀ bytes : List UInt8, str.characters map = bytes.map UInt8.toUInt16 →
    Strings.hash map str = hashISOLatin1CString bytes bytes.length
  equal_hash : ∀ junk, Strings.equal map s t junk = true → Strings.hash map s = Strings.hash map t

theorem map_table_eq_iff {target : DeploymentTarget} (hm : map.Reachable target) (bytes1 bytes2 : List UInt8) :
    bytes1.map map.table = bytes2.map map.table ↔
      List.Forall₂ (fun a b => a = b ∨ (map.func = some .winLatin1 ∧ a ∈ unassigned1252 ∧ b ∈ unassigned1252))
        bytes1 bytes2 := by
  rw [← List.forall₂_eq_eq_eq, List.forall₂_map_left_iff, List.forall₂_map_right_iff]
  simp only [table_eq_iff hm]

theorem equal_implies_characters {s t : CFString} (hs : s.WellFormed) (ht : t.WellFormed) {junk : List UniChar}
    (h : equal map s t junk = true) : s.characters map = t.characters map := by
  rw [equal_eq_true_iff hs ht] at h
  split at h
  · rename_i bytes1 bytes2 h1 h2
    rw [CFString.characters_of_bytes h1, CFString.characters_of_bytes h2, h]
  · exact h

/-- Equality and hash are those of the characters, except for two byte strings
that differ only in bytes Windows Latin 1 leaves unassigned. -/
theorem byContents_iff {target : DeploymentTarget} (hm : map.Reachable target) (s t : CFStringRef) :
    ByContents map s t ↔ ¬ DifferUnassigned map s t := by
  obtain ⟨s, hs⟩ := s
  obtain ⟨t, ht⟩ := t
  constructor
  · rintro ⟨heq, -⟩ ⟨hw, bytes1, bytes2, h1, h2, hne, hun⟩
    have hiff := heq []
    rw [equal_eq_true_iff hs ht, CFString.characters_of_bytes h1, CFString.characters_of_bytes h2,
      map_table_eq_iff hm] at hiff
    simp only [h1, h2, hw, true_and] at hiff
    exact hne (hiff.mpr hun)
  · intro hdiff
    have hhash : ∀ str ∈ [s, t], hash map str = hashCharacters (str.characters map) (str.characters map).length :=
      fun str hstr => by
        rcases List.mem_pair.mp hstr with rfl | rfl
        · exact hash_eq hs
        · exact hash_eq ht
    refine ⟨fun junk => ⟨equal_implies_characters hs ht, fun h => ?_⟩, hhash, fun str hstr bytes hb => ?_,
      fun junk h => ?_⟩
    · rw [equal_eq_true_iff hs ht]
      split
      · rename_i bytes1 bytes2 h1 h2
        rw [CFString.characters_of_bytes h1, CFString.characters_of_bytes h2, map_table_eq_iff hm] at h
        by_contra hne
        by_cases hw : map.func = some .winLatin1
        · simp only [hw, true_and] at h
          exact hdiff ⟨hw, bytes1, bytes2, h1, h2, hne, h⟩
        · simp only [hw, false_and, or_false, List.forall₂_eq_eq_eq] at h
          exact hne h
      · exact h
    · rw [hhash str hstr, hb, List.length_map, hashISOLatin1CString_eq]
    · rw [hhash s (by simp), hhash t (by simp), equal_implies_characters hs ht h]

/-- On Windows the byte 0x81 is equal to the character U+FFFD it stands for. -/
theorem byContents_replacement :
    ByContents (getSystemEncoding .windows .initial) (inlineEightBit [0x81]) (inlineUnicode [0xFFFD]) :=
  (byContents_iff (.getSystemEncoding .initial) ⟨_, inlineEightBit_wellFormed (by decide)⟩
    ⟨_, inlineUnicode_wellFormed _⟩).mpr (by rintro ⟨-, _, _, -, h, -⟩; cases h)

/-- On Windows the byte strings 0x81 and 0x8D have the same characters and the
same hash, and are not equal. -/
theorem unassigned_bytes_not_equal :
    ¬ (∀ target map, CharToUniChar.Reachable target map → ∀ s t : CFStringRef, ByContents map s t) := by
  intro h
  have := (h .windows _ (.getSystemEncoding .initial) ⟨inlineEightBit [0x81], inlineEightBit_wellFormed (by decide)⟩
    ⟨inlineEightBit [0x8D], inlineEightBit_wellFormed (by decide)⟩).equal []
  exact absurd (this.mpr (by decide)) (by decide)

end CFLite.Strings
