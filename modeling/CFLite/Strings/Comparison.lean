import CFLite.Base.Comparison
import CFLite.Base.Number
import CFLite.Framework.Lexicographic
import CFLite.Strings.ByteStreamsEncode
import CFLite.Strings.EqualityAndHash
import CFLite.Strings.Folding

/-!
# The comparison of strings

`CFStringCompareWithOptionsAndLocale` without a locale and with no option, or only
the one that ignores case. Bytes are compared with bytes and units with units;
strings of both kinds are read through inline buffers, and the characters that
differ are folded. What an inline buffer gives does not depend on what was read
through it before (`ReadsRange.get`).

* `compareLoop_spec`: the loop over characters gives the lexicographic order;
* `compareWithOptions_iff`: so do all routes, except that the lengths of two byte
  strings are subtracted in an `int`.
-/

namespace CFLite.Strings

open Framework

/-! ## The code -/

/-- `((0 == cmpResult) ? kCFCompareEqualTo : …)` -/
def resultOf (cmpResult : Int) : CFComparisonResult :=
  if cmpResult = 0 then .eq else if cmpResult < 0 then .lt else .gt

/-- `memcmp` -/
def memcmp : List UInt8 → List UInt8 → Int
  | byte1 :: bytes1, byte2 :: bytes2 => if byte1 = byte2 then memcmp bytes1 bytes2 else (byte1.toNat : Int) - byte2.toNat
  | _, _ => 0

/-- The loop over two byte strings that ignores case: the result, or the index
where it ends, at the limit or at a character past ASCII. -/
def compareEightBit (str1Bytes str2Bytes : List UInt8) : (n : Nat) → (str1Index : Nat) → CFComparisonResult ⊕ Nat
  | 0, str1Index => .inr str1Index
  | n + 1, str1Index =>
    let str1Char := (str1Bytes.getD str1Index 0).toNat
    let str2Char := (str2Bytes.getD str1Index 0).toNat
    if str1Char = str2Char then compareEightBit str1Bytes str2Bytes n (str1Index + 1)
    else if str1Char < 0x80 ∧ str2Char < 0x80 then
      if smallLetter str1Char ≠ smallLetter str2Char then
        .inl (if smallLetter str1Char < smallLetter str2Char then .lt else .gt)
      else compareEightBit str1Bytes str2Bytes n (str1Index + 1)
    else .inr str1Index

/-- The loop over two buffers of characters: the difference at the first that
differ. -/
def compareUnicode (str1 str2 : List UniChar) : (n : Nat) → (idx : Nat) → Int
  | 0, _ => 0
  | n + 1, idx =>
    let cmpResult : Int := ((str1.getD idx 0).toNat : Int) - (str2.getD idx 0).toNat
    if cmpResult = 0 then compareUnicode str1 str2 n (idx + 1) else cmpResult

/-- Where the loop over characters is in one of the strings: `strBuf` up to
`strBufLen` holds the characters the one at `index` was folded to. -/
structure Side where
  index : Nat
  strBuf : List Nat
  strBufIndex : Nat
  usedLen : Nat

/-- The options with only `kCFCompareCaseInsensitive`, or none. -/
def caseFlags (caseInsensitive : Bool) : CompareFlags where
  caseInsensitive := caseInsensitive
  backwards := false
  anchored := false
  nonliteral := false
  diacriticInsensitive := false
  widthInsensitive := false
  ignoreNonAlphanumeric := false

section Loop

variable (tables : UnicodeTables) (caseInsensitive : Bool)

/-- The next character of a string. -/
def Side.read (access : Nat → UniChar) (side : Side) : Nat × Side :=
  if side.strBuf = [] then
    let character := (access side.index).toNat
    (if caseInsensitive then smallLetter character else character, { side with usedLen := 1 })
  else (side.strBuf.getD side.strBufIndex 0, { side with strBufIndex := side.strBufIndex + 1 })

/-- A high surrogate joined with the low one after it. -/
def Side.join (access : Nat → UniChar) (character : Nat) (side : Side) : Nat × Side :=
  let otherChar := (access (side.index + 1)).toNat
  if IsHighSurrogate character ∧ IsLowSurrogate otherChar then
    (longCharacterForSurrogatePair character otherChar, { side with usedLen := 2 })
  else (character, side)

/-- The character folded, where it is not from `strBuf`. -/
def Side.fold (access : Nat → UniChar) (length character : Nat) (side : Side) : Nat × Side :=
  let (strBuf, usedLen) := foldCharacterClusterAtIndex tables (caseFlags caseInsensitive) none
    (fun k => access (side.index + k)) (length - side.index) character
  match strBuf with
  | [] => (character, side)
  | folded :: _ => (folded, { side with strBuf, strBufIndex := 1, usedLen })

/-- The end of a round. -/
def Side.advance (side : Side) : Side :=
  let side := if side.strBuf ≠ [] ∧ side.strBufIndex = side.strBuf.length then { side with strBuf := [] } else side
  if side.strBuf = [] then { side with index := side.index + side.usedLen } else side

/-- `(str1Char < str2Char) ? kCFCompareLessThan : kCFCompareGreaterThan` -/
def orderOf (str1Char str2Char : Nat) : CFComparisonResult := if str1Char < str2Char then .lt else .gt

/-- How many characters two buffers have in common. -/
def commonLength : List Nat → List Nat → Nat
  | a :: as, b :: bs => if a = b then commonLength as bs + 1 else 0
  | _, _ => 0

variable (access1 access2 : Nat → UniChar) (length1 length2 : Nat)

/-- The folding of two characters that differ: the result, or the two sides where
they fold to the same. -/
def compareFolded (str1Char str2Char : Nat) (side1 side2 : Side) : CFComparisonResult ⊕ (Side × Side) :=
  let (str1Char, side1) :=
    if side1.strBuf = [] then side1.fold tables caseInsensitive access1 length1 str1Char else (str1Char, side1)
  if side1.strBuf = [] ∧ side2.strBuf ≠ [] then .inl (orderOf str1Char str2Char)
  else if side2.strBuf = [] ∧ (side1.strBuf = [] ∨ str1Char ≠ str2Char) then
    let (str2Char, side2) := side2.fold tables caseInsensitive access2 length2 str2Char
    if side2.strBuf = [] ∨ str1Char ≠ str2Char then .inl (orderOf str1Char str2Char) else .inr (side1, side2)
  else .inr (side1, side2)

/-- What is left of two buffers, compared. -/
def compareBuffers (side1 side2 : Side) : CFComparisonResult ⊕ (Side × Side) :=
  if side1.strBuf ≠ [] ∧ side2.strBuf ≠ [] then
    let common := commonLength (side1.strBuf.drop side1.strBufIndex) (side2.strBuf.drop side2.strBufIndex)
    let strBuf1Index := side1.strBufIndex + common
    let strBuf2Index := side2.strBufIndex + common
    if strBuf1Index < side1.strBuf.length ∧ strBuf2Index < side2.strBuf.length then
      .inl (orderOf (side1.strBuf.getD strBuf1Index 0) (side2.strBuf.getD strBuf2Index 0))
    else .inr ({ side1 with strBufIndex := strBuf1Index }, { side2 with strBufIndex := strBuf2Index })
  else .inr (side1, side2)

/-- A round of the loop over characters: the result, or the sides at its end. -/
def compareStep (side1 side2 : Side) : CFComparisonResult ⊕ (Side × Side) :=
  let (str1Char, side1) := side1.read caseInsensitive access1
  let (str2Char, side2) := side2.read caseInsensitive access2
  if str1Char = str2Char then .inr (side1.advance, side2.advance)
  else if caseInsensitive = false then .inl (orderOf str1Char str2Char)
  else
    let (str1Char, side1) := side1.join access1 str1Char
    let (str2Char, side2) := side2.join access2 str2Char
    let folded :=
      if str1Char ≠ str2Char then
        compareFolded tables caseInsensitive access1 access2 length1 length2 str1Char str2Char side1 side2
      else .inr (side1, side2)
    match folded with
    | .inl result => .inl result
    | .inr (side1, side2) =>
      match compareBuffers side1 side2 with
      | .inl result => .inl result
      | .inr (side1, side2) => .inr (side1.advance, side2.advance)

/-- The loop over characters, none where the rounds do not suffice. -/
def compareLoop : (rounds : Nat) → Side → Side → Option CFComparisonResult
  | 0, _, _ => none
  | rounds + 1, side1, side2 =>
    if side1.index < length1 ∧ side2.index < length2 then
      match compareStep tables caseInsensitive access1 access2 length1 length2 side1 side2 with
      | .inl result => some result
      | .inr (side1, side2) => compareLoop rounds side1 side2
    else some (if side1.index < length1 then .gt else if side2.index < length2 then .lt else .eq)

end Loop

/-- What is read through an inline buffer at an index. -/
def InlineBuffer.get (map : CharToUniChar) (buf : InlineBuffer) (idx : Nat) : UniChar :=
  (getCharacterFromInlineBuffer map buf idx).1

/-- `CFStringCompareWithOptionsAndLocale`, without a locale and with the option
`kCFCompareCaseInsensitive` or none. The eight-bit encoding is none of the cases
that go through `strncasecmp_l`. -/
def compareWithOptions (tables : UnicodeTables) (map : CharToUniChar) (string string2 : CFString) (location length : Nat)
    (caseInsensitive : Bool) (junk1 junk2 : List UniChar) (rounds : Nat) : Option CFComparisonResult :=
  let str2Len := string2.getLength
  let compareCharacters (index : Nat) : Option CFComparisonResult :=
    compareLoop tables caseInsensitive ((initInlineBuffer string location length junk1).get map)
      ((initInlineBuffer string2 0 str2Len junk2).get map) length str2Len rounds ⟨index, [], 0, 0⟩ ⟨index, [], 0, 0⟩
  match string.getCStringPtr, string2.getCStringPtr with
  | some str1Bytes, some str2Bytes =>
    let limitLength := min length str2Len
    if caseInsensitive then
      match compareEightBit (str1Bytes.drop location) str2Bytes limitLength 0 with
      | .inl result => some result
      | .inr str1Index =>
        if str1Index = limitLength then some (resultOf (int32 ((length : Int) - str2Len)))
        else compareCharacters str1Index
    else
      let cmpResult := memcmp ((str1Bytes.drop location).take limitLength) (str2Bytes.take limitLength)
      some (resultOf (if cmpResult = 0 then int32 ((length : Int) - str2Len) else cmpResult))
  | none, none =>
    if caseInsensitive then compareCharacters 0
    else
      match string.getCharactersPtr, string2.getCharactersPtr with
      | some str1, some str2 =>
        let cmpResult := compareUnicode (str1.drop location) str2 (min length str2Len) 0
        some (resultOf (if cmpResult = 0 then (length : Int) - str2Len else cmpResult))
      | _, _ => compareCharacters 0
  | _, _ => compareCharacters 0

/-! ## The order by keys -/

/-- What a unit is compared by. -/
def unitKey (caseInsensitive : Bool) (unit : UniChar) : Nat :=
  if caseInsensitive then smallLetter unit.toNat else unit.toNat

/-- What the units of a string are compared by. -/
def keys (caseInsensitive : Bool) (units : List UniChar) : List Nat := units.map (unitKey caseInsensitive)

theorem resultOf_sub (a b : Nat) : resultOf ((a : Int) - b) = if a < b then .lt else if b < a then .gt else .eq := by
  unfold resultOf
  rcases Nat.lt_trichotomy a b with hlt | heq | hgt
  · rw [if_neg (by omega), if_pos (by omega), if_pos hlt]
  · rw [if_pos (by omega), if_neg (by omega), if_neg (by omega)]
  · rw [if_neg (by omega), if_neg (by omega), if_neg (by omega), if_pos hgt]

/-! ## The loops over bytes and over units -/

/-- `memcmp` of as many bytes. -/
theorem memcmp_spec {bytes1 bytes2 : List UInt8} (hlen : bytes1.length = bytes2.length) :
    (memcmp bytes1 bytes2 = 0 ↔ bytes1 = bytes2) ∧
      resultOf (memcmp bytes1 bytes2) = lexCompare (bytes1.map UInt8.toNat) (bytes2.map UInt8.toNat) := by
  induction bytes1 generalizing bytes2 with
  | nil =>
    obtain rfl := List.length_eq_zero_iff.mp hlen.symm
    exact ⟨Iff.intro (fun _ => rfl) fun _ => rfl, rfl⟩
  | cons byte1 bytes1 ih =>
    cases bytes2 with
    | nil => cases hlen
    | cons byte2 bytes2 =>
      rw [memcmp, List.map_cons, List.map_cons]
      by_cases heq : byte1 = byte2
      · subst heq
        rw [if_pos rfl, lexCompare_cons_self, List.cons.injEq, and_iff_right rfl]
        exact ih (Nat.succ.inj hlen)
      · have hne : byte1.toNat ≠ byte2.toNat := fun h => heq (UInt8.toNat_inj.mp h)
        rw [if_neg heq, lexCompare_cons_of_ne hne, resultOf_sub, List.cons.injEq]
        refine ⟨⟨fun h => absurd h (by omega), fun h => absurd h.1 heq⟩, ?_⟩
        split
        · rfl
        · rw [if_pos (by omega)]

/-- The element at an index and what comes after it. -/
theorem take_drop_succ {α : Type} {l : List α} {i : Nat} (h : i < l.length) (n : Nat) (d : α) :
    (l.drop i).take (n + 1) = l.getD i d :: (l.drop (i + 1)).take n := by
  rw [← List.getElem_cons_drop h, List.take_succ_cons, List.getD_eq_getElem _ _ h]

/-- The loop over bytes that ignores case, where they are ASCII. -/
theorem compareEightBit_spec {str1Bytes str2Bytes : List UInt8} {n str1Index : Nat}
    (h1 : str1Index + n ≤ str1Bytes.length) (h2 : str1Index + n ≤ str2Bytes.length)
    (hascii1 : ∀ byte ∈ (str1Bytes.drop str1Index).take n, byte < 0x80)
    (hascii2 : ∀ byte ∈ (str2Bytes.drop str1Index).take n, byte < 0x80) :
    let keys1 := ((str1Bytes.drop str1Index).take n).map fun byte => smallLetter byte.toNat
    let keys2 := ((str2Bytes.drop str1Index).take n).map fun byte => smallLetter byte.toNat
    (keys1 = keys2 → compareEightBit str1Bytes str2Bytes n str1Index = .inr (str1Index + n)) ∧
      (keys1 ≠ keys2 → compareEightBit str1Bytes str2Bytes n str1Index = .inl (lexCompare keys1 keys2)) := by
  induction n generalizing str1Index with
  | zero => exact ⟨fun _ => rfl, fun h => absurd rfl h⟩
  | succ n ih =>
    rw [take_drop_succ (by omega) n 0, List.forall_mem_cons] at hascii1 hascii2
    have ih := @ih (str1Index + 1) (by omega) (by omega) hascii1.2 hascii2.2
    simp only [take_drop_succ (show str1Index < str1Bytes.length by omega) n 0,
      take_drop_succ (show str1Index < str2Bytes.length by omega) n 0, List.map_cons] at ih ⊢
    have hascii : (str1Bytes.getD str1Index 0).toNat < 0x80 ∧ (str2Bytes.getD str1Index 0).toNat < 0x80 :=
      ⟨UInt8.lt_iff_toNat_lt.mp hascii1.1, UInt8.lt_iff_toNat_lt.mp hascii2.1⟩
    rw [compareEightBit]
    by_cases hkey : smallLetter (str1Bytes.getD str1Index 0).toNat = smallLetter (str2Bytes.getD str1Index 0).toNat
    · have hnext : str1Index + (n + 1) = str1Index + 1 + n := by omega
      simp only [hkey, ne_eq, not_true_eq_false, if_false, if_pos hascii, ite_self, lexCompare_cons_self, List.cons.injEq,
        true_and, hnext]
      exact ih
    · have hne : (str1Bytes.getD str1Index 0).toNat ≠ (str2Bytes.getD str1Index 0).toNat := fun h => hkey (h ▸ rfl)
      rw [if_neg hne, if_pos hascii, if_pos hkey, lexCompare_cons_of_ne hkey]
      exact ⟨fun h => absurd (List.cons.inj h).1 hkey, fun _ => rfl⟩

/-- The loop over two buffers of characters. -/
theorem compareUnicode_spec {str1 str2 : List UniChar} {n idx : Nat} (h1 : idx + n ≤ str1.length)
    (h2 : idx + n ≤ str2.length) :
    let keys1 := ((str1.drop idx).take n).map UInt16.toNat
    let keys2 := ((str2.drop idx).take n).map UInt16.toNat
    (compareUnicode str1 str2 n idx = 0 ↔ keys1 = keys2) ∧
      resultOf (compareUnicode str1 str2 n idx) = lexCompare keys1 keys2 := by
  induction n generalizing idx with
  | zero =>
    exact ⟨Iff.intro (fun _ => rfl) fun _ => rfl, rfl⟩
  | succ n ih =>
    have ih := @ih (idx + 1) (by omega) (by omega)
    simp only [take_drop_succ (show idx < str1.length by omega) n 0,
      take_drop_succ (show idx < str2.length by omega) n 0, List.map_cons] at ih ⊢
    rw [compareUnicode]
    by_cases hkey : (str1.getD idx 0).toNat = (str2.getD idx 0).toNat
    · rw [if_pos (by omega), hkey, lexCompare_cons_self, List.cons.injEq, and_iff_right rfl]
      exact ih
    · rw [if_neg (by omega), resultOf_sub, lexCompare_cons_of_ne hkey]
      refine ⟨⟨fun h => absurd h (by omega), fun h => absurd (List.cons.inj h).1 hkey⟩, ?_⟩
      split
      · rfl
      · rw [if_pos (by omega)]

/-! ## The loop over characters -/

section Loop

variable {tables : UnicodeTables} {caseInsensitive : Bool} {access1 access2 : Nat → UniChar} {length1 length2 : Nat}

theorem Side.read_start (caseInsensitive : Bool) (access : Nat → UniChar) (index strBufIndex usedLen : Nat) :
    Side.read caseInsensitive access ⟨index, [], strBufIndex, usedLen⟩ =
      (unitKey caseInsensitive (access index), ⟨index, [], strBufIndex, 1⟩) := rfl

theorem Side.join_ascii (access : Nat → UniChar) {character : Nat} (h : character < 0x80) (side : Side) :
    side.join access character = (character, side) := by
  rw [Side.join]
  exact if_neg fun hs => by have := hs.1.1; omega

theorem smallLetter_ascii {character : Nat} (h : character < 0x80) : smallLetter character < 0x80 := by
  have hZ : 'Z'.toNat = 0x5A := rfl
  have ha : 'a'.toNat - 'A'.toNat = 0x20 := rfl
  unfold smallLetter
  split <;> omega

/-- A letter that the round has made small is not folded. -/
theorem Side.fold_smallLetter (tables : UnicodeTables) (access : Nat → UniChar) (length : Nat) {character : Nat} (h : character < 0x80) (side : Side) :
    side.fold tables true access length (smallLetter character) = (smallLetter character, side) := by
  have hfold := @foldCharacterClusterAtIndex_smallLetter tables (caseFlags true) rfl rfl
    (fun k => access (side.index + k)) (length - side.index) _ h
  rw [Side.fold]
  generalize foldCharacterClusterAtIndex tables (caseFlags true) none (fun k => access (side.index + k))
    (length - side.index) (smallLetter character) = folded at hfold
  obtain ⟨filled, consumed⟩ := folded
  simp only at hfold
  subst hfold
  rfl

/-- A round between characters: the same key moves both sides on, and different
keys decide. -/
theorem compareStep_spec {index : Nat} (strBufIndex1 usedLen1 strBufIndex2 usedLen2 : Nat)
    (hascii : caseInsensitive = true → (access1 index).toNat < 0x80 ∧ (access2 index).toNat < 0x80) :
    compareStep tables caseInsensitive access1 access2 length1 length2 ⟨index, [], strBufIndex1, usedLen1⟩
        ⟨index, [], strBufIndex2, usedLen2⟩ =
      if unitKey caseInsensitive (access1 index) = unitKey caseInsensitive (access2 index) then
        .inr (⟨index + 1, [], strBufIndex1, 1⟩, ⟨index + 1, [], strBufIndex2, 1⟩)
      else .inl (orderOf (unitKey caseInsensitive (access1 index)) (unitKey caseInsensitive (access2 index))) := by
  rw [compareStep, Side.read_start, Side.read_start]
  simp only
  split
  · rfl
  · rename_i hkey
    cases caseInsensitive with
    | false => rfl
    | true =>
      obtain ⟨h1, h2⟩ := hascii rfl
      have hjoin1 := Side.join_ascii access1 (smallLetter_ascii h1) ⟨index, [], strBufIndex1, 1⟩
      have hjoin2 := Side.join_ascii access2 (smallLetter_ascii h2) ⟨index, [], strBufIndex2, 1⟩
      have hfold1 := Side.fold_smallLetter tables access1 length1 h1 ⟨index, [], strBufIndex1, 1⟩
      have hfold2 := Side.fold_smallLetter tables access2 length2 h2 ⟨index, [], strBufIndex2, 1⟩
      simp only [unitKey, if_true] at hkey ⊢
      simp only [hjoin1, hjoin2, hkey, ne_eq, not_false_eq_true, if_true, compareFolded, hfold1, hfold2,
        not_true_eq_false, and_false, true_or, and_self, if_false, Bool.true_eq_false]

/-- The loop gives the order of what is left of the two strings. -/
theorem compareLoop_spec {units1 units2 : List UniChar} (hlen1 : units1.length = length1) (hlen2 : units2.length = length2)
    (haccess1 : ∀ i < length1, access1 i = units1.getD i 0) (haccess2 : ∀ i < length2, access2 i = units2.getD i 0)
    (hascii : caseInsensitive = true → (∀ unit ∈ units1, unit.toNat < 0x80) ∧ ∀ unit ∈ units2, unit.toNat < 0x80)
    {rounds index : Nat} (hrounds : min length1 length2 < index + rounds) (strBufIndex1 usedLen1 strBufIndex2 usedLen2 : Nat)
    (hindex : index ≤ min length1 length2) :
    compareLoop tables caseInsensitive access1 access2 length1 length2 rounds ⟨index, [], strBufIndex1, usedLen1⟩
        ⟨index, [], strBufIndex2, usedLen2⟩ =
      some (lexCompare ((keys caseInsensitive units1).drop index) ((keys caseInsensitive units2).drop index)) := by
  induction rounds generalizing index strBufIndex1 usedLen1 strBufIndex2 usedLen2 with
  | zero => omega
  | succ rounds ih =>
    have hkeys1 : (keys caseInsensitive units1).length = length1 := (List.length_map ..).trans hlen1
    have hkeys2 : (keys caseInsensitive units2).length = length2 := (List.length_map ..).trans hlen2
    rw [compareLoop]
    by_cases hin : index < length1 ∧ index < length2
    · have hunit1 : access1 index = units1.getD index 0 := haccess1 index hin.1
      have hunit2 : access2 index = units2.getD index 0 := haccess2 index hin.2
      have hmem1 : access1 index ∈ units1 := by
        rw [hunit1, List.getD_eq_getElem _ _ (by omega)]
        exact List.getElem_mem _
      have hmem2 : access2 index ∈ units2 := by
        rw [hunit2, List.getD_eq_getElem _ _ (by omega)]
        exact List.getElem_mem _
      have hdrop1 : (keys caseInsensitive units1).drop index =
          unitKey caseInsensitive (access1 index) :: (keys caseInsensitive units1).drop (index + 1) := by
        rw [← List.getElem_cons_drop (by omega), hunit1, List.getD_eq_getElem _ _ (by omega)]
        simp only [keys, List.getElem_map]
      have hdrop2 : (keys caseInsensitive units2).drop index =
          unitKey caseInsensitive (access2 index) :: (keys caseInsensitive units2).drop (index + 1) := by
        rw [← List.getElem_cons_drop (by omega), hunit2, List.getD_eq_getElem _ _ (by omega)]
        simp only [keys, List.getElem_map]
      rw [if_pos hin, compareStep_spec _ _ _ _ fun h => ⟨(hascii h).1 _ hmem1, (hascii h).2 _ hmem2⟩, hdrop1, hdrop2]
      by_cases hkey : unitKey caseInsensitive (access1 index) = unitKey caseInsensitive (access2 index)
      · rw [if_pos hkey, hkey, lexCompare_cons_self]
        exact ih (by omega) strBufIndex1 1 strBufIndex2 1 (by omega)
      · rw [if_neg hkey, lexCompare_cons_of_ne hkey]
        rfl
    · rw [if_neg hin]
      rcases Nat.lt_trichotomy length1 length2 with hlt | heq | hgt
      · rw [if_neg (by simp only; omega), if_pos (by simp only; omega), List.drop_eq_nil_of_le (by omega),
          ← List.getElem_cons_drop (show index < (keys caseInsensitive units2).length by omega)]
        rfl
      · rw [if_neg (by simp only; omega), if_neg (by simp only; omega), List.drop_eq_nil_of_le (by omega),
          List.drop_eq_nil_of_le (by omega)]
        rfl
      · rw [if_pos (by simp only; omega), List.drop_eq_nil_of_le (show (keys caseInsensitive units2).length ≤ index by omega),
          ← List.getElem_cons_drop (show index < (keys caseInsensitive units1).length by omega)]
        rfl

end Loop

/-! ## The routes -/

/-- The contents of a string that has a C string pointer. -/
theorem getCStringPtr_spec {str : CFStringRef} {cString : List UInt8} (h : str.val.getCStringPtr = some cString) :
    str.val.eightBitBytes = some (cString.take str.val.getLength) ∧ str.val.getLength < cString.length := by
  have holds := str.property.holds
  unfold CFString.getCStringPtr at h
  unfold CFString.eightBitBytes
  cases hc : str.val.contents with
  | unicode characters => simp only [hc, reduceCtorEq] at h
  | eightBit bytes =>
    simp only [hc] at h holds ⊢
    split at h
    · rename_i hnull
      rw [if_pos hnull] at holds
      obtain rfl := Option.some.inj h
      exact ⟨rfl, by rw [List.length_drop]; omega⟩
    · cases h

/-- A string in bytes holds only ASCII. -/
def CFString.EightBitIsASCII (str : CFString) : Prop := ∀ bytes, str.eightBitBytes = some bytes → ∀ byte ∈ bytes, byte < 0x80

section Routes

variable {target : DeploymentTarget} {map : CharToUniChar} (hm : map.Reachable target)

include hm

theorem keys_of_cString {str : CFStringRef} (hascii : str.val.EightBitIsASCII) {cString : List UInt8}
    (h : str.val.getCStringPtr = some cString) {location n : Nat} (hn : location + n ≤ str.val.getLength)
    (caseInsensitive : Bool) :
    (∀ byte ∈ (cString.drop location).take n, byte < 0x80) ∧
      keys caseInsensitive (((str.val.characters map).drop location).take n) =
        ((cString.drop location).take n).map fun byte => if caseInsensitive then smallLetter byte.toNat else byte.toNat := by
  obtain ⟨hbytes, hlen⟩ := getCStringPtr_spec h
  have htake : (cString.drop location).take n = ((cString.take str.val.getLength).drop location).take n := by
    rw [List.drop_take, List.take_take, Nat.min_eq_left (by omega)]
  have hall : ∀ byte ∈ (cString.drop location).take n, byte < 0x80 := fun byte hbyte =>
    hascii _ hbytes byte (List.mem_of_mem_drop (List.mem_of_mem_take (htake ▸ hbyte)))
  refine ⟨hall, ?_⟩
  rw [CFString.characters_of_bytes hbytes, ← List.map_drop, ← List.map_take, ← htake, keys, List.map_map]
  refine List.map_congr_left fun byte hbyte => ?_
  rw [Function.comp_apply, hm.table_ascii (hall byte hbyte), unitKey, UInt8.toNat_toUInt16]

end Routes

/-- The `int` that holds a difference has its sign. -/
def IntTells (difference : Int) : Prop := (int32 difference).sign = difference.sign

theorem resultOf_sign (a : Int) : resultOf a = resultOf a.sign := by
  unfold resultOf
  rw [if_congr Int.sign_eq_zero_iff_zero rfl rfl, if_congr Int.sign_neg_iff rfl rfl]

theorem resultOf_eq_iff (a b : Int) : resultOf a = resultOf b ↔ a.sign = b.sign := by
  rw [resultOf_sign a, resultOf_sign b]
  rcases Int.sign_trichotomy a with ha | ha | ha <;> rcases Int.sign_trichotomy b with hb | hb | hb <;> rw [ha, hb] <;> decide

theorem keys_false (units : List UniChar) : keys false units = units.map UInt16.toNat := rfl

/-- The order that the comparison is to give: the one of the units, or of the small
letters. -/
def unitOrder (caseInsensitive : Bool) (units1 units2 : List UniChar) : CFComparisonResult :=
  lexCompare (keys caseInsensitive units1) (keys caseInsensitive units2)

/-- A scan of what the two strings have in common, and then the lengths. -/
theorem unitOrder_of_scan {units1 units2 : List UniChar} (caseInsensitive : Bool) {n : Nat}
    (hn : n = min units1.length units2.length) :
    unitOrder caseInsensitive units1 units2 =
      if keys caseInsensitive (units1.take n) = keys caseInsensitive (units2.take n) then
        resultOf ((units1.length : Int) - units2.length)
      else lexCompare (keys caseInsensitive (units1.take n)) (keys caseInsensitive (units2.take n)) := by
  have hlen1 : (keys caseInsensitive units1).length = units1.length := List.length_map ..
  have hlen2 : (keys caseInsensitive units2).length = units2.length := List.length_map ..
  have htake1 : keys caseInsensitive (units1.take n) = (keys caseInsensitive units1).take n := List.map_take
  have htake2 : keys caseInsensitive (units2.take n) = (keys caseInsensitive units2).take n := List.map_take
  rw [unitOrder, htake1, htake2]
  split
  · rename_i heq
    rw [resultOf_sub, lexCompare_of_take_eq (by rw [hlen1, hlen2, ← hn]; exact heq), hlen1, hlen2]
  · rename_i hne
    exact lexCompare_of_take_ne (by omega) (by omega) hne

/-- A route that scans as many units, and tells the lengths apart by `difference`. -/
theorem scan_iff {units1 units2 : List UniChar} {caseInsensitive : Bool} {n : Nat} (hn : n = min units1.length units2.length)
    {result : Option CFComparisonResult} {difference : Int}
    (heq : keys caseInsensitive (units1.take n) = keys caseInsensitive (units2.take n) → result = some (resultOf difference))
    (hne : keys caseInsensitive (units1.take n) ≠ keys caseInsensitive (units2.take n) →
      result = some (lexCompare (keys caseInsensitive (units1.take n)) (keys caseInsensitive (units2.take n)))) :
    result = some (unitOrder caseInsensitive units1 units2) ↔
      (keys caseInsensitive (units1.take n) = keys caseInsensitive (units2.take n) →
        difference.sign = ((units1.length : Int) - units2.length).sign) := by
  rw [unitOrder_of_scan caseInsensitive hn]
  split
  · rename_i hkeys
    rw [heq hkeys, Option.some.injEq, resultOf_eq_iff]
    exact ⟨fun h _ => h, fun h => h hkeys⟩
  · rename_i hkeys
    rw [hne hkeys]
    exact ⟨fun _ h => absurd h hkeys, fun _ => rfl⟩

/-- A read through an inline buffer that was just set up. -/
theorem get_initInlineBuffer (map : CharToUniChar) (str : CFStringRef) {location length : Nat}
    (h : location + length ≤ str.val.getLength) (junk : List UniChar) {i : Nat} (hi : i < length) :
    (initInlineBuffer str.val location length junk).get map i =
      (((str.val.characters map).drop location).take length).getD i 0 := by
  have hreads := @readsRange_initInlineBuffer map str _ _ h junk
  have hlen : length = (((str.val.characters map).drop location).take length).length := hreads.length_eq
  have hget := List.getElem?_eq_getElem (hlen ▸ hi)
  obtain ⟨buf', heq, -⟩ := hreads.get hget
  rw [InlineBuffer.get, heq, List.getD_eq_getElem?_getD, hget, Option.getD_some]

/-- Where two byte strings have the shorter one's units in common, the `int` tells
which is shorter. -/
def LengthsTold (map : CharToUniChar) (s t : CFStringRef) (location length : Nat) (caseInsensitive : Bool) : Prop :=
  s.val.getCStringPtr.isSome → t.val.getCStringPtr.isSome →
    keys caseInsensitive ((((s.val.characters map).drop location).take length).take (min length t.val.getLength)) =
      keys caseInsensitive ((t.val.characters map).take (min length t.val.getLength)) →
    IntTells ((length : Int) - t.val.getLength)

section Order

variable {target : DeploymentTarget} {map : CharToUniChar} (hm : map.Reachable target) {s t : CFStringRef}
  (hs : s.val.EightBitIsASCII) (ht : t.val.EightBitIsASCII) {location length : Nat}
  (hrange : location + length ≤ s.val.getLength) (tables : UnicodeTables) {caseInsensitive : Bool} (junk1 junk2 : List UniChar)
  {rounds : Nat} (hrounds : min length t.val.getLength < rounds)

/-- The route through inline buffers gives the order. -/
theorem compareLoop_order (hrange : location + length ≤ s.val.getLength) (hrounds : min length t.val.getLength < rounds)
    (hascii : caseInsensitive = true →
      (∀ unit ∈ s.val.characters map, unit.toNat < 0x80) ∧ ∀ unit ∈ t.val.characters map, unit.toNat < 0x80) :
    compareLoop tables caseInsensitive ((initInlineBuffer s.val location length junk1).get map)
        ((initInlineBuffer t.val 0 t.val.getLength junk2).get map) length t.val.getLength rounds ⟨0, [], 0, 0⟩ ⟨0, [], 0, 0⟩ =
      some (unitOrder caseInsensitive (((s.val.characters map).drop location).take length) (t.val.characters map)) := by
  have hlen1 : (((s.val.characters map).drop location).take length).length = length := by
    rw [List.length_take, List.length_drop, s.property.length_characters]
    omega
  have hlen2 := t.property.length_characters map
  refine compareLoop_spec hlen1 hlen2 (fun i hi => get_initInlineBuffer map s hrange junk1 hi) (fun i hi => ?_)
    (fun h => ⟨fun unit hunit => ?_, (hascii h).2⟩) (by omega) 0 0 0 0 (Nat.zero_le _)
  · rw [get_initInlineBuffer map t (Nat.le_of_eq (Nat.zero_add _)) junk2 hi, List.drop_zero, ← hlen2, List.take_length]
  · exact (hascii h).1 unit (List.mem_of_mem_drop (List.mem_of_mem_take hunit))

include hm hs ht hrange hrounds

/-- The comparison gives the order of the units, but for lengths that an `int`
does not tell apart. -/
theorem compareWithOptions_eq_iff (hascii : caseInsensitive = true →
      (∀ unit ∈ s.val.characters map, unit.toNat < 0x80) ∧ ∀ unit ∈ t.val.characters map, unit.toNat < 0x80) :
    compareWithOptions tables map s.val t.val location length caseInsensitive junk1 junk2 rounds =
        some (unitOrder caseInsensitive (((s.val.characters map).drop location).take length) (t.val.characters map)) ↔
      LengthsTold map s t location length caseInsensitive := by
  let units1 := ((s.val.characters map).drop location).take length
  let units2 := t.val.characters map
  show _ = some (unitOrder caseInsensitive units1 units2) ↔ (_ → _ → keys caseInsensitive (units1.take _) =
    keys caseInsensitive (units2.take _) → _)
  have hlen1 : units1.length = length := by
    rw [List.length_take, List.length_drop, s.property.length_characters]
    omega
  have hlen2 : units2.length = t.val.getLength := t.property.length_characters map
  have hloop := compareLoop_order tables junk1 junk2 hrange hrounds hascii
  have hunits2 : units2 = t.val.characters map := rfl
  have hiff := @scan_iff units1 units2 caseInsensitive (min length t.val.getLength) (by rw [hlen1, hlen2])
  rw [hlen1, hlen2] at hiff
  rw [compareWithOptions]
  generalize hn : min length t.val.getLength = n at *
  have htake1 : units1.take n = ((s.val.characters map).drop location).take n := by
    rw [List.take_take, Nat.min_eq_left (by omega)]
  cases hp1 : s.val.getCStringPtr with
  | none =>
    simp only [Option.isSome_none, Bool.false_eq_true, false_implies, iff_true]
    cases hp2 : t.val.getCStringPtr with
    | some str2Bytes => exact hloop
    | none =>
      cases caseInsensitive with
      | true => exact hloop
      | false =>
        cases hc1 : s.val.contents with
        | eightBit bytes1 =>
          simp only [CFString.getCharactersPtr, hc1, Bool.false_eq_true, if_false]
          exact hloop
        | unicode str1 =>
          cases hc2 : t.val.contents with
          | eightBit bytes2 =>
            simp only [CFString.getCharactersPtr, hc1, hc2, Bool.false_eq_true, if_false]
            exact hloop
          | unicode str2 =>
            simp only [CFString.getCharactersPtr, hc1, hc2, Bool.false_eq_true, if_false]
            have hchars1 := @CFString.characters_unicode map _ _ hc1
            have hchars2 := @CFString.characters_unicode map _ _ hc2
            have holds1 : s.val.getLength ≤ str1.length := by
              have := s.property.holds
              rwa [hc1] at this
            have holds2 : t.val.getLength ≤ str2.length := by
              have := t.property.holds
              rwa [hc2] at this
            have hkeys1 : keys false (units1.take n) = (((str1.drop location).drop 0).take n).map UInt16.toNat := by
              rw [keys_false, htake1, hchars1, List.drop_take, List.take_take, Nat.min_eq_left (by omega), List.drop_zero]
            have hkeys2 : keys false (units2.take n) = ((str2.drop 0).take n).map UInt16.toNat := by
              rw [keys_false, hunits2, hchars2, List.take_take, Nat.min_eq_left (by omega), List.drop_zero]
            have hloop16 := @compareUnicode_spec (str1.drop location) str2 n 0 (by rw [List.length_drop]; omega) (by omega)
            simp only [← hkeys1, ← hkeys2] at hloop16
            refine (@hiff _ ((length : Int) - t.val.getLength) (fun heq => ?_) fun hne => ?_).mpr fun _ => rfl
            · rw [if_pos (hloop16.1.mpr heq)]
            · rw [if_neg fun h => hne (hloop16.1.mp h), hloop16.2]
  | some str1Bytes =>
    cases hp2 : t.val.getCStringPtr with
    | none =>
      simp only [Option.isSome_none, Bool.false_eq_true, false_implies, implies_true, iff_true]
      exact hloop
    | some str2Bytes =>
      obtain ⟨hascii1, hkeys1⟩ := keys_of_cString hm hs hp1 (show location + n ≤ _ by omega) caseInsensitive
      obtain ⟨hascii2, hkeys2⟩ := keys_of_cString hm ht hp2 (show 0 + n ≤ _ by omega) caseInsensitive
      rw [← htake1] at hkeys1
      rw [List.drop_zero, ← hunits2, List.drop_zero] at hkeys2
      rw [List.drop_zero] at hascii2
      have hlong1 := (getCStringPtr_spec hp1).2
      have hlong2 := (getCStringPtr_spec hp2).2
      simp only [Option.isSome_some, forall_const]
      cases caseInsensitive with
      | true =>
        simp only [if_true] at hkeys1 hkeys2 ⊢
        have hloop8 := @compareEightBit_spec (str1Bytes.drop location) str2Bytes n 0
          (by rw [List.length_drop]; omega) (by omega) hascii1 hascii2
        simp only [List.drop_zero, Nat.zero_add, ← hkeys1, ← hkeys2] at hloop8
        refine hiff (fun heq => ?_) fun hne => ?_
        · rw [hloop8.1 heq]
          exact if_pos rfl
        · rw [hloop8.2 hne]
      | false =>
        simp only [Bool.false_eq_true, if_false] at hkeys1 hkeys2 ⊢
        obtain ⟨hzero, hresult⟩ := @memcmp_spec ((str1Bytes.drop location).take n) (str2Bytes.take n)
          (by rw [List.length_take, List.length_take, List.length_drop]; omega)
        have hinj : (str1Bytes.drop location).take n = str2Bytes.take n ↔
            keys false (units1.take n) = keys false (units2.take n) := by
          rw [hkeys1, hkeys2]
          exact (List.map_injective_iff.mpr fun _ _ h => UInt8.toNat_inj.mp h).eq_iff.symm
        refine hiff (fun heq => ?_) fun hne => ?_
        · rw [if_pos (hzero.mpr (hinj.mpr heq))]
        · rw [if_neg fun h => hne (hinj.mp (hzero.mp h)), hresult, hkeys1, hkeys2]

end Order

/-- The order of the units is a total one. -/
theorem unitOrder_totalPreorder (caseInsensitive : Bool) : TotalPreorder (unitOrder caseInsensitive) where
  swap _ _ := lexCompare_swap _ _
  trans _ _ _ := lexCompare_trans

/-- Strings of the same units are the ones that `__CFStringEqual` tells equal. -/
theorem unitOrder_eq_iff {target : DeploymentTarget} {map : CharToUniChar} (hm : map.Reachable target) {s t : CFStringRef}
    (hs : s.val.EightBitIsASCII) (ht : t.val.EightBitIsASCII) (junk : List UniChar) :
    unitOrder false (s.val.characters map) (t.val.characters map) = .eq ↔ equal map s.val t.val junk = true := by
  have hunits : unitOrder false (s.val.characters map) (t.val.characters map) = .eq ↔
      s.val.characters map = t.val.characters map := by
    rw [unitOrder, lexCompare_eq_iff, keys_false, keys_false]
    exact (List.map_injective_iff.mpr fun _ _ h => UInt16.toNat_inj.mp h).eq_iff
  rw [hunits, equal_eq_true_iff s.property t.property]
  split
  · rename_i bytes1 bytes2 h1 h2
    have htable1 : bytes1.map map.table = bytes1.map UInt8.toUInt16 :=
      List.map_congr_left fun byte hbyte => hm.table_ascii (hs bytes1 h1 byte hbyte)
    have htable2 : bytes2.map map.table = bytes2.map UInt8.toUInt16 :=
      List.map_congr_left fun byte hbyte => hm.table_ascii (ht bytes2 h2 byte hbyte)
    rw [CFString.characters_of_bytes h1, CFString.characters_of_bytes h2, htable1, htable2]
    exact (List.map_injective_iff.mpr fun a b h => by
      rw [← UInt8.toNat_inj, ← UInt8.toNat_toUInt16, h, UInt8.toNat_toUInt16]).eq_iff
  · exact Iff.rfl

/-- The comparison gives the lexicographic order of the units, or of the small
letters of ASCII strings, exactly if an `int` tells the lengths of two byte strings
apart where it comes to them. The order is total, and between whole strings its
equality is `__CFStringEqual`. -/
theorem compareWithOptions_iff {target : DeploymentTarget} {map : CharToUniChar} (hm : map.Reachable target)
    {s t : CFStringRef} (hs : s.val.EightBitIsASCII) (ht : t.val.EightBitIsASCII) {location length : Nat}
    (hrange : location + length ≤ s.val.getLength) (tables : UnicodeTables) (caseInsensitive : Bool)
    (hascii : caseInsensitive = true →
      (∀ unit ∈ s.val.characters map, unit.toNat < 0x80) ∧ ∀ unit ∈ t.val.characters map, unit.toNat < 0x80)
    (junk1 junk2 : List UniChar) {rounds : Nat} (hrounds : min length t.val.getLength < rounds) :
    (compareWithOptions tables map s.val t.val location length caseInsensitive junk1 junk2 rounds =
        some (unitOrder caseInsensitive (((s.val.characters map).drop location).take length) (t.val.characters map)) ↔
      LengthsTold map s t location length caseInsensitive) ∧
    TotalPreorder (unitOrder caseInsensitive) ∧
    (location = 0 → length = s.val.getLength → caseInsensitive = false → LengthsTold map s t location length caseInsensitive →
      ∀ junk, compareWithOptions tables map s.val t.val location length caseInsensitive junk1 junk2 rounds = some .eq ↔
        equal map s.val t.val junk = true) := by
  have hiff := compareWithOptions_eq_iff hm hs ht hrange tables junk1 junk2 hrounds hascii
  refine ⟨hiff, unitOrder_totalPreorder caseInsensitive, ?_⟩
  rintro rfl rfl rfl htold junk
  have hwhole : ((s.val.characters map).drop 0).take s.val.getLength = s.val.characters map := by
    rw [List.drop_zero, ← s.property.length_characters map, List.take_length]
  rw [hiff.mpr htold, hwhole, Option.some.injEq, unitOrder_eq_iff hm hs ht junk]

/-- Tables for texts in which nothing but ASCII letters has a case. -/
def asciiTables : UnicodeTables where
  bitmap _ _ _ := false
  decomposeCharacter _ _ := []
  compatibilityDecompose character := character
  mapCaseFold character _ := [UInt16.ofNat character]
  prioritySort characters := characters

/-- "aB" in bytes and "Ab" in units. -/
theorem compareWithOptions_iff_letters :
    compareWithOptions asciiTables .initial (inlineEightBit [0x61, 0x42]) (inlineUnicode [0x41, 0x62]) 0 2 true [] [] 3 =
      some .eq := by
  let s : CFStringRef := ⟨inlineEightBit [0x61, 0x42], inlineEightBit_wellFormed (by decide)⟩
  let t : CFStringRef := ⟨inlineUnicode [0x41, 0x62], inlineUnicode_wellFormed _⟩
  have hs : s.val.EightBitIsASCII := by
    rintro bytes hbytes
    obtain rfl : [0x61, 0x42] = bytes := Option.some.inj hbytes
    simp only [List.forall_mem_cons]
    exact ⟨by decide, by decide, nofun⟩
  have ht : t.val.EightBitIsASCII := fun bytes hbytes => by cases hbytes
  have hascii : (∀ unit ∈ s.val.characters .initial, unit.toNat < 0x80) ∧
      ∀ unit ∈ t.val.characters .initial, unit.toNat < 0x80 := by
    rw [show s.val.characters .initial = [0x61, 0x42] from rfl, show t.val.characters .initial = [0x41, 0x62] from rfl]
    simp only [List.forall_mem_cons]
    exact ⟨⟨by decide, by decide, nofun⟩, by decide, by decide, nofun⟩
  have hresult := (compareWithOptions_iff (show CharToUniChar.Reachable .linux _ from .initial) hs ht (show 0 + 2 ≤ s.val.getLength by decide)
    asciiTables true (fun _ => hascii) [] [] (show min 2 t.val.getLength < 3 by decide)).1.mpr fun _ h => by cases h
  exact hresult.trans (by decide)

/-! ## Lengths that are 2³² apart -/

/-- Two byte strings without a common unit, of lengths 2³² apart. -/
theorem compareWithOptions_int {tables : UnicodeTables} {map : CharToUniChar} {s t : CFString} {cString1 cString2 : List UInt8}
    (h1 : s.getCStringPtr = some cString1) (h2 : t.getCStringPtr = some cString2) (ht : t.getLength = 0)
    (junk1 junk2 : List UniChar) (rounds : Nat) :
    compareWithOptions tables map s t 0 (2 ^ 32) false junk1 junk2 rounds = some .eq := by
  rw [compareWithOptions, h1, h2, ht]
  simp only [Nat.min_zero, List.take_zero, memcmp, Bool.false_eq_true, if_false, if_true]
  decide

/-- A string of bytes with a NUL after them. -/
def nullTerminated (bytes : List UInt8) : CFString where
  isMutable := false
  isInline := true
  hasLengthByte := false
  hasNullByte := true
  length := bytes.length
  contents := .eightBit (bytes ++ [0])

theorem nullTerminated_wellFormed (bytes : List UInt8) : (nullTerminated bytes).WellFormed where
  not_inline := nofun
  unicode_plain := nofun
  holds := by
    show 0 + bytes.length + 1 ≤ (bytes ++ [0]).length
    rw [List.length_append, List.length_singleton]
    omega
  lengthByte := nofun
  nullByte contents hc _ := by
    obtain rfl := Contents.eightBit.inj hc
    show (bytes ++ [0])[0 + bytes.length]? = some 0
    rw [Nat.zero_add, List.getElem?_append_right (Nat.le_refl _), Nat.sub_self]
    rfl

/-- A byte string of 2³² characters compares equal to the empty string. -/
theorem compareWithOptions_long {bytes : List UInt8} (h : bytes.length = 2 ^ 32) :
    (∀ tables junk1 junk2 rounds, compareWithOptions tables .initial (nullTerminated bytes) (nullTerminated []) 0 (2 ^ 32)
      false junk1 junk2 rounds = some .eq) ∧
    unitOrder false ((nullTerminated bytes).characters .initial) ((nullTerminated []).characters .initial) = .gt := by
  refine ⟨fun tables junk1 junk2 rounds => compareWithOptions_int (show _ = some (bytes ++ [0]) from rfl)
    (show _ = some [0] from rfl) rfl junk1 junk2 rounds, ?_⟩
  have hlen1 : ((nullTerminated bytes).characters .initial).length = 2 ^ 32 := by
    rw [(nullTerminated_wellFormed _).length_characters]
    exact h
  have hlen2 : ((nullTerminated []).characters .initial).length = 0 := (nullTerminated_wellFormed []).length_characters _
  rw [@unitOrder_of_scan _ _ false 0 (by rw [hlen1, hlen2]; rfl), List.take_zero, List.take_zero, if_pos rfl, hlen1, hlen2]
  decide

theorem compareWithOptions_manyLetters :
    (nullTerminated (List.replicate (2 ^ 32) 0x61)).WellFormed ∧ (nullTerminated []).WellFormed ∧
    (∀ tables junk1 junk2 rounds, compareWithOptions tables .initial (nullTerminated (List.replicate (2 ^ 32) 0x61))
      (nullTerminated []) 0 (2 ^ 32) false junk1 junk2 rounds = some .eq) ∧
    unitOrder false ((nullTerminated (List.replicate (2 ^ 32) 0x61)).characters .initial)
      ((nullTerminated []).characters .initial) = .gt :=
  ⟨nullTerminated_wellFormed _, nullTerminated_wellFormed _, compareWithOptions_long List.length_replicate⟩

end CFLite.Strings
