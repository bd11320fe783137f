import Mathlib.Data.List.TakeWhile
import CFLite.Strings.Creation

/-!
# Joining and splitting strings

`CFStringCreateByCombiningStrings` fills one buffer with the strings of an array
and a separator between each two: of bytes when all of them are stored in bytes,
else of characters. `CFStringCreateArrayBySeparatingStrings` cuts a string at the
ranges that `CFStringCreateArrayWithFindResults` gives for the separator.

* `createByCombiningStrings_iff`: when the joined string is the concatenation;
* `combining_separated_iff`: when joining undoes splitting.

The ranges are any occurrences of the separator, one after the other.
-/

namespace CFLite.Strings

/-! ## The code -/

/-- The bytes at the contents pointer, on a little-endian host. -/
def Contents.bytes : Contents → List UInt8
  | .eightBit bytes => bytes
  | .unicode characters => characters.flatMap fun (character : UInt16) => [character.toUInt8, (character >>> 8).toUInt8]

/-- `__CFStrConvertBytesToUnicode` -/
def convertBytesToUnicode (map : CharToUniChar) (bytes : List UInt8) (numChars : Nat) : List UniChar :=
  (bytes.take numChars).map map.table

variable {α : Type}

/-- The loop of `CFStringCreateByCombiningStrings` over the strings after the
first. The separator is copied from the buffer once it was put there, from
`separatorContents` on. -/
def appendAll (separator : List α) (separatorLength : Nat) :
    (strings : List (List α)) → (buffer : List α) → (separatorContents : Option Nat) → List α
  | [], buffer, _ => buffer
  | string :: strings, buffer, some separatorContents =>
    appendAll separator separatorLength strings
      (buffer ++ (buffer.drop separatorContents).take separatorLength ++ string) (some separatorContents)
  | string :: strings, buffer, none =>
    appendAll separator separatorLength strings (buffer ++ separator ++ string) (some buffer.length)

/-- The buffer of two strings or more. -/
def combine (separator : List α) (separatorLength : Nat) : List (List α) → List α
  | [] => []
  | string :: strings => appendAll separator separatorLength strings string none

/-- The bytes of a string, in a buffer of bytes. -/
def copyBytes (str : CFString) : List UInt8 := (str.contents.bytes.drop str.skipAnyLengthByte).take str.getLength

/-- The characters of a string, in a buffer of characters. -/
def copyCharacters (map : CharToUniChar) (str : CFString) : List UniChar :=
  match str.contents with
  | .unicode contents => contents.take str.getLength
  | .eightBit contents => convertBytesToUnicode map (contents.drop str.skipAnyLengthByte) str.getLength

/-- `CFStringCreateByCombiningStrings` -/
def createByCombiningStrings (map : CharToUniChar) (alloc : Allocator) (array : List CFString) (separatorString : CFString) :
    CFString :=
  match array with
  | [] => createWithCharacters alloc [] 0
  | [string] => createCopy alloc string
  | array =>
    let numChars := separatorString.getLength * (array.length - 1) + (array.map CFString.getLength).sum
    let canBeEightbit := !separatorString.isUnicode && array.all fun string => !string.isUnicode
    if canBeEightbit then
      let buffer := combine (copyBytes separatorString) separatorString.getLength (array.map copyBytes)
      createWithCStringNoCopy alloc (buffer ++ [0])
    else
      -- the separator is converted whether it is stored in bytes or not
      let separator := convertBytesToUnicode map (separatorString.contents.bytes.drop separatorString.skipAnyLengthByte)
        separatorString.getLength
      let buffer := combine separator separatorString.getLength (array.map (copyCharacters map))
      createWithCharactersNoCopy alloc buffer numChars

/-- The loop of `CFStringCreateArrayBySeparatingStrings` over the ranges. -/
def separate (alloc : Allocator) (string : CFString) (length : Nat) : List CFRange → (startIndex : Nat) → List CFString
  | [], startIndex => [createWithSubstring alloc string ⟨startIndex, length - startIndex⟩]
  | currentRange :: ranges, startIndex =>
    createWithSubstring alloc string ⟨startIndex, currentRange.location - startIndex⟩ ::
      separate alloc string length ranges (currentRange.location + currentRange.length)

/-- `CFStringCreateArrayBySeparatingStrings`, `separatorRanges` being what
`CFStringCreateArrayWithFindResults` gives: `NULL` when it finds nothing. -/
def createArrayBySeparatingStrings (alloc : Allocator) (string : CFString) (separatorRanges : Option (List CFRange)) :
    List CFString :=
  match separatorRanges with
  | none => [string]
  | some ranges => separate alloc string string.getLength ranges 0

/-! ## The buffer is the concatenation -/

variable {map : CharToUniChar}

theorem appendAll_some {separator : List α} {n : Nat} (strings : List (List α)) {buffer : List α} {separatorContents : Nat}
    (h : (buffer.drop separatorContents).take n = separator) (hin : separatorContents + n ≤ buffer.length) :
    appendAll separator n strings buffer (some separatorContents) = buffer ++ strings.flatMap (separator ++ ·) := by
  induction strings generalizing buffer with
  | nil => simp [appendAll]
  | cons string strings ih =>
    rw [appendAll, h, ih]
    · simp only [List.flatMap_cons, List.append_assoc]
    · rw [List.append_assoc, List.drop_append_of_le_length (by omega), List.take_append_of_le_length
        (by rw [List.length_drop]; omega), h]
    · simp only [List.length_append]
      omega

theorem intercalate_cons (separator a : List α) (rest : List (List α)) :
    separator.intercalate (a :: rest) = a ++ rest.flatMap (separator ++ ·) := by
  induction rest generalizing a with
  | nil => simp
  | cons b rest ih =>
    rw [List.intercalate_cons_cons, ih b, List.flatMap_cons, List.append_assoc, List.append_assoc]

/-- The buffer is the concatenation of the strings with the separator between them. -/
theorem combine_eq {separator : List α} {n : Nat} (h : separator.length = n) (strings : List (List α)) :
    combine separator n strings = separator.intercalate strings := by
  rcases strings with _ | ⟨first, _ | ⟨second, strings⟩⟩
  · rfl
  · simp [combine, appendAll]
  · rw [intercalate_cons, combine, appendAll, appendAll_some]
    · simp only [List.flatMap_cons, List.append_assoc]
    · rw [List.append_assoc, List.drop_left, ← h, List.take_left]
    · simp only [List.length_append, h]
      omega

theorem length_intercalate (separator : List α) (strings : List (List α)) :
    (separator.intercalate strings).length =
      separator.length * (strings.length - 1) + (strings.map List.length).sum := by
  rcases strings with _ | ⟨first, strings⟩
  · rfl
  · rw [intercalate_cons]
    induction strings with
    | nil => simp
    | cons second strings ih =>
      simp only [List.flatMap_cons, List.length_append, List.length_cons, List.map_cons, List.sum_cons,
        Nat.add_one_sub_one, Nat.mul_succ] at ih ⊢
      omega

/-- With two strings or more the concatenation tells the separator. -/
theorem intercalate_inj {separator separator' : List α} (h : separator.length = separator'.length)
    {a b : List α} {rest : List (List α)} :
    separator.intercalate (a :: b :: rest) = separator'.intercalate (a :: b :: rest) ↔ separator = separator' := by
  refine ⟨fun he => ?_, fun he => by rw [he]⟩
  rw [intercalate_cons, intercalate_cons, List.flatMap_cons, List.flatMap_cons, List.append_cancel_left_eq,
    List.append_assoc, List.append_assoc] at he
  exact (List.append_inj he h).1

theorem map_intercalate {β : Type} (f : α → β) (separator : List α) (strings : List (List α)) :
    (separator.intercalate strings).map f = (separator.map f).intercalate (strings.map (List.map f)) := by
  rcases strings with _ | ⟨first, strings⟩
  · rfl
  · rw [List.map_cons, intercalate_cons, intercalate_cons, List.map_append, List.map_flatMap, List.flatMap_map]
    simp only [List.map_append]

theorem mem_intercalate {separator : List α} {a b : List α} {rest : List (List α)} {x : α} :
    x ∈ separator.intercalate (a :: b :: rest) ↔ x ∈ separator ∨ ∃ string ∈ a :: b :: rest, x ∈ string := by
  rw [intercalate_cons]
  simp only [List.mem_append, List.mem_flatMap, List.mem_cons]
  constructor
  · rintro (h | ⟨string, hs, h | h⟩)
    · exact .inr ⟨a, .inl rfl, h⟩
    · exact .inl h
    · exact .inr ⟨string, .inr hs, h⟩
  · rintro (h | ⟨string, rfl | hs, h⟩)
    · exact .inr ⟨b, .inl rfl, .inl h⟩
    · exact .inl h
    · exact .inr ⟨string, hs, .inr h⟩

/-! ## The joined string -/

variable (map) in
theorem length_copyBytes {str : CFString} (hs : str.WellFormed) (he : str.isUnicode = false) :
    (copyBytes str).length = str.getLength ∧ (copyBytes str).map map.table = str.characters map := by
  have holds := hs.holds
  cases hc : str.contents with
  | eightBit contents =>
    simp only [hc] at holds
    rw [CFString.characters_eightBit hc, copyBytes, hc]
    simp only [Contents.bytes, List.length_take, List.length_drop, and_true]
    omega
  | unicode contents => simp [CFString.isUnicode, hc] at he

theorem copyCharacters_eq (map : CharToUniChar) (str : CFString) : copyCharacters map str = str.characters map := by
  unfold copyCharacters
  cases hc : str.contents with
  | eightBit contents => rw [CFString.characters_eightBit hc]; rfl
  | unicode contents => rw [CFString.characters_unicode hc]

theorem takeWhile_terminated (buffer : List UInt8) :
    (buffer ++ [0]).takeWhile (· ≠ 0) = buffer.takeWhile (· ≠ 0) ∧
      (buffer ++ [0])[(buffer.takeWhile (· ≠ 0)).length]? = some 0 := by
  induction buffer with
  | nil => exact ⟨rfl, rfl⟩
  | cons byte buffer ih =>
    rw [List.cons_append, List.takeWhile_cons, List.takeWhile_cons]
    by_cases hz : byte = 0
    · simp [hz]
    · simpa [hz] using ih

/-- A C string ends at its first NUL. -/
theorem createWithCStringNoCopy_created (alloc : Allocator) (buffer : List UInt8) :
    Created map (createWithCStringNoCopy alloc (buffer ++ [0])) false ((buffer.takeWhile (· ≠ 0)).map map.table) := by
  obtain ⟨hwhile, hnull⟩ := takeWhile_terminated buffer
  have hprefix := List.takeWhile_prefix (l := buffer) (· ≠ 0)
  have htake : (buffer ++ [0]).take (buffer.takeWhile (· ≠ 0)).length = buffer.takeWhile (· ≠ 0) := by
    rw [List.take_append_of_le_length hprefix.length_le]
    exact (List.prefix_iff_eq_take.mp hprefix).symm
  have hle : (buffer.takeWhile (· ≠ 0)).length ≤ (buffer ++ [0]).length := by
    rw [List.length_append]
    exact Nat.le_add_right_of_le hprefix.length_le
  unfold createWithCStringNoCopy
  rw [hwhile]
  have hmade : Created map _ false _ := createImmutableFunnel3_bytes alloc hle false true true fun _ _ => hnull
  rwa [htake] at hmade

/-- The joined string has the characters of the strings with those of the
separator between them, and their number. -/
structure Joins (map : CharToUniChar) (str : CFString) (array : List CFString) (separator : CFString) : Prop where
  characters : str.characters map = (separator.characters map).intercalate (array.map (CFString.characters map))
  length : str.getLength = separator.getLength * (array.length - 1) + (array.map CFString.getLength).sum

variable (map) in
theorem length_concatenation {array : List CFString} (ha : ∀ str ∈ array, str.WellFormed) {separator : CFString}
    (hsep : separator.WellFormed) :
    ((separator.characters map).intercalate (array.map (CFString.characters map))).length =
      separator.getLength * (array.length - 1) + (array.map CFString.getLength).sum := by
  rw [length_intercalate, hsep.length_characters, List.length_map, List.map_map]
  congr 2
  exact List.map_congr_left fun str hstr => (ha str hstr).length_characters map

/-- The length follows from the characters. -/
theorem joins_iff {str : CFString} (hs : str.WellFormed) {array : List CFString} (ha : ∀ str ∈ array, str.WellFormed)
    {separator : CFString} (hsep : separator.WellFormed) :
    Joins map str array separator ↔
      str.characters map = (separator.characters map).intercalate (array.map (CFString.characters map)) := by
  refine ⟨Joins.characters, fun h => ⟨h, ?_⟩⟩
  rw [← hs.length_characters map, h, length_concatenation _ ha hsep]

/-- The separator's buffer, read as bytes of the eight-bit encoding, begins with
its characters. It does when the separator is stored in bytes. -/
def ReadsAsBytes (map : CharToUniChar) (separator : CFString) : Prop :=
  convertBytesToUnicode map (separator.contents.bytes.drop separator.skipAnyLengthByte) separator.getLength =
    separator.characters map

theorem readsAsBytes_eightBit {separator : CFString} (h : separator.isUnicode = false) : ReadsAsBytes map separator := by
  unfold ReadsAsBytes
  cases hc : separator.contents with
  | eightBit contents =>
    rw [CFString.characters_eightBit hc]
    rfl
  | unicode contents => simp [CFString.isUnicode, hc] at h

theorem length_bytes_unicode (characters : List UniChar) : (Contents.unicode characters).bytes.length = 2 * characters.length := by
  induction characters with
  | nil => rfl
  | cons character characters ih =>
    simp only [Contents.bytes, List.flatMap_cons, List.length_append, List.length_cons, List.length_nil] at ih ⊢
    omega

variable (map) in
theorem length_convertBytesToUnicode {separator : CFString} (hsep : separator.WellFormed) :
    (convertBytesToUnicode map (separator.contents.bytes.drop separator.skipAnyLengthByte) separator.getLength).length =
      separator.getLength := by
  have holds := hsep.holds
  rw [convertBytesToUnicode, List.length_map, List.length_take, List.length_drop]
  cases hc : separator.contents with
  | eightBit contents =>
    simp only [hc] at holds
    simp only [Contents.bytes]
    omega
  | unicode contents =>
    simp only [hc] at holds
    have hskip : separator.skipAnyLengthByte = 0 := by
      rw [CFString.skipAnyLengthByte, (hsep.unicode_plain (by rw [CFString.isUnicode, hc])).1]
      rfl
    rw [length_bytes_unicode, hskip]
    omega

/-- All of the strings and the separator are stored in bytes. -/
def AllEightBit (array : List CFString) (separator : CFString) : Prop :=
  separator.isUnicode = false ∧ ∀ str ∈ array, str.isUnicode = false

theorem map_copyCharacters (array : List CFString) :
    array.map (copyCharacters map) = array.map (CFString.characters map) :=
  List.map_congr_left fun str _ => copyCharacters_eq map str

variable {separator : CFString} {a b : CFString} {rest : List CFString}

variable (map) in
/-- Strings stored in bytes are joined up to the first NUL. -/
theorem createByCombiningStrings_bytes (alloc : Allocator) (hsep : separator.WellFormed)
    (he : AllEightBit (a :: b :: rest) separator) :
    Created map (createByCombiningStrings map alloc (a :: b :: rest) separator) false
      ((((copyBytes separator).intercalate ((a :: b :: rest).map copyBytes)).takeWhile (· ≠ 0)).map map.table) := by
  have hall : (!separator.isUnicode && (a :: b :: rest).all fun string => !string.isUnicode) = true := by
    rw [Bool.and_eq_true, List.all_eq_true]
    exact ⟨by rw [he.1]; rfl, fun str hstr => by rw [he.2 str hstr]; rfl⟩
  rw [← combine_eq (length_copyBytes map hsep he.1).1]
  unfold createByCombiningStrings
  simp only [hall, ↓reduceIte]
  exact createWithCStringNoCopy_created alloc _

variable (map) in
/-- Other strings are joined in characters, but with the separator's buffer read
as bytes. -/
theorem createByCombiningStrings_characters (alloc : Allocator) (hsep : separator.WellFormed)
    (ha : ∀ str ∈ a :: b :: rest, str.WellFormed) (he : ¬ AllEightBit (a :: b :: rest) separator) :
    ∃ isUnicode, Created map (createByCombiningStrings map alloc (a :: b :: rest) separator) isUnicode
      ((convertBytesToUnicode map (separator.contents.bytes.drop separator.skipAnyLengthByte) separator.getLength).intercalate
        ((a :: b :: rest).map (CFString.characters map))) := by
  have hall : (!separator.isUnicode && (a :: b :: rest).all fun string => !string.isUnicode) = false := by
    rw [← Bool.not_eq_true, Bool.and_eq_true, List.all_eq_true]
    refine fun h => he ⟨by simpa using h.1, fun str hstr => by simpa using h.2 str hstr⟩
  have hlen := length_convertBytesToUnicode map hsep
  have hnum := length_concatenation map ha hsep
  rw [length_intercalate, hsep.length_characters, ← hlen, ← length_intercalate, hlen] at hnum
  unfold createByCombiningStrings createWithCharactersNoCopy
  simp only [hall, Bool.false_eq_true, ↓reduceIte]
  rw [combine_eq hlen, map_copyCharacters, ← hnum]
  obtain ⟨isUnicode, hmade⟩ := createImmutableFunnel3_kept map alloc (Nat.le_refl
    ((convertBytesToUnicode map (separator.contents.bytes.drop separator.skipAnyLengthByte) separator.getLength).intercalate
        ((a :: b :: rest).map (CFString.characters map))).length)
  rw [List.take_length] at hmade
  exact ⟨isUnicode, hmade⟩

theorem table_eq_zero_iff {target : DeploymentTarget} (hm : map.Reachable target) (byte : UInt8) :
    map.table byte = 0 ↔ byte = 0 := by
  have hzero : map.table 0 = 0 := by
    rcases hm.eq_or with rfl | rfl <;> rfl
  rw [← hzero, table_eq_iff hm]
  refine ⟨fun h => h.elim id fun h => absurd h.2.2 (by decide), .inl⟩

theorem map_takeWhile_eq_iff (buffer : List UInt8) :
    (buffer.takeWhile (· ≠ 0)).map map.table = buffer.map map.table ↔ 0 ∉ buffer := by
  have hprefix := List.takeWhile_prefix (l := buffer) (· ≠ 0)
  constructor
  · intro h hmem
    have hlen := congrArg List.length h
    rw [List.length_map, List.length_map] at hlen
    rw [← hprefix.eq_of_length hlen] at hmem
    simpa using List.mem_takeWhile_imp hmem
  · intro h
    rw [List.takeWhile_eq_self_iff.mpr fun byte hb => decide_eq_true (ne_of_mem_of_not_mem hb h)]

/-- When the joined string is the concatenation: of two strings or more, the
separator's buffer must read as its characters do, and strings that are all
stored in bytes must have no NUL in them. -/
theorem createByCombiningStrings_iff {target : DeploymentTarget} (hm : map.Reachable target) (alloc : Allocator)
    {array : List CFString} (ha : ∀ str ∈ array, str.WellFormed) (hsep : separator.WellFormed) :
    Joins map (createByCombiningStrings map alloc array separator) array separator ↔
      array.length ≤ 1 ∨ (ReadsAsBytes map separator ∧ (AllEightBit array separator →
        ∀ str ∈ separator :: array, 0 ∉ str.characters map)) := by
  rcases array with _ | ⟨a, _ | ⟨b, rest⟩⟩
  · have hmade := createImmutableFunnel3_reduced hm alloc (Nat.le_refl ([] : List UniChar).length)
    refine iff_of_true ((joins_iff hmade.wellFormed ha hsep).mpr ?_) (.inl (Nat.zero_le _))
    exact hmade.characters
  · obtain ⟨_, hmade⟩ := createCopy_characters hm alloc (ha a (List.mem_singleton_self a))
    refine iff_of_true ((joins_iff hmade.wellFormed ha hsep).mpr ?_) (.inl (Nat.le_refl _))
    rw [List.map_singleton, List.intercalate_singleton]
    exact hmade.characters
  · have htwo : ¬ (a :: b :: rest).length ≤ 1 := by
      rw [List.length_cons, List.length_cons]
      omega
    rw [or_iff_right htwo]
    by_cases he : AllEightBit (a :: b :: rest) separator
    · have hmade := createByCombiningStrings_bytes map alloc hsep he
      have hbytes : ∀ str ∈ separator :: a :: b :: rest, (copyBytes str).map map.table = str.characters map :=
        fun str hstr => by
          rcases List.mem_cons.mp hstr with rfl | hstr
          · exact (length_copyBytes _ hsep he.1).2
          · exact (length_copyBytes _ (ha str hstr) (he.2 str hstr)).2
      have hconcat : (separator.characters map).intercalate ((a :: b :: rest).map (CFString.characters map)) =
          ((copyBytes separator).intercalate ((a :: b :: rest).map copyBytes)).map map.table := by
        rw [map_intercalate, hbytes separator (List.mem_cons_self ..), List.map_map]
        congr 1
        exact List.map_congr_left fun str hstr => (hbytes str (List.mem_cons_of_mem _ hstr)).symm
      have hnul : ∀ str ∈ separator :: a :: b :: rest, 0 ∈ copyBytes str ↔ 0 ∈ str.characters map := fun str hstr => by
        rw [← hbytes str hstr, List.mem_map]
        simp only [table_eq_zero_iff hm, exists_eq_right]
      rw [joins_iff hmade.wellFormed ha hsep, hmade.characters, hconcat, map_takeWhile_eq_iff, List.map_cons, List.map_cons,
        mem_intercalate, ← List.map_cons, ← List.map_cons]
      simp only [readsAsBytes_eightBit he.1, he, true_and, forall_const]
      rw [List.forall_mem_cons, ← hnul separator (List.mem_cons_self ..), not_or]
      refine and_congr_right fun _ => ?_
      simp only [List.mem_map, exists_exists_and_eq_and, not_exists, not_and]
      exact forall₂_congr fun str hstr => not_congr (hnul str (List.mem_cons_of_mem _ hstr))
    · obtain ⟨_, hmade⟩ := createByCombiningStrings_characters map alloc hsep ha he
      rw [joins_iff hmade.wellFormed ha hsep, hmade.characters, List.map_cons, List.map_cons,
        intercalate_inj ((length_convertBytesToUnicode _ hsep).trans (hsep.length_characters map).symm)]
      exact ⟨fun h => ⟨h, fun h => absurd h he⟩, And.left⟩

/-! ## Joining what was split -/

/-- Ranges of a string, each after the one before, that hold the characters of
the separator. -/
def Occur (map : CharToUniChar) (string separator : CFString) : List CFRange → (startIndex : Nat) → Prop
  | [], _ => True
  | range :: ranges, startIndex =>
    startIndex ≤ range.location ∧ range.location + range.length ≤ string.getLength ∧
      range.length = separator.getLength ∧
      string.getCharacters map range.location range.length = separator.characters map ∧
      Occur map string separator ranges (range.location + range.length)

/-- The find results are literal occurrences of the separator, or `NULL`. -/
def LiteralOccurrences (map : CharToUniChar) (string separator : CFString) : Option (List CFRange) → Prop
  | none => True
  | some ranges => ranges ≠ [] ∧ Occur map string separator ranges 0

/-- The characters between the ranges. -/
def between (map : CharToUniChar) (string : CFString) : List CFRange → (startIndex : Nat) → List (List UniChar)
  | [], startIndex => [string.getCharacters map startIndex (string.getLength - startIndex)]
  | range :: ranges, startIndex =>
    string.getCharacters map startIndex (range.location - startIndex) ::
      between map string ranges (range.location + range.length)

variable (map) in
theorem between_ne_nil (string : CFString) (ranges : List CFRange) (startIndex : Nat) :
    between map string ranges startIndex ≠ [] := by
  cases ranges <;> exact List.cons_ne_nil _ _

theorem intercalate_cons_of_ne_nil {separator a : List α} {rest : List (List α)} (h : rest ≠ []) :
    separator.intercalate (a :: rest) = a ++ (separator ++ separator.intercalate rest) := by
  rcases rest with _ | ⟨b, rest⟩
  · exact absurd rfl h
  · rw [List.intercalate_cons_cons, List.append_assoc]

/-- The string is the concatenation of what lies between the occurrences. -/
theorem intercalate_between {string separator : CFString} (hs : string.WellFormed) {ranges : List CFRange} {startIndex : Nat}
    (hstart : startIndex ≤ string.getLength) (h : Occur map string separator ranges startIndex) :
    (separator.characters map).intercalate (between map string ranges startIndex) =
      (string.characters map).drop startIndex := by
  have hlen := hs.length_characters map
  induction ranges generalizing startIndex with
  | nil =>
    rw [between, List.intercalate_singleton, string.getCharacters_eq map (by omega)]
    exact List.take_of_length_le (by rw [List.length_drop]; omega)
  | cons range ranges ih =>
    obtain ⟨hle, hin, -, hsep, hrest⟩ := h
    rw [between, intercalate_cons_of_ne_nil (between_ne_nil _ _ _ _), ih hin hrest, ← hsep,
      string.getCharacters_eq map (by omega), string.getCharacters_eq map hin]
    obtain ⟨k, hk⟩ := Nat.exists_eq_add_of_le hle
    rw [hk, Nat.add_sub_cancel_left, ← List.drop_drop, Nat.add_assoc, ← List.drop_drop, ← List.drop_drop (i := range.length),
      List.take_append_drop, List.take_append_drop]

/-- Each string of the array has the characters of its part, and is stored in
bytes if the whole is or if its characters are ASCII. -/
theorem separate_created {target : DeploymentTarget} (hm : map.Reachable target) (alloc : Allocator) {string separator : CFString}
    (hs : string.WellFormed) (hpos : separator.getLength ≠ 0) {ranges : List CFRange} {startIndex : Nat}
    (hstart : startIndex ≤ string.getLength) (h : Occur map string separator ranges startIndex)
    (hpart : startIndex ≠ 0 ∨ ranges ≠ []) :
    List.Forall₂ (fun str part => Created map str (string.isUnicode && !asciiOnly part) part)
      (separate alloc string string.getLength ranges startIndex) (between map string ranges startIndex) := by
  induction ranges generalizing startIndex with
  | nil =>
    refine .cons (createWithSubstring_part hm alloc hs ?_ ?_) .nil
    · simp only
      omega
    · rcases hpart with hz | hne
      · exact Nat.sub_lt_self (Nat.pos_of_ne_zero hz) hstart
      · exact absurd rfl hne
  | cons range ranges ih =>
    obtain ⟨hle, hin, hlen, -, hrest⟩ := h
    refine .cons (createWithSubstring_part hm alloc hs ?_ ?_) (ih hin hrest (.inl (by omega)))
    · simp only
      omega
    · simp only
      omega

/-- What lies between the occurrences would be stored in bytes. -/
def Narrow (map : CharToUniChar) (string : CFString) (ranges : List CFRange) : Prop :=
  string.isUnicode = false ∨ ∀ part ∈ between map string ranges 0, ∀ character ∈ part, character ≤ 127

/-- The condition for the separated string to be joined again. -/
def JoinsBack (map : CharToUniChar) (string separator : CFString) : Option (List CFRange) → Prop
  | none => True
  | some ranges => ReadsAsBytes map separator ∧
      (separator.isUnicode = false ∧ Narrow map string ranges → 0 ∉ string.characters map)

theorem createByCombiningStrings_wellFormed {target : DeploymentTarget} (hm : map.Reachable target) (alloc : Allocator)
    {array : List CFString} (ha : ∀ str ∈ array, str.WellFormed) (hsep : separator.WellFormed) :
    (createByCombiningStrings map alloc array separator).WellFormed := by
  rcases array with _ | ⟨a, _ | ⟨b, rest⟩⟩
  · exact (createImmutableFunnel3_reduced hm alloc (Nat.le_refl ([] : List UniChar).length)).wellFormed
  · obtain ⟨_, hmade⟩ := createCopy_characters hm alloc (ha a (List.mem_singleton_self a))
    exact hmade.wellFormed
  · by_cases he : AllEightBit (a :: b :: rest) separator
    · exact (createByCombiningStrings_bytes map alloc hsep he).wellFormed
    · obtain ⟨_, hmade⟩ := createByCombiningStrings_characters map alloc hsep ha he
      exact hmade.wellFormed

theorem created_all {isUnicode : List UniChar → Bool} {array : List CFString} {parts : List (List UniChar)}
    (h : List.Forall₂ (fun str part => Created map str (isUnicode part) part) array parts) :
    (∀ str ∈ array, str.WellFormed) ∧ array.map (CFString.characters map) = parts ∧
      ((∀ str ∈ array, str.isUnicode = false) ↔ ∀ part ∈ parts, isUnicode part = false) := by
  induction h with
  | nil => exact ⟨nofun, rfl, iff_of_true nofun nofun⟩
  | cons hmade _ ih =>
    obtain ⟨hwf, hmap, huni⟩ := ih
    refine ⟨List.forall_mem_cons.mpr ⟨hmade.wellFormed, hwf⟩, by rw [List.map_cons, hmade.characters, hmap], ?_⟩
    rw [List.forall_mem_cons, List.forall_mem_cons, huni, hmade.isUnicode]

theorem narrow_iff {string : CFString} {parts : List (List UniChar)} :
    (∀ part ∈ parts, (string.isUnicode && !asciiOnly part) = false) ↔
      string.isUnicode = false ∨ ∀ part ∈ parts, ∀ character ∈ part, character ≤ 127 := by
  cases hu : string.isUnicode with
  | false => simp only [Bool.false_and, implies_true, true_or]
  | true => simp only [Bool.true_and, Bool.not_eq_false', asciiOnly_iff, Bool.true_eq_false, false_or]

/-- When joining undoes splitting. -/
theorem combining_separated_iff {target : DeploymentTarget} (hm : map.Reachable target) (alloc alloc' : Allocator)
    {string : CFString} (hs : string.WellFormed) (hsep : separator.WellFormed) (hpos : separator.getLength ≠ 0)
    {ranges : Option (List CFRange)} (h : LiteralOccurrences map string separator ranges) :
    (createByCombiningStrings map alloc (createArrayBySeparatingStrings alloc' string ranges) separator).characters map =
        string.characters map ↔
      JoinsBack map string separator ranges := by
  cases ranges with
  | none =>
    obtain ⟨_, hmade⟩ := createCopy_characters hm alloc hs
    exact iff_of_true hmade.characters trivial
  | some ranges =>
    obtain ⟨hne, hocc⟩ := h
    have hparts := separate_created hm alloc' hs hpos (Nat.zero_le _) hocc (.inr hne)
    have hjoin := intercalate_between hs (Nat.zero_le _) hocc
    have htwo : ∃ a b rest, between map string ranges 0 = a :: b :: rest := by
      cases ranges with
      | nil => exact absurd rfl hne
      | cons range ranges =>
        obtain ⟨b, rest, hb⟩ := List.exists_cons_of_ne_nil (between_ne_nil map string ranges (range.location + range.length))
        exact ⟨_, b, rest, by rw [between, hb]⟩
    unfold createArrayBySeparatingStrings
    simp only [JoinsBack, Narrow]
    generalize separate alloc' string string.getLength ranges 0 = array at hparts
    generalize between map string ranges 0 = parts at hparts hjoin htwo
    obtain ⟨hwf, hmap, huni⟩ := created_all hparts
    obtain ⟨a, b, rest, rfl⟩ := htwo
    rw [List.drop_zero] at hjoin
    have hlength : ¬ array.length ≤ 1 := by
      rw [← List.length_map (CFString.characters map), hmap, List.length_cons, List.length_cons]
      omega
    have hnul : (∀ str ∈ separator :: array, 0 ∉ str.characters map) ↔ 0 ∉ string.characters map := by
      rw [← hjoin, mem_intercalate, ← hmap, List.forall_mem_cons, not_or]
      simp only [List.mem_map, exists_exists_and_eq_and, not_exists, not_and]
    have hall : AllEightBit array separator ↔
        separator.isUnicode = false ∧
          (string.isUnicode = false ∨ ∀ part ∈ a :: b :: rest, ∀ character ∈ part, character ≤ 127) := by
      rw [AllEightBit, huni, narrow_iff]
    have hjoins := createByCombiningStrings_iff hm alloc hwf hsep
    rw [joins_iff (createByCombiningStrings_wellFormed hm alloc hwf hsep) hwf hsep, hmap, hjoin, or_iff_right hlength,
      hall, hnul] at hjoins
    exact hjoins

/-- When the joined string of an array is the concatenation, and when joining
undoes splitting. -/
theorem combining_iff {target : DeploymentTarget} (hm : map.Reachable target) (alloc alloc' : Allocator) :
    (∀ (array : List CFStringRef) (separator : CFStringRef),
      Joins map (createByCombiningStrings map alloc (array.map Subtype.val) separator) (array.map Subtype.val) separator ↔
        array.length ≤ 1 ∨ (ReadsAsBytes map separator ∧ (AllEightBit (array.map Subtype.val) separator →
          ∀ str ∈ separator :: array, 0 ∉ str.val.characters map))) ∧
    (∀ (string separator : CFStringRef) (ranges : Option (List CFRange)), separator.val.getLength ≠ 0 →
      LiteralOccurrences map string separator ranges →
      ((createByCombiningStrings map alloc (createArrayBySeparatingStrings alloc' string ranges) separator).characters map =
          string.val.characters map ↔
        JoinsBack map string separator ranges)) := by
  refine ⟨fun array separator => ?_, fun string separator ranges hpos hocc =>
    combining_separated_iff hm alloc alloc' string.2 separator.2 hpos hocc⟩
  have hwf : ∀ str ∈ array.map Subtype.val, str.WellFormed := fun str hstr => by
    obtain ⟨ref, -, rfl⟩ := List.mem_map.mp hstr
    exact ref.2
  rw [createByCombiningStrings_iff hm alloc hwf separator.2, List.length_map]
  simp only [List.forall_mem_cons, List.forall_mem_map]

/-- Splitting "a,b" at the comma and joining it again. -/
theorem combining_comma :
    (createByCombiningStrings .initial ⟨true, fun _ => true⟩
      (createArrayBySeparatingStrings ⟨false, fun _ => false⟩ (inlineEightBit [0x61, 0x2C, 0x62]) (some [⟨1, 1⟩]))
      (inlineEightBit [0x2C])).characters .initial = (inlineEightBit [0x61, 0x2C, 0x62]).characters .initial := by
  have hm : CharToUniChar.Reachable .linux .initial := .initial
  have hocc : LiteralOccurrences .initial (inlineEightBit [0x61, 0x2C, 0x62]) (inlineEightBit [0x2C]) (some [⟨1, 1⟩]) :=
    ⟨List.cons_ne_nil _ _, by decide, by decide, by decide, by decide, trivial⟩
  exact ((combining_iff hm _ _).2 ⟨_, inlineEightBit_wellFormed (by decide)⟩
    ⟨_, inlineEightBit_wellFormed (by decide)⟩ _ (by decide) hocc).mpr
      ⟨readsAsBytes_eightBit rfl, fun _ => by decide⟩

/-- The separator U+2192 between "a" and "b" comes out as U+0092, and the NUL
after the comma of "a,\0" is lost when its parts are joined. -/
theorem combining_loses :
    (¬ ∀ (array : List CFStringRef) (separator : CFStringRef),
      Joins .initial (createByCombiningStrings .initial ⟨false, fun _ => false⟩ (array.map Subtype.val) separator)
        (array.map Subtype.val) separator) ∧
    (¬ ∀ (string separator : CFStringRef) (ranges : Option (List CFRange)), separator.val.getLength ≠ 0 →
      LiteralOccurrences .initial string separator ranges →
      (createByCombiningStrings .initial ⟨false, fun _ => false⟩
        (createArrayBySeparatingStrings ⟨false, fun _ => false⟩ string ranges) separator).characters .initial =
          string.val.characters .initial) := by
  constructor
  · intro h
    have := (h [⟨inlineEightBit [0x61], inlineEightBit_wellFormed (by decide)⟩,
      ⟨inlineEightBit [0x62], inlineEightBit_wellFormed (by decide)⟩] ⟨_, inlineUnicode_wellFormed [0x2192]⟩).characters
    exact absurd this (by decide)
  · intro h
    have hocc : LiteralOccurrences .initial (inlineEightBit [0x61, 0x2C, 0x00]) (inlineEightBit [0x2C]) (some [⟨1, 1⟩]) :=
      ⟨List.cons_ne_nil _ _, by decide, by decide, by decide, by decide, trivial⟩
    have := h ⟨_, inlineEightBit_wellFormed (by decide)⟩ ⟨_, inlineEightBit_wellFormed (by decide)⟩ _ (by decide) hocc
    exact absurd this (by decide)

end CFLite.Strings
