import CFLite.Strings.ByteStreams
import CFLite.Strings.ChangeSize

/-!
# Changing the case of a string

`CFStringLowercase` and `CFStringUppercase` replace the characters of a mutable
string one after another, in its contents.

* `caseStep_spec`: a character is replaced by what it is mapped to;
* `caseLoop_spec`, `caseLoop_skips`: what the loop comes to, and what it passes
  over after a character that is mapped to nothing;
* `changesCase_iff`: every character is mapped unless one before the last is
  mapped to nothing.
-/

namespace CFLite.Strings

open Framework

/-! ## The code -/

/-- `contents[location] = …` and `memmove(contents + location, …)`, for Unicode contents. -/
def MutableString.storeCharacters (string : MutableString) (location : Nat) (characters : List UniChar) :
    Option MutableString :=
  match string.contents with
  | .eightBit _ => none
  | .unicode contents =>
    (writeRange contents location characters).map fun contents => { string with contents := .unicode contents }

namespace CaseChange

/-- `kCFUniCharToLowercase` and `kCFUniCharToUppercase`. -/
inductive CaseType where
  | toLowercase
  | toUppercase
  deriving DecidableEq

/-- The case mappings of one type and one language: `CFUniCharMapCaseTo`, of a
character and flags, and `CFUniCharGetConditionalCaseMappingFlags`, of a
character, the contents, its index and the flags of the character before. -/
structure CaseMapping where
  mapCaseTo : Nat → Nat → List UniChar
  /-- `MAX_CASE_MAPPING_BUF` -/
  length_mapCaseTo : ∀ theChar flags, (mapCaseTo theChar flags).length ≤ 8
  conditionalFlags : Nat → List UniChar → Nat → Nat → Nat

/-- The bytes that are changed, and what they are changed to. -/
def CaseType.changes : CaseType → UInt8 → Bool
  | toLowercase, byte => byte ≥ 0x41 && byte ≤ 0x5A
  | toUppercase, byte => byte ≥ 0x61 && byte ≤ 0x7A

def CaseType.changed : CaseType → UInt8 → UInt8
  | toLowercase, byte => byte + (0x61 - 0x41)
  | toUppercase, byte => byte - (0x61 - 0x41)

/-- The loop over bytes: the bytes as it leaves them, and how many it went over. -/
def asciiLoop (ctype : CaseType) : List UInt8 → List UInt8 × Nat
  | [] => ([], 0)
  | byte :: contents =>
    if ctype.changes byte then
      (ctype.changed byte :: (asciiLoop ctype contents).1, (asciiLoop ctype contents).2 + 1)
    else if byte > 127 then (byte :: contents, 0)
    else (byte :: (asciiLoop ctype contents).1, (asciiLoop ctype contents).2 + 1)

/-- The flags a character is mapped with. -/
def caseFlags (ctype : CaseType) (mapping : CaseMapping) (hasLangCode : Bool) (currentChar : Nat)
    (contents : List UniChar) (currentIndex flags : Nat) : Nat :=
  match ctype with
  | .toLowercase =>
    if hasLangCode || currentChar == 0x03A3 then mapping.conditionalFlags currentChar contents currentIndex flags else 0
  | .toUppercase => if hasLangCode then mapping.conditionalFlags currentChar contents currentIndex flags else 0

/-- The loop's variables: the string, `currentIndex`, `length` and `flags`; and the
characters that were mapped. -/
structure CaseState where
  string : MutableString
  currentIndex : Nat
  length : Nat
  flags : Nat
  mapped : List Nat

section Code

variable (alloc : ContentsAllocator) (map : CharToUniChar) (ctype : CaseType) (mapping : CaseMapping)
  (hasLangCode : Bool)

/-- The part of the loop that puts the mapped characters after the first one in
their place: the string, `currentIndex` and `length`. -/
def placeMapped (string : MutableString) (currentChar currentIndex length : Nat) (mappedCharacters : List UniChar) :
    Option (MutableString × Nat × Nat) :=
  if currentChar > 0xFFFF then
    match mappedCharacters.length with
    | 0 =>
      (string.changeSize alloc map ⟨currentIndex, 2⟩ 0 true).map fun string => (string, currentIndex, length - 2)
    | 1 =>
      (string.changeSize alloc map ⟨currentIndex + 1, 1⟩ 0 true).map fun string => (string, currentIndex, length - 1)
    | 2 =>
      (string.storeCharacters (currentIndex + 1) (mappedCharacters.drop 1)).map fun string =>
        (string, currentIndex + 1, length)
    | mappedLength + 1 =>
      (string.changeSize alloc map ⟨currentIndex + 1, 0⟩ (mappedLength - 1) true).bind fun string =>
      (string.storeCharacters (currentIndex + 1) (mappedCharacters.drop 1)).map fun string =>
        (string, currentIndex + mappedLength, length + (mappedLength - 1))
  else
    match mappedCharacters.length with
    | 0 =>
      (string.changeSize alloc map ⟨currentIndex, 1⟩ 0 true).map fun string => (string, currentIndex, length - 1)
    | 1 => some (string, currentIndex, length)
    | mappedLength + 1 =>
      (string.changeSize alloc map ⟨currentIndex + 1, 0⟩ mappedLength true).bind fun string =>
      (string.storeCharacters (currentIndex + 1) (mappedCharacters.drop 1)).map fun string =>
        (string, currentIndex + mappedLength, length + mappedLength)

/-- The character at an index of the contents: `currentChar`. -/
def characterAt (contents : List UniChar) (currentIndex length : Nat) : Nat :=
  let character := contents.getD currentIndex 0
  let next := contents.getD (currentIndex + 1) 0
  if IsHighSurrogate character.toNat ∧ currentIndex + 1 < length ∧ IsLowSurrogate next.toNat then
    longCharacterForSurrogatePair character.toNat next.toNat
  else character.toNat

/-- A round of the loop of `CFStringLowercase` and `CFStringUppercase`. -/
def caseStep (s : CaseState) : Option CaseState :=
  match s.string.contents with
  | .eightBit _ => none
  | .unicode contents =>
    let currentChar := characterAt contents s.currentIndex s.length
    let flags := caseFlags ctype mapping hasLangCode currentChar (contents.take s.length) s.currentIndex s.flags
    let mappedCharacters := mapping.mapCaseTo currentChar flags
    (s.string.storeCharacters s.currentIndex (mappedCharacters.take 1)).bind fun string =>
    (placeMapped alloc map string currentChar s.currentIndex s.length mappedCharacters).map
      fun (string, currentIndex, length) =>
        { string, currentIndex := currentIndex + 1, length, flags, mapped := s.mapped ++ [currentChar] }

/-- The loop, for a number of rounds at most. -/
def caseLoop : Nat → CaseState → Option CaseState
  | 0, s => if s.currentIndex < s.length then none else some s
  | rounds + 1, s =>
    if s.currentIndex < s.length then (caseStep alloc map ctype mapping hasLangCode s).bind (caseLoop rounds)
    else some s

/-- `CFStringLowercase` and `CFStringUppercase`: the string, and the characters
that were mapped. -/
def changeCase (string : MutableString) : Option (MutableString × List Nat) :=
  let length := string.length
  let isEightBit := !string.isUnicode
  let start : MutableString × Nat × List Nat :=
    match hasLangCode, string.contents with
    | false, .eightBit bytes =>
      let contents := (bytes.drop string.skipAnyLengthByte).take length
      let (changed, currentIndex) := asciiLoop ctype contents
      ({ string with
        contents := .eightBit (bytes.take string.skipAnyLengthByte ++ changed ++
          bytes.drop (string.skipAnyLengthByte + length)) },
        currentIndex, (contents.take currentIndex).map UInt8.toNat)
    | _, _ => (string, 0, [])
  if start.2.1 < length then
    (if isEightBit then start.1.changeSize alloc map ⟨0, 0⟩ 0 true else some start.1).bind fun string =>
    (caseLoop alloc map ctype mapping hasLangCode (length - start.2.1)
      ⟨string, start.2.1, length, 0, start.2.2⟩).map fun s => (s.string, s.mapped)
  else some (start.1, start.2.2)

/-- `CFStringLowercase` -/
def lowercase (string : MutableString) : Option (MutableString × List Nat) :=
  changeCase alloc map .toLowercase mapping hasLangCode string

/-- `CFStringUppercase` -/
def uppercase (string : MutableString) : Option (MutableString × List Nat) :=
  changeCase alloc map .toUppercase mapping hasLangCode string

end Code

/-! ## Characters in order -/

/-- The units of the characters of a string: a surrogate pair, or one unit. -/
def pieces : List UniChar → List (List UniChar)
  | [] => []
  | [character] => [[character]]
  | character :: next :: units =>
    if IsHighSurrogate character.toNat ∧ IsLowSurrogate next.toNat then [character, next] :: pieces units
    else [character] :: pieces (next :: units)

/-- The character of its units. -/
def characterOf : List UniChar → Nat
  | [character] => character.toNat
  | [high, low] => longCharacterForSurrogatePair high.toNat low.toNat
  | _ => 0

/-- The characters of a string. -/
def charactersOf (units : List UniChar) : List Nat := (pieces units).map characterOf

section Mapping

variable (ctype : CaseType) (mapping : CaseMapping) (hasLangCode : Bool)

/-- The flags of the first of the characters that are left. -/
def flagsOf (out : List UniChar) (flags : Nat) (piece : List UniChar) (rest : List (List UniChar)) : Nat :=
  caseFlags ctype mapping hasLangCode (characterOf piece) (out ++ piece ++ rest.flatten) out.length flags

/-- What characters are mapped to, after what those before them were. -/
def mapPieces : List UniChar → Nat → List (List UniChar) → List UniChar
  | out, _, [] => out
  | out, flags, piece :: rest =>
    let flags := flagsOf ctype mapping hasLangCode out flags piece rest
    mapPieces (out ++ mapping.mapCaseTo (characterOf piece) flags) flags rest

/-- No character but the last is mapped to nothing. -/
def NoneDropped : List UniChar → Nat → List (List UniChar) → Prop
  | _, _, [] => True
  | out, flags, piece :: rest =>
    let flags := flagsOf ctype mapping hasLangCode out flags piece rest
    (mapping.mapCaseTo (characterOf piece) flags = [] → rest = []) ∧
      NoneDropped (out ++ mapping.mapCaseTo (characterOf piece) flags) flags rest

/-- The concatenation of what the characters of a string are mapped to. -/
def mapCase (units : List UniChar) : List UniChar := mapPieces ctype mapping hasLangCode [] 0 (pieces units)

end Mapping

@[simp] theorem flatten_pieces (units : List UniChar) : (pieces units).flatten = units := by
  induction units using pieces.induct with
  | case1 => rfl
  | case2 character => rfl
  | case3 character next units hpair ih =>
    rw [pieces, if_pos hpair, List.flatten_cons, ih]
    rfl
  | case4 character next units hpair ih =>
    rw [pieces, if_neg hpair, List.flatten_cons, ih]
    rfl

/-- The first of the characters, and those after it. -/
theorem pieces_eq_cons {units piece : List UniChar} {rest : List (List UniChar)} (h : pieces units = piece :: rest) :
    units = piece ++ rest.flatten ∧ pieces rest.flatten = rest ∧
      ((∃ character, piece = [character] ∧
          (IsHighSurrogate character.toNat → ∀ next ∈ rest.flatten.head?, ¬IsLowSurrogate next.toNat)) ∨
        ∃ high low, piece = [high, low] ∧ IsHighSurrogate high.toNat ∧ IsLowSurrogate low.toNat) := by
  have hunits : units = piece ++ rest.flatten := by rw [← flatten_pieces units, h, List.flatten_cons]
  match units, h with
  | [character], h =>
    cases h
    exact ⟨rfl, rfl, .inl ⟨character, rfl, fun _ _ => nofun⟩⟩
  | character :: next :: units, h =>
    rw [pieces] at h
    split at h
    · rename_i hpair
      cases h
      exact ⟨hunits, by rw [flatten_pieces], .inr ⟨character, next, rfl, hpair⟩⟩
    · rename_i hpair
      cases h
      refine ⟨hunits, by rw [flatten_pieces], .inl ⟨character, rfl, fun hhigh first hfirst hlow => ?_⟩⟩
      rw [flatten_pieces, List.head?_cons, Option.mem_some_iff] at hfirst
      exact hpair ⟨hhigh, hfirst ▸ hlow⟩

/-! ## Strings of units -/

/-- A mutable string in order with these units, as Unicode unless there are none. -/
structure HoldsUnits (map : CharToUniChar) (string : MutableString) (units : List UniChar) : Prop where
  wellFormed : string.WellFormed
  characters : string.characters map = units
  isUnicode : units ≠ [] → string.isUnicode = true

namespace HoldsUnits

variable {map : CharToUniChar} {string : MutableString} {units : List UniChar}

theorem length_eq (h : HoldsUnits map string units) : string.length = units.length := by
  rw [← h.characters, h.wellFormed.string.length_characters, h.wellFormed.getLength]

/-- The contents, which begin with the units. -/
theorem contents (h : HoldsUnits map string units) (hne : units ≠ []) :
    ∃ contents, string.contents = .unicode contents ∧ contents.take units.length = units ∧
      units.length ≤ contents.length := by
  have hunicode := h.isUnicode hne
  have hholds := h.wellFormed.string.holds
  cases hc : string.contents with
  | eightBit bytes =>
    rw [CFString.isUnicode, hc] at hunicode
    cases hunicode
  | unicode contents =>
    rw [hc, h.wellFormed.getLength, h.length_eq] at hholds
    refine ⟨contents, rfl, ?_, hholds⟩
    rw [← h.length_eq, ← h.wellFormed.characters_unicode hc, h.characters]

/-- Characters that are stored over others. -/
theorem storeCharacters (h : HoldsUnits map string units) (hne : units ≠ []) (location : Nat)
    (characters : List UniChar) (hin : location + characters.length ≤ units.length) :
    ∃ new, string.storeCharacters location characters = some new ∧
      HoldsUnits map new (units.take location ++ characters ++ units.drop (location + characters.length)) := by
  obtain ⟨contents, hc, htake, hroom⟩ := h.contents hne
  have hcapacity := h.wellFormed.capacity
  rw [hc] at hcapacity
  have hlength := @length_written _ contents characters location (by omega)
  have hget := @getElem?_written _ contents characters location (by omega)
  generalize hwritten : contents.take location ++ characters ++ contents.drop (location + characters.length) = written
    at hlength hget
  have hnew : { string with contents := .unicode written }.WellFormed :=
    MutableString.wellFormed_unicode h.wellFormed.isMutable (h.wellFormed.string.not_inline h.wellFormed.isMutable) rfl
      (h.wellFormed.string.unicode_plain (h.isUnicode hne)) (by rw [hlength]; exact h.length_eq ▸ hroom)
      (by rw [hlength]; exact hcapacity)
  refine ⟨{ string with contents := .unicode written }, ?_, hnew, ?_, fun _ => rfl⟩
  · simp only [MutableString.storeCharacters, hc]
    rw [writeRange_eq (by omega), hwritten, Option.map_some]
  · rw [hnew.characters_unicode rfl]
    show written.take string.length = _
    refine List.ext_getElem? fun k => ?_
    rw [h.length_eq, List.getElem?_take, hget k, getElem?_written hin k]
    by_cases hk : k < units.length
    · rw [if_pos hk]
      have hat : (contents.take units.length)[k]? = contents[k]? := List.getElem?_take_of_lt hk
      rw [htake] at hat
      rw [hat]
    · rw [if_neg hk, if_neg (by omega), List.getElem?_eq_none (by omega)]

/-- Room that is made, or characters that are taken out. -/
theorem changeSize (h : HoldsUnits map string units) (alloc : ContentsAllocator) (range : CFRange) (insertLength : Nat)
    (hin : range.location + range.length ≤ units.length)
    (hfits : 6 * (units.length + insertLength - range.length) + 7 < 2 ^ 64) :
    ∃ new gap, string.changeSize alloc map range insertLength true = some new ∧ gap.length = insertLength ∧
      HoldsUnits map new (units.take range.location ++ gap ++ units.drop (range.location + range.length)) := by
  rw [← h.length_eq] at hin hfits
  obtain ⟨new, heq, hnew, hlength, ⟨gap, hgap, hcharacters⟩, hunicode⟩ :=
    MutableString.changeSize_spec alloc map h.wellFormed range insertLength hin true hfits
  rw [h.characters] at hcharacters
  refine ⟨new, gap, heq, hgap, hnew, hcharacters, fun hne => ?_⟩
  rw [hunicode, Bool.true_or, Bool.true_or]
  have hpos := List.length_pos_iff.mpr hne
  rw [← hcharacters, hnew.string.length_characters, hnew.getLength] at hpos
  exact hpos

end HoldsUnits

/-! ## A character that is replaced -/

section Place

variable {alloc : ContentsAllocator} {map : CharToUniChar} {string : MutableString} {out rest mapped : List UniChar}
  {currentChar : Nat}

theorem drop_out (out units rest : List UniChar) : (out ++ units ++ rest).drop (out.length + units.length) = rest := by
  rw [← List.length_append]
  exact List.drop_left

theorem take_out (out units rest : List UniChar) : (out ++ units ++ rest).take out.length = out := by
  rw [List.append_assoc]
  exact List.take_left

theorem length_append₃ (out units rest : List UniChar) :
    (out ++ units ++ rest).length = out.length + units.length + rest.length := by
  rw [List.length_append, List.length_append]

/-- Units that are replaced by more of them. -/
theorem changeSize_store (alloc : ContentsAllocator) {old : List UniChar} (tail : List UniChar) (insertLength : Nat)
    (h : HoldsUnits map string (out ++ old ++ rest))
    (hinsert : tail.length = insertLength + old.length) (hne : tail ≠ [])
    (hfits : 6 * (out ++ tail ++ rest).length + 7 < 2 ^ 64) :
    ∃ new, ((string.changeSize alloc map ⟨out.length, 0⟩ insertLength true).bind fun string =>
        string.storeCharacters out.length tail) = some new ∧ HoldsUnits map new (out ++ tail ++ rest) := by
  rw [length_append₃] at hfits
  have hlength := length_append₃ out old rest
  obtain ⟨grown, gap, heq, hgap, hgrown⟩ := h.changeSize alloc ⟨out.length, 0⟩ insertLength (by dsimp only; omega)
    (by dsimp only; omega)
  dsimp only at hgrown
  rw [take_out, Nat.add_zero, List.append_assoc out old, List.drop_left, ← List.append_assoc, List.append_assoc out gap]
    at hgrown
  have hlength' : (out ++ (gap ++ old) ++ rest).length = out.length + (gap.length + old.length) + rest.length := by
    rw [length_append₃, List.length_append]
  have hpos := List.length_pos_iff.mpr hne
  obtain ⟨new, hstore, hnew⟩ := hgrown.storeCharacters (List.ne_nil_of_length_pos (by omega)) out.length tail (by omega)
  refine ⟨new, by rw [heq, Option.bind_some, hstore], ?_⟩
  have htail : tail.length = (gap ++ old).length := by rw [List.length_append, hinsert, hgap]
  rw [take_out, htail, drop_out] at hnew
  exact hnew

/-- Units that are taken out. -/
theorem changeSize_remove (alloc : ContentsAllocator) {old : List UniChar}
    (h : HoldsUnits map string (out ++ old ++ rest))
    (hfits : 6 * (out ++ rest).length + 7 < 2 ^ 64) :
    ∃ new, string.changeSize alloc map ⟨out.length, old.length⟩ 0 true = some new ∧
      HoldsUnits map new (out ++ rest) := by
  have hlength := length_append₃ out old rest
  rw [List.length_append] at hfits
  obtain ⟨new, gap, heq, hgap, hnew⟩ := h.changeSize alloc ⟨out.length, old.length⟩ 0 (by dsimp only; omega)
    (by dsimp only; omega)
  dsimp only at hnew
  rw [List.length_eq_zero_iff.mp hgap, List.append_nil, take_out, drop_out] at hnew
  exact ⟨new, heq, hnew⟩

theorem append_cons_left (out : List UniChar) (first : UniChar) (tail rest : List UniChar) :
    out ++ (first :: tail) ++ rest = (out ++ [first]) ++ tail ++ rest := by
  rw [List.append_assoc, List.append_assoc, List.append_assoc, List.cons_append, List.singleton_append]

theorem length_append_singleton (out : List UniChar) (first : UniChar) : (out ++ [first]).length = out.length + 1 := by
  rw [List.length_append, List.length_singleton]

/-- The characters after the first, where the character was one unit. -/
theorem placeMapped_one {character : UniChar} (h : HoldsUnits map string (out ++ [character] ++ rest))
    (hchar : ¬currentChar > 0xFFFF) (hmapped : ∀ first ∈ mapped.head?, first = character)
    (hfits : 6 * (out ++ mapped ++ rest).length + 7 < 2 ^ 64) :
    ∃ new, placeMapped alloc map string currentChar out.length (out ++ [character] ++ rest).length mapped =
        some (new, out.length + (mapped.length - 1), (out ++ mapped ++ rest).length) ∧
      HoldsUnits map new (out ++ mapped ++ rest) := by
  rw [placeMapped, if_neg hchar]
  match mapped, hmapped with
  | [], _ =>
    rw [List.append_nil] at hfits ⊢
    obtain ⟨new, heq, hnew⟩ := changeSize_remove alloc h hfits
    refine ⟨new, ?_, hnew⟩
    simp only [List.length_nil, List.length_singleton] at heq ⊢
    rw [heq, Option.map_some, length_append₃, List.length_append, List.length_singleton]
    simp only [Nat.zero_sub, Nat.add_zero]
    congr 3
    omega
  | [first], hmapped =>
    obtain rfl : first = character := hmapped first rfl
    exact ⟨string, rfl, h⟩
  | first :: second :: tail, hmapped =>
    obtain rfl : first = character := hmapped first rfl
    have hone : out ++ [first] ++ rest = (out ++ [first]) ++ [] ++ rest := by rw [List.append_nil]
    rw [append_cons_left out first (second :: tail)] at hfits ⊢
    rw [hone] at h
    obtain ⟨new, heq, hnew⟩ := changeSize_store alloc (second :: tail) (tail.length + 1) h (by simp) (by simp) hfits
    refine ⟨new, ?_, hnew⟩
    rw [length_append_singleton] at heq
    obtain ⟨grown, hgrown, hstore⟩ := Option.bind_eq_some_iff.mp heq
    simp only [List.length_cons, hgrown, Option.bind_some, List.drop_succ_cons, List.drop_zero, hstore, Option.map_some]
    simp only [List.length_append, List.length_cons, List.length_nil]
    congr 3
    omega

/-- The characters after the first, where the character was a surrogate pair. -/
theorem placeMapped_pair {character low : UniChar} (h : HoldsUnits map string (out ++ [character, low] ++ rest))
    (hchar : currentChar > 0xFFFF) (hmapped : ∀ first ∈ mapped.head?, first = character)
    (hfits : 6 * (out ++ mapped ++ rest).length + 7 < 2 ^ 64) :
    ∃ new, placeMapped alloc map string currentChar out.length (out ++ [character, low] ++ rest).length mapped =
        some (new, out.length + (mapped.length - 1), (out ++ mapped ++ rest).length) ∧
      HoldsUnits map new (out ++ mapped ++ rest) := by
  rw [placeMapped, if_pos hchar]
  match mapped, hmapped with
  | [], _ =>
    rw [List.append_nil] at hfits ⊢
    obtain ⟨new, heq, hnew⟩ := changeSize_remove alloc h hfits
    refine ⟨new, ?_, hnew⟩
    simp only [List.length_nil, List.length_cons] at heq ⊢
    rw [heq, Option.map_some, length_append₃, List.length_append]
    simp only [List.length_cons, List.length_nil, Nat.zero_sub, Nat.add_zero]
    congr 3
    omega
  | [first], hmapped =>
    obtain rfl : first = character := hmapped first rfl
    rw [append_cons_left out first [low]] at h ⊢
    obtain ⟨new, heq, hnew⟩ := changeSize_remove alloc h hfits
    refine ⟨new, ?_, hnew⟩
    rw [length_append_singleton] at heq
    simp only [List.length_nil, List.length_cons] at heq ⊢
    rw [heq, Option.map_some]
    simp only [List.length_append, List.length_cons, List.length_nil]
    congr 3
    omega
  | [first, second], hmapped =>
    obtain rfl : first = character := hmapped first rfl
    rw [append_cons_left out first [low]] at h ⊢
    rw [append_cons_left out first [second]]
    have hlength := length_append₃ (out ++ [first]) [low] rest
    rw [length_append_singleton, List.length_singleton] at hlength
    obtain ⟨new, heq, hnew⟩ := h.storeCharacters (List.ne_nil_of_length_pos (by omega)) (out.length + 1) [second]
      (by rw [List.length_singleton]; omega)
    rw [← length_append_singleton out first, take_out, show [second].length = [low].length from rfl, drop_out] at hnew
    refine ⟨new, ?_, hnew⟩
    simp only [List.length_nil, List.length_cons, List.drop_succ_cons, List.drop_zero, heq, Option.map_some]
    simp only [List.length_append, List.length_cons, List.length_nil]
  | first :: second :: third :: tail, hmapped =>
    obtain rfl : first = character := hmapped first rfl
    rw [append_cons_left out first (second :: third :: tail)] at hfits ⊢
    rw [append_cons_left out first [low]] at h ⊢
    obtain ⟨new, heq, hnew⟩ :=
      changeSize_store alloc (second :: third :: tail) (tail.length + 1) h (by simp) (by simp) hfits
    refine ⟨new, ?_, hnew⟩
    rw [length_append_singleton] at heq
    obtain ⟨grown, hgrown, hstore⟩ := Option.bind_eq_some_iff.mp heq
    have hless : tail.length + 2 - 1 = tail.length + 1 := rfl
    simp only [List.length_cons, hless, hgrown, Option.bind_some, List.drop_succ_cons, List.drop_zero, hstore,
      Option.map_some]
    simp only [List.length_append, List.length_cons, List.length_nil]
    congr 3
    omega

end Place

/-! ## A round of the loop -/

section Step

variable {alloc : ContentsAllocator} {map : CharToUniChar} {ctype : CaseType} {mapping : CaseMapping}
  {hasLangCode : Bool} {out piece : List UniChar} {rest : List (List UniChar)}

theorem longCharacter_gt {high low : Nat} : longCharacterForSurrogatePair high low > 0xFFFF := by
  rw [longCharacterForSurrogatePair]
  omega

/-- The character that is read, in contents that begin with the units. -/
theorem characterAt_spec {contents : List UniChar} (hpieces : pieces (piece ++ rest.flatten) = piece :: rest)
    (htake : contents.take (out ++ piece ++ rest.flatten).length = out ++ piece ++ rest.flatten) :
    characterAt contents out.length (out ++ piece ++ rest.flatten).length = characterOf piece := by
  have hread : ∀ k, out.length + k < (out ++ piece ++ rest.flatten).length →
      contents.getD (out.length + k) 0 = (piece ++ rest.flatten).getD k 0 := by
    intro k hk
    have hat : (contents.take (out ++ piece ++ rest.flatten).length)[out.length + k]? = contents[out.length + k]? :=
      List.getElem?_take_of_lt hk
    rw [htake, List.append_assoc, List.getElem?_append_right (Nat.le_add_right _ _), Nat.add_sub_cancel_left] at hat
    rw [List.getD_eq_getElem?_getD, List.getD_eq_getElem?_getD, hat]
  rw [length_append₃] at hread ⊢
  rw [characterAt]
  obtain ⟨-, -, ⟨character, rfl, hlone⟩ | ⟨high, low, rfl, hhigh, hlow⟩⟩ := pieces_eq_cons hpieces
  · have hfirst := hread 0 (by rw [List.length_singleton]; omega)
    rw [Nat.add_zero] at hfirst
    rw [hfirst]
    show (if IsHighSurrogate character.toNat ∧ _ then _ else character.toNat) = character.toNat
    refine if_neg fun ⟨hhigh, hmore, hlow⟩ => ?_
    rw [List.length_singleton] at hmore
    cases hrest : rest.flatten with
    | nil =>
      rw [hrest, List.length_nil] at hmore
      omega
    | cons next units =>
      have hnext := hread 1 (by rw [List.length_singleton]; omega)
      rw [hnext, hrest] at hlow
      exact hlone hhigh next (by rw [hrest]; rfl) hlow
  · have hfirst := hread 0 (by simp only [List.length_cons, List.length_nil]; omega)
    have hnext := hread 1 (by simp only [List.length_cons, List.length_nil]; omega)
    rw [Nat.add_zero] at hfirst
    rw [hfirst, hnext]
    exact if_pos ⟨hhigh, by simp only [List.length_cons, List.length_nil]; omega, hlow⟩

theorem characterOf_gt (hpieces : pieces (piece ++ rest.flatten) = piece :: rest) :
    (∃ character, piece = [character] ∧ ¬characterOf piece > 0xFFFF) ∨
      ∃ high low, piece = [high, low] ∧ characterOf piece > 0xFFFF := by
  obtain ⟨-, -, ⟨character, rfl, -⟩ | ⟨high, low, rfl, -, -⟩⟩ := pieces_eq_cons hpieces
  · refine .inl ⟨character, rfl, ?_⟩
    have hlt := character.toNat_lt
    show ¬character.toNat > 0xFFFF
    omega
  · exact .inr ⟨high, low, rfl, longCharacter_gt⟩

/-- The first mapped character is stored over the character's first unit. -/
theorem storeFirst {string : MutableString} {first : UniChar} {tail units : List UniChar}
    (h : HoldsUnits map string (out ++ (first :: tail) ++ units)) (image : List UniChar) :
    ∃ new character, string.storeCharacters out.length (image.take 1) = some new ∧
      HoldsUnits map new (out ++ (character :: tail) ++ units) ∧ ∀ c ∈ image.head?, c = character := by
  have hne : out ++ (first :: tail) ++ units ≠ [] := by simp
  have hlength := length_append₃ out (first :: tail) units
  rw [List.length_cons] at hlength
  cases image with
  | nil =>
    obtain ⟨new, heq, hnew⟩ := h.storeCharacters hne out.length [] (by
      rw [List.length_nil]
      omega)
    rw [List.length_nil, Nat.add_zero, List.append_nil, List.take_append_drop] at hnew
    exact ⟨new, first, heq, hnew, nofun⟩
  | cons character image =>
    obtain ⟨new, heq, hnew⟩ := h.storeCharacters hne out.length [character] (by
      rw [List.length_singleton]
      omega)
    refine ⟨new, character, heq, ?_, fun c hc => (Option.some.inj hc).symm⟩
    rw [take_out, append_cons_left out first tail, List.append_assoc (out ++ [first]), List.length_singleton,
      ← length_append_singleton out first, List.drop_left, ← List.append_assoc] at hnew
    rw [append_cons_left out character tail]
    exact hnew

/-- A round of the loop replaces the character by what it is mapped to. -/
theorem caseStep_spec {s : CaseState} (h : HoldsUnits map s.string (out ++ piece ++ rest.flatten))
    (hpieces : pieces (piece ++ rest.flatten) = piece :: rest) (hindex : s.currentIndex = out.length)
    (hlength : s.length = (out ++ piece ++ rest.flatten).length)
    (hfits : 6 * (out.length + 8 + rest.flatten.length) + 7 < 2 ^ 64) {flags : Nat} {image : List UniChar}
    (hflags : flagsOf ctype mapping hasLangCode out s.flags piece rest = flags)
    (himage : mapping.mapCaseTo (characterOf piece) flags = image) :
    ∃ s', caseStep alloc map ctype mapping hasLangCode s = some s' ∧
      HoldsUnits map s'.string (out ++ image ++ rest.flatten) ∧ s'.currentIndex = out.length + (image.length - 1) + 1 ∧
      s'.length = (out ++ image ++ rest.flatten).length ∧ s'.flags = flags ∧
      s'.mapped = s.mapped ++ [characterOf piece] := by
  have hle := mapping.length_mapCaseTo (characterOf piece) flags
  rw [himage] at hle
  have hfits' : 6 * (out ++ image ++ rest.flatten).length + 7 < 2 ^ 64 := by
    rw [length_append₃]
    omega
  obtain ⟨first, tail, hpiece⟩ : ∃ first tail, piece = first :: tail := by
    rcases characterOf_gt hpieces with ⟨character, rfl, -⟩ | ⟨high, low, rfl, -⟩
    · exact ⟨character, [], rfl⟩
    · exact ⟨high, [low], rfl⟩
  obtain ⟨contents, hc, htake, -⟩ := h.contents (by rw [hpiece]; simp)
  have hcharacter := characterAt_spec hpieces htake
  obtain ⟨stored, character, hstore, hstored, hfirst⟩ := storeFirst (hpiece ▸ h) image
  have hplaced : ∃ new, placeMapped alloc map stored (characterOf piece) out.length
        (out ++ piece ++ rest.flatten).length image =
          some (new, out.length + (image.length - 1), (out ++ image ++ rest.flatten).length) ∧
      HoldsUnits map new (out ++ image ++ rest.flatten) := by
    rcases characterOf_gt hpieces with ⟨unit, hunit, hshort⟩ | ⟨high, low, hpair, hlong⟩
    · obtain ⟨rfl, rfl⟩ := List.cons.inj (hpiece.symm.trans hunit)
      have hsame : (out ++ piece ++ rest.flatten).length = (out ++ [character] ++ rest.flatten).length := by
        rw [hunit, length_append₃, length_append₃]
        rfl
      rw [hsame]
      exact placeMapped_one hstored hshort hfirst hfits'
    · obtain ⟨rfl, rfl⟩ := List.cons.inj (hpiece.symm.trans hpair)
      have hsame : (out ++ piece ++ rest.flatten).length = (out ++ [character, low] ++ rest.flatten).length := by
        rw [hpair, length_append₃, length_append₃]
        rfl
      rw [hsame]
      exact placeMapped_pair hstored hlong hfirst hfits'
  obtain ⟨new, hplace, hnew⟩ := hplaced
  refine ⟨⟨new, out.length + (image.length - 1) + 1, (out ++ image ++ rest.flatten).length, flags,
    s.mapped ++ [characterOf piece]⟩, ?_, hnew, rfl, rfl, rfl, rfl⟩
  have hflags' : caseFlags ctype mapping hasLangCode (characterOf piece) (out ++ piece ++ rest.flatten) out.length
      s.flags = flags := hflags
  simp only [caseStep, hc, hindex, hlength, hcharacter, htake, hflags', himage, hstore, Option.bind_some, hplace,
    Option.map_some]

end Step

/-! ## The loop -/

section Loop

variable {alloc : ContentsAllocator} {map : CharToUniChar} {ctype : CaseType} {mapping : CaseMapping}
  {hasLangCode : Bool}

theorem caseLoop_done {s : CaseState} (h : s.length ≤ s.currentIndex) (rounds : Nat) :
    caseLoop alloc map ctype mapping hasLangCode rounds s = some s := by
  cases rounds <;> rw [caseLoop, if_neg (by omega)]

/-- Where the loop stands: `out` is what the characters before are mapped to, and
`rest` are those that are left. -/
structure Stands (map : CharToUniChar) (s : CaseState) (out : List UniChar) (rest : List (List UniChar)) : Prop where
  holds : HoldsUnits map s.string (out ++ rest.flatten)
  pieces : pieces rest.flatten = rest
  length : s.length = (out ++ rest.flatten).length
  index : rest ≠ [] → s.currentIndex = out.length
  done : rest = [] → s.length ≤ s.currentIndex
  fits : 6 * (out.length + 8 * rest.flatten.length) + 7 < 2 ^ 64

theorem length_piece_pos {piece : List UniChar} {rest : List (List UniChar)}
    (hpieces : pieces (piece ++ rest.flatten) = piece :: rest) : 0 < piece.length := by
  rcases characterOf_gt hpieces with ⟨_, rfl, -⟩ | ⟨_, _, rfl, -⟩ <;> exact Nat.succ_pos _

/-- A round, from where the loop stands. -/
theorem Stands.step (alloc : ContentsAllocator) (ctype : CaseType) (mapping : CaseMapping) (hasLangCode : Bool)
    {s : CaseState} {out piece : List UniChar} {rest : List (List UniChar)}
    (h : Stands map s out (piece :: rest)) {flags : Nat} {image : List UniChar}
    (hflags : flagsOf ctype mapping hasLangCode out s.flags piece rest = flags)
    (himage : mapping.mapCaseTo (characterOf piece) flags = image) (rounds : Nat) :
    ∃ s', caseLoop alloc map ctype mapping hasLangCode (rounds + 1) s =
        caseLoop alloc map ctype mapping hasLangCode rounds s' ∧
      s'.mapped = s.mapped ++ [characterOf piece] ∧ s'.flags = flags ∧
      s'.currentIndex = out.length + (image.length - 1) + 1 ∧
      s'.length = out.length + image.length + rest.flatten.length ∧
      ((image = [] → rest = []) → Stands map s' (out ++ image) rest) := by
  have hpieces := h.pieces
  have hholds := h.holds
  have hlength := h.length
  have hfits := h.fits
  rw [List.flatten_cons] at hpieces hholds hlength hfits
  rw [← List.append_assoc] at hholds hlength
  have hpos := length_piece_pos hpieces
  rw [List.length_append] at hfits
  have hindex := h.index (List.cons_ne_nil _ _)
  obtain ⟨s', hstep, hholds', hindex', hlength', hflags', hmapped⟩ :=
    @caseStep_spec alloc map ctype mapping hasLangCode out piece rest s hholds hpieces hindex hlength (by omega) flags
      image hflags himage
  have hless : s.currentIndex < s.length := by
    rw [hlength, length_append₃]
    omega
  have hle := mapping.length_mapCaseTo (characterOf piece) flags
  rw [himage] at hle
  refine ⟨s', ?_, hmapped, hflags', hindex', by rw [hlength', length_append₃], fun hlast => ?_⟩
  · rw [caseLoop, if_pos hless, hstep, Option.bind_some]
  · refine ⟨hholds', ?_, hlength', fun hne => ?_, fun hnil => ?_, ?_⟩
    · obtain ⟨-, hrest, -⟩ := pieces_eq_cons hpieces
      exact hrest
    · have himage : image ≠ [] := fun hnil => hne (hlast hnil)
      have hone := List.length_pos_iff.mpr himage
      rw [hindex', List.length_append]
      omega
    · rw [hlength', hindex', hnil, length_append₃]
      simp only [List.flatten_nil, List.length_nil]
      omega
    · rw [List.length_append]
      omega

/-- Where no character but the last is mapped to nothing, the loop maps them all. -/
theorem caseLoop_spec {rest : List (List UniChar)} {rounds : Nat} {s : CaseState} {out : List UniChar}
    (h : Stands map s out rest) (hrounds : rest.flatten.length ≤ rounds)
    (hnone : NoneDropped ctype mapping hasLangCode out s.flags rest) :
    ∃ s', caseLoop alloc map ctype mapping hasLangCode rounds s = some s' ∧ s'.string.WellFormed ∧
      s'.string.characters map = mapPieces ctype mapping hasLangCode out s.flags rest ∧
      s'.mapped = s.mapped ++ rest.map characterOf := by
  induction rest generalizing rounds s out with
  | nil =>
    have hcharacters := h.holds.characters
    rw [List.flatten_nil, List.append_nil] at hcharacters
    exact ⟨s, caseLoop_done (h.done rfl) rounds, h.holds.wellFormed, hcharacters, (List.append_nil _).symm⟩
  | cons piece rest ih =>
    have hpieces := h.pieces
    rw [List.flatten_cons] at hpieces hrounds
    have hpos := length_piece_pos hpieces
    rw [List.length_append] at hrounds
    obtain ⟨rounds, rfl⟩ : ∃ n, rounds = n + 1 := ⟨rounds - 1, by omega⟩
    obtain ⟨s₁, hloop, hmapped, hflags, -, -, hstands⟩ := h.step alloc ctype mapping hasLangCode rfl rfl
      rounds
    rw [NoneDropped] at hnone
    obtain ⟨hlast, hnone⟩ := hnone
    rw [← hflags] at hnone hlast hstands
    obtain ⟨s', heq, hwf, hcharacters, hmapped'⟩ :=
      ih (hstands hlast) (show rest.flatten.length ≤ rounds by omega) hnone
    refine ⟨s', hloop.trans heq, hwf, ?_, ?_⟩
    · rw [hcharacters, mapPieces, ← hflags]
    · rw [hmapped', hmapped, List.append_assoc, List.map_cons, List.singleton_append]

/-- The units of a character. -/
def unitsOf (character : Nat) : Nat := if character > 0xFFFF then 2 else 1

theorem sum_unitsOf {rest : List (List UniChar)} (h : pieces rest.flatten = rest) :
    ((rest.map characterOf).map unitsOf).sum = rest.flatten.length := by
  induction rest with
  | nil => rfl
  | cons piece rest ih =>
    rw [List.flatten_cons] at h
    obtain ⟨-, hrest, -⟩ := pieces_eq_cons h
    rw [List.map_cons, List.map_cons, List.sum_cons, ih hrest, List.flatten_cons, List.length_append, unitsOf]
    rcases characterOf_gt h with ⟨_, rfl, hshort⟩ | ⟨_, _, rfl, hlong⟩
    · rw [if_neg hshort]
      rfl
    · rw [if_pos hlong]
      rfl

theorem placeMapped_index {string new : MutableString} {currentChar currentIndex currentIndex' length length' : Nat}
    {mapped : List UniChar} (hmore : currentIndex + unitsOf currentChar ≤ length)
    (h : placeMapped alloc map string currentChar currentIndex length mapped = some (new, currentIndex', length')) :
    unitsOf currentChar + (length' - (currentIndex' + 1)) ≤ length - currentIndex := by
  rw [placeMapped] at h
  unfold unitsOf at hmore ⊢
  split at h
  · rename_i hlong
    rw [if_pos hlong] at hmore ⊢
    split at h
    · obtain ⟨_, -, heq⟩ := Option.map_eq_some_iff.mp h
      cases heq
      omega
    · obtain ⟨_, -, heq⟩ := Option.map_eq_some_iff.mp h
      cases heq
      omega
    · obtain ⟨_, -, heq⟩ := Option.map_eq_some_iff.mp h
      cases heq
      omega
    · rename_i mappedLength hzero _ _
      have hpos : 0 < mappedLength := Nat.pos_of_ne_zero hzero
      obtain ⟨_, -, hstore⟩ := Option.bind_eq_some_iff.mp h
      obtain ⟨_, -, heq⟩ := Option.map_eq_some_iff.mp hstore
      cases heq
      omega
  · rename_i hshort
    rw [if_neg hshort] at hmore ⊢
    split at h
    · obtain ⟨_, -, heq⟩ := Option.map_eq_some_iff.mp h
      cases heq
      omega
    · cases h
      omega
    · obtain ⟨_, -, hstore⟩ := Option.bind_eq_some_iff.mp h
      obtain ⟨_, -, heq⟩ := Option.map_eq_some_iff.mp hstore
      cases heq
      omega

theorem characterAt_room {contents : List UniChar} {currentIndex length : Nat} (hless : currentIndex < length) :
    currentIndex + unitsOf (characterAt contents currentIndex length) ≤ length := by
  rw [unitsOf, characterAt]
  split
  · rename_i hpair
    rw [if_pos longCharacter_gt]
    omega
  · have hlt := (contents.getD currentIndex 0).toNat_lt
    rw [if_neg (by omega)]
    omega

/-- The loop maps no more characters than there are units. -/
theorem caseLoop_units {rounds : Nat} {s s' : CaseState}
    (h : caseLoop alloc map ctype mapping hasLangCode rounds s = some s') :
    ∃ added, s'.mapped = s.mapped ++ added ∧ (added.map unitsOf).sum ≤ s.length - s.currentIndex := by
  induction rounds generalizing s with
  | zero =>
    rw [caseLoop] at h
    split at h
    · cases h
    · cases h
      exact ⟨[], (List.append_nil _).symm, Nat.zero_le _⟩
  | succ rounds ih =>
    rw [caseLoop] at h
    split at h
    · rename_i hless
      obtain ⟨s₁, hstep, hloop⟩ := Option.bind_eq_some_iff.mp h
      obtain ⟨added, hadded, hsum⟩ := ih hloop
      rw [caseStep] at hstep
      split at hstep
      · cases hstep
      · rename_i contents _
        obtain ⟨_, -, hplace⟩ := Option.bind_eq_some_iff.mp hstep
        obtain ⟨⟨_, currentIndex, length⟩, hplaced, heq⟩ := Option.map_eq_some_iff.mp hplace
        have hunits := placeMapped_index (characterAt_room hless) hplaced
        cases heq
        refine ⟨characterAt contents s.currentIndex s.length :: added, ?_, ?_⟩
        · rw [hadded, List.append_assoc, List.singleton_append]
        · rw [List.map_cons, List.sum_cons]
          dsimp only at hsum
          omega
    · cases h
      exact ⟨[], (List.append_nil _).symm, Nat.zero_le _⟩

/-- Where a character before the last is mapped to nothing, the loop does not map
them all. -/
theorem caseLoop_skips {rest : List (List UniChar)} {rounds : Nat} {s s' : CaseState} {out : List UniChar}
    (h : Stands map s out rest) (hrounds : rest.flatten.length ≤ rounds)
    (hdropped : ¬NoneDropped ctype mapping hasLangCode out s.flags rest)
    (hloop : caseLoop alloc map ctype mapping hasLangCode rounds s = some s') :
    s'.mapped ≠ s.mapped ++ rest.map characterOf := by
  induction rest generalizing rounds s out with
  | nil => exact absurd trivial hdropped
  | cons piece rest ih =>
    have hpieces := h.pieces
    rw [List.flatten_cons] at hpieces hrounds
    have hpos := length_piece_pos hpieces
    rw [List.length_append] at hrounds
    obtain ⟨rounds, rfl⟩ : ∃ n, rounds = n + 1 := ⟨rounds - 1, by omega⟩
    obtain ⟨s₁, hstep, hmapped, hflags, hindex, hlength, hstands⟩ := h.step alloc ctype mapping hasLangCode rfl rfl
      rounds
    rw [hstep] at hloop
    rw [NoneDropped, not_and_or] at hdropped
    rw [← hflags] at hdropped hstands hindex hlength
    rw [List.map_cons, List.append_cons, ← hmapped]
    by_cases hlast : mapping.mapCaseTo (characterOf piece) s₁.flags = [] → rest = []
    · exact ih (hstands hlast) (show rest.flatten.length ≤ rounds by omega)
        (hdropped.resolve_left (Classical.not_not.mpr hlast)) hloop
    · obtain ⟨hnothing, hmore⟩ := Classical.not_imp.mp hlast
      obtain ⟨added, hadded, hsum⟩ := caseLoop_units hloop
      intro hall
      rw [hadded] at hall
      obtain rfl := List.append_cancel_left hall
      obtain ⟨-, hrest, -⟩ := pieces_eq_cons hpieces
      rw [sum_unitsOf hrest, hindex, hlength, hnothing] at hsum
      have hleft : 0 < rest.flatten.length := by
        cases rest with
        | nil => exact absurd rfl hmore
        | cons next rest =>
          rw [List.flatten_cons] at hrest ⊢
          have hpos := length_piece_pos hrest
          rw [List.length_append]
          omega
      simp only [List.length_nil] at hsum
      omega

end Loop

/-! ## Bytes -/

section Bytes

variable {map : CharToUniChar} {ctype : CaseType} {mapping : CaseMapping}

/-- What the loop over bytes leaves of one of them. -/
def asciiCase (ctype : CaseType) (byte : UInt8) : UInt8 := if ctype.changes byte then ctype.changed byte else byte

/-- The loop over bytes goes over ASCII characters, up to the first byte that is none. -/
theorem asciiLoop_spec (ctype : CaseType) (bytes : List UInt8) :
    ∃ ascii rest, bytes = ascii ++ rest ∧ (∀ byte ∈ ascii, byte < 128) ∧
      asciiLoop ctype bytes = (ascii.map (asciiCase ctype) ++ rest, ascii.length) := by
  induction bytes with
  | nil => exact ⟨[], [], rfl, nofun, rfl⟩
  | cons byte bytes ih =>
    obtain ⟨ascii, rest, rfl, hascii, hloop⟩ := ih
    rw [asciiLoop]
    by_cases hchanges : ctype.changes byte = true
    · have hlt : byte < 128 := by
        cases ctype <;> simp only [CaseType.changes, Bool.and_eq_true, decide_eq_true_eq] at hchanges
        · exact UInt8.lt_of_le_of_lt hchanges.2 (by decide)
        · exact UInt8.lt_of_le_of_lt hchanges.2 (by decide)
      refine ⟨byte :: ascii, rest, rfl, List.forall_mem_cons.mpr ⟨hlt, hascii⟩, ?_⟩
      rw [if_pos hchanges, hloop, List.map_cons, asciiCase, if_pos hchanges]
      rfl
    · rw [if_neg hchanges]
      by_cases hhigh : byte > 127
      · rw [if_pos hhigh]
        exact ⟨[], byte :: (ascii ++ rest), rfl, nofun, rfl⟩
      · have hlt : byte < 128 := by
          rw [gt_iff_lt, UInt8.not_lt, UInt8.le_iff_toNat_le] at hhigh
          rw [UInt8.lt_iff_toNat_lt]
          exact Nat.lt_succ_of_le hhigh
        refine ⟨byte :: ascii, rest, rfl, List.forall_mem_cons.mpr ⟨hlt, hascii⟩, ?_⟩
        rw [if_neg hhigh, hloop, List.map_cons, asciiCase, if_neg hchanges]
        rfl

theorem toNat_lt_128 {byte : UInt8} (h : byte < 128) : byte.toNat < 128 := by
  rwa [UInt8.lt_iff_toNat_lt] at h

/-- What holds of every ASCII character by going through them. -/
theorem forall_ascii {p : UInt8 → Prop} (h : ∀ n : Fin 128, p (UInt8.ofNat n)) {byte : UInt8} (hbyte : byte < 128) :
    p byte := by
  have hat := h ⟨byte.toNat, toNat_lt_128 hbyte⟩
  rwa [UInt8.ofNat_toNat] at hat

theorem asciiCase_lt {byte : UInt8} (h : byte < 128) : asciiCase ctype byte < 128 := by
  refine @forall_ascii (fun byte => asciiCase ctype byte < 128) ?_ byte h
  cases ctype <;> decide +kernel

/-- The case mapping of ASCII characters, in no language. -/
def MapsAscii (ctype : CaseType) (mapping : CaseMapping) : Prop :=
  ∀ byte : UInt8, byte < 128 → mapping.mapCaseTo byte.toNat 0 = [(asciiCase ctype byte).toUInt16]

/-- ASCII characters are mapped one by one, with no flags. -/
theorem pieces_ascii {ascii : List UInt8} (hascii : ∀ byte ∈ ascii, byte < 128) (units : List UniChar) :
    pieces (ascii.map UInt8.toUInt16 ++ units) = ascii.map (fun byte => [byte.toUInt16]) ++ pieces units := by
  induction ascii with
  | nil => rfl
  | cons byte ascii ih =>
    obtain ⟨hbyte, hrest⟩ := List.forall_mem_cons.mp hascii
    have hhigh : ¬IsHighSurrogate byte.toUInt16.toNat := by
      have hlt := toUInt16_lt byte
      unfold IsHighSurrogate
      omega
    rw [List.map_cons, List.map_cons, List.cons_append, List.cons_append, ← ih hrest]
    cases ascii.map UInt8.toUInt16 ++ units with
    | nil => rfl
    | cons next units => rw [pieces, if_neg fun h => hhigh h.1]

theorem flagsOf_ascii {byte : UInt8} (h : byte < 128) (out : List UniChar) (rest : List (List UniChar)) :
    flagsOf ctype mapping false out 0 [byte.toUInt16] rest = 0 := by
  have hne : (byte.toNat == 0x03A3) = false := by
    have hlt := toNat_lt_128 h
    rw [beq_eq_false_iff_ne]
    omega
  cases ctype
  · show (if (false || byte.toUInt16.toNat == 0x03A3) = true then _ else 0) = 0
    rw [UInt8.toNat_toUInt16, hne, Bool.or_false, if_neg Bool.false_ne_true]
  · rfl

theorem map_ascii (hmaps : MapsAscii ctype mapping) {ascii : List UInt8} (hascii : ∀ byte ∈ ascii, byte < 128)
    (out : List UniChar) (rest : List (List UniChar)) :
    mapPieces ctype mapping false out 0 (ascii.map (fun byte => [byte.toUInt16]) ++ rest) =
        mapPieces ctype mapping false (out ++ ascii.map fun byte => (asciiCase ctype byte).toUInt16) 0 rest ∧
      (NoneDropped ctype mapping false out 0 (ascii.map (fun byte => [byte.toUInt16]) ++ rest) ↔
        NoneDropped ctype mapping false (out ++ ascii.map fun byte => (asciiCase ctype byte).toUInt16) 0 rest) := by
  induction ascii generalizing out with
  | nil => rw [List.map_nil, List.map_nil, List.nil_append, List.append_nil]; exact ⟨rfl, Iff.rfl⟩
  | cons byte ascii ih =>
    obtain ⟨hbyte, hrest⟩ := List.forall_mem_cons.mp hascii
    have himage : mapping.mapCaseTo (characterOf [byte.toUInt16]) 0 = [(asciiCase ctype byte).toUInt16] := by
      show mapping.mapCaseTo byte.toUInt16.toNat 0 = _
      rw [UInt8.toNat_toUInt16]
      exact hmaps byte hbyte
    obtain ⟨hmap, hnone⟩ := ih hrest (out ++ [(asciiCase ctype byte).toUInt16])
    have hout : out ++ ((asciiCase ctype byte).toUInt16 :: ascii.map fun byte => (asciiCase ctype byte).toUInt16) =
        (out ++ [(asciiCase ctype byte).toUInt16]) ++ ascii.map fun byte => (asciiCase ctype byte).toUInt16 :=
      List.append_cons _ _ _
    simp only [List.map_cons, List.cons_append, mapPieces, NoneDropped, flagsOf_ascii hbyte, himage, hout]
    exact ⟨hmap, (and_iff_right nofun).trans hnone⟩

/-- A string of bytes in which the characters are changed. -/
theorem setBytes (map : CharToUniChar) {string : MutableString} (h : string.WellFormed) {bytes changed : List UInt8}
    (hc : string.contents = .eightBit bytes) (hlength : changed.length = string.length) :
    { string with contents := .eightBit (bytes.take string.skipAnyLengthByte ++ changed ++
        bytes.drop (string.skipAnyLengthByte + string.length)) }.WellFormed ∧
      CFString.characters map { string with contents := .eightBit (bytes.take string.skipAnyLengthByte ++ changed ++
        bytes.drop (string.skipAnyLengthByte + string.length)) }.toCFString = changed.map map.table := by
  have hholds := h.string.holds
  have hcapacity := h.capacity
  have hlengthByte := h.string.lengthByte
  have hnullByte := h.string.nullByte
  rw [hc, h.getLength] at hholds
  rw [hc] at hcapacity hlengthByte
  rw [h.getLength] at hlengthByte
  dsimp only at hholds hcapacity
  have hwritten := @length_written _ bytes changed string.skipAnyLengthByte (by omega)
  have hget := @getElem?_written _ bytes changed string.skipAnyLengthByte (by omega)
  rw [hlength] at hwritten hget
  have hdrop : ((bytes.take string.skipAnyLengthByte ++ changed ++
      bytes.drop (string.skipAnyLengthByte + string.length)).drop string.skipAnyLengthByte).take string.length =
        changed := by
    have hskip : (bytes.take string.skipAnyLengthByte).length = string.skipAnyLengthByte := by
      rw [List.length_take]
      omega
    rw [List.append_assoc, List.drop_left' hskip, ← hlength, List.take_left]
  generalize bytes.take string.skipAnyLengthByte ++ changed ++
    bytes.drop (string.skipAnyLengthByte + string.length) = written at hwritten hget hdrop ⊢
  have hnew : { string with contents := .eightBit written }.WellFormed := by
    have height : string.isUnicode = false := by rw [CFString.isUnicode, hc]
    refine MutableString.wellFormed_eightBit h.isMutable (h.string.not_inline h.isMutable) rfl h.nullByte ?_
      (hwritten.trans hcapacity) (fun hbyte => ?_) fun hbyte => ?_
    · by_contra hexternal
      rw [h.external (by simpa using hexternal)] at height
      cases height
    · by_contra hpos
      have hsome := h.lengthByte height (Nat.pos_of_ne_zero hpos)
      exact Bool.false_ne_true (hbyte.symm.trans hsome)
    · have hbyte : string.hasLengthByte = true := hbyte
      have hskip : string.skipAnyLengthByte = 1 := by rw [CFString.skipAnyLengthByte, hbyte, if_pos rfl]
      rw [hskip] at hget
      refine ⟨fun hfits => ?_, ?_⟩
      · have hfirst := hlengthByte hbyte hfits
        have hsame := hget 0
        rw [if_neg (by omega)] at hsame
        rw [List.headD_eq_head?_getD, List.head?_eq_getElem?, hsame, ← List.head?_eq_getElem?,
          ← List.headD_eq_head?_getD]
        exact hfirst
      · show written[1 + string.length]? = some 0
        rw [hget, if_neg (by omega)]
        have hnull := hnullByte bytes hc (h.nullByte.trans hbyte)
        rwa [hskip, h.getLength] at hnull
  refine ⟨hnew, ?_⟩
  rw [hnew.characters_eightBit rfl]
  show ((written.drop string.skipAnyLengthByte).take string.length).map map.table = _
  rw [hdrop]

end Bytes

/-! ## Whole strings -/

/-- What changing the case is to do: every character is mapped once, in order, and
the string becomes what they are mapped to. -/
def ChangesCase (alloc : ContentsAllocator) (map : CharToUniChar) (ctype : CaseType) (mapping : CaseMapping)
    (hasLangCode : Bool) (string : MutableString) : Prop :=
  ∃ new mapped, changeCase alloc map ctype mapping hasLangCode string = some (new, mapped) ∧
    new.characters map = mapCase ctype mapping hasLangCode (string.characters map) ∧
    mapped = charactersOf (string.characters map)

section Whole

variable {alloc : ContentsAllocator} {map : CharToUniChar} {ctype : CaseType} {mapping : CaseMapping}
  {hasLangCode : Bool} {string : MutableString}

/-- The general path, from the character where the loop over bytes ended. -/
theorem generalPath_iff (alloc : ContentsAllocator) (ctype : CaseType) (mapping : CaseMapping) (hasLangCode : Bool)
    (h : string.WellFormed) {out : List UniChar} {rest : List (List UniChar)}
    (hcharacters : string.characters map = out ++ rest.flatten) (hpieces : pieces rest.flatten = rest)
    (hfits : 48 * string.length + 7 < 2 ^ 64) (before : List Nat) :
    (∃ new mapped, (if out.length < string.length then
          (if (!string.isUnicode) = true then string.changeSize alloc map ⟨0, 0⟩ 0 true
            else some string).bind fun string' =>
          (caseLoop alloc map ctype mapping hasLangCode (string.length - out.length)
            ⟨string', out.length, string.length, 0, before⟩).map fun s => (s.string, s.mapped)
        else some (string, before)) = some (new, mapped) ∧
      new.characters map = mapPieces ctype mapping hasLangCode out 0 rest ∧
      mapped = before ++ rest.map characterOf) ↔ NoneDropped ctype mapping hasLangCode out 0 rest := by
  have hlength : string.length = (out ++ rest.flatten).length := by
    rw [← hcharacters, h.string.length_characters, h.getLength]
  by_cases hmore : out.length < string.length
  · rw [if_pos hmore]
    obtain ⟨wide, hwide, hholds⟩ : ∃ wide,
        (if (!string.isUnicode) = true then string.changeSize alloc map ⟨0, 0⟩ 0 true else some string) = some wide ∧
          HoldsUnits map wide (out ++ rest.flatten) := by
      by_cases hunicode : string.isUnicode = true
      · rw [hunicode]
        exact ⟨string, rfl, h, hcharacters, fun _ => hunicode⟩
      · rw [if_pos (by rw [Bool.eq_false_iff.mpr hunicode]; rfl)]
        obtain ⟨new, heq, hnew, hsame, ⟨gap, hgap, hspliced⟩, hwide⟩ :=
          MutableString.changeSize_spec alloc map h ⟨0, 0⟩ 0 (Nat.zero_le _) true (by dsimp only; omega)
        refine ⟨new, heq, hnew, ?_, fun _ => ?_⟩
        · rw [hspliced, List.length_eq_zero_iff.mp hgap, hcharacters]
          rfl
        · rw [hwide (by rw [hsame]; dsimp only; omega)]
          rfl
    have hpos : rest ≠ [] := by
      rintro rfl
      rw [List.flatten_nil, List.append_nil] at hlength
      omega
    have hstands : Stands map ⟨wide, out.length, string.length, 0, before⟩ out rest := by
      refine ⟨hholds, hpieces, hlength, fun _ => rfl, fun hnil => absurd hnil hpos, ?_⟩
      rw [List.length_append] at hlength
      omega
    have hrounds : rest.flatten.length ≤ string.length - out.length := by
      rw [List.length_append] at hlength
      omega
    simp only [hwide, Option.bind_some]
    constructor
    · rintro ⟨new, mapped, heq, -, hmapped⟩
      by_contra hdropped
      obtain ⟨s', hloop, hpair⟩ := Option.map_eq_some_iff.mp heq
      obtain ⟨-, rfl⟩ := Prod.mk.inj hpair
      exact caseLoop_skips hstands hrounds hdropped hloop hmapped
    · intro hnone
      obtain ⟨s', hloop, -, hresult, hmapped⟩ := caseLoop_spec hstands hrounds hnone
      exact ⟨s'.string, s'.mapped, by rw [hloop]; rfl, hresult, hmapped⟩
  · rw [if_neg hmore]
    have hnil : rest = [] := by
      have hempty : rest.flatten = [] := by
        rw [List.length_append] at hlength
        exact List.length_eq_zero_iff.mp (by omega)
      rw [← hpieces, hempty]
      rfl
    subst hnil
    rw [List.flatten_nil, List.append_nil] at hcharacters
    exact iff_of_true ⟨string, before, rfl, hcharacters, (List.append_nil _).symm⟩ trivial

/-- Each character is mapped in order, once, unless one before the last is mapped
to nothing. -/
theorem changesCase_iff {target : DeploymentTarget} (alloc : ContentsAllocator) (hm : map.Reachable target)
    (ctype : CaseType) (mapping : CaseMapping) (hasLangCode : Bool)
    (hmaps : hasLangCode = false → MapsAscii ctype mapping) (h : string.WellFormed)
    (hfits : 48 * string.length + 7 < 2 ^ 64) :
    ChangesCase alloc map ctype mapping hasLangCode string ↔
      NoneDropped ctype mapping hasLangCode [] 0 (pieces (string.characters map)) := by
  have hgeneral := @generalPath_iff map string alloc ctype mapping hasLangCode h [] (pieces (string.characters map))
    (by rw [flatten_pieces]; rfl) (by rw [flatten_pieces]) hfits []
  unfold ChangesCase changeCase
  cases hc : string.contents with
  | unicode characters =>
    cases hasLangCode <;> exact hgeneral
  | eightBit bytes =>
    cases hasLangCode with
    | true => exact hgeneral
    | false =>
      clear hgeneral
      have hholds := h.string.holds
      rw [hc, h.getLength] at hholds
      dsimp only at hholds
      have hcharacters := @MutableString.WellFormed.characters_eightBit _ h map _ hc
      have hlength : ((bytes.drop string.skipAnyLengthByte).take string.length).length = string.length := by
        rw [List.length_take, List.length_drop]
        omega
      obtain ⟨ascii, rest, hbytes, hascii, hloop⟩ :=
        asciiLoop_spec ctype ((bytes.drop string.skipAnyLengthByte).take string.length)
      rw [hbytes] at hcharacters hlength hloop
      have hchanged : (ascii.map (asciiCase ctype) ++ rest).length = string.length := by
        rw [← hlength, List.length_append, List.length_append, List.length_map]
      obtain ⟨hwf, hnew⟩ := setBytes map h hc hchanged
      have hout : (ascii.map fun byte => (asciiCase ctype byte).toUInt16).length = ascii.length := List.length_map _
      have htable : (ascii.map (asciiCase ctype)).map map.table =
          ascii.map fun byte => (asciiCase ctype byte).toUInt16 := by
        rw [List.map_map]
        exact List.map_congr_left fun byte hbyte => hm.table_ascii (asciiCase_lt (hascii byte hbyte))
      have hsource : ascii.map map.table = ascii.map UInt8.toUInt16 :=
        List.map_congr_left fun byte hbyte => hm.table_ascii (hascii byte hbyte)
      rw [List.map_append, htable] at hnew
      rw [List.map_append, hsource] at hcharacters
      obtain ⟨hmapped, hdropped⟩ := map_ascii (hmaps rfl) hascii [] (pieces (rest.map map.table))
      have hgeneral := @generalPath_iff map _ alloc ctype mapping false hwf
        (ascii.map fun byte => (asciiCase ctype byte).toUInt16) (pieces (rest.map map.table))
        (by rw [flatten_pieces]; exact hnew) (by rw [flatten_pieces]) hfits (ascii.map UInt8.toNat)
      rw [List.nil_append] at hmapped hdropped
      rw [mapCase, charactersOf, hcharacters, pieces_ascii hascii, hmapped, hdropped, List.map_append]
      have hnats : (ascii.map fun byte => [byte.toUInt16]).map characterOf = ascii.map UInt8.toNat := by
        rw [List.map_map]
        exact List.map_congr_left fun byte _ => UInt8.toNat_toUInt16 byte
      rw [hnats, ← hgeneral]
      have height : string.isUnicode = false := by rw [CFString.isUnicode, hc]
      simp only [hbytes, hloop, hout, List.take_left, height]
      exact Iff.rfl

end Whole

/-- Uppercase in Lithuanian, as far as it takes the dot above from an "i". -/
def lithuanianUppercase : CaseMapping where
  mapCaseTo theChar flags :=
    if theChar = 0x0307 ∧ flags = 2 then []
    else if 0x61 ≤ theChar ∧ theChar ≤ 0x7A then [UInt16.ofNat (theChar - 0x20)]
    else [UInt16.ofNat theChar]
  length_mapCaseTo theChar flags := by
    split
    · exact Nat.zero_le _
    · split <;> exact Nat.le_add_left 1 7
  conditionalFlags theChar contents currentIndex flags :=
    if theChar = 0x69 then if contents.getD (currentIndex + 1) 0 = 0x0307 then 6 else 0
    else if theChar = 0x0307 ∧ flags = 6 then 2
    else 0

theorem mapsAscii_lithuanian : MapsAscii .toUppercase lithuanianUppercase := by
  intro byte hbyte
  refine @forall_ascii (fun byte => lithuanianUppercase.mapCaseTo byte.toNat 0 =
    [(asciiCase .toUppercase byte).toUInt16]) ?_ byte hbyte
  decide +kernel

/-- "ab" in bytes. -/
def lettersMutable : MutableString :=
  { emptyMutable with
    contents := .eightBit [2, 0x61, 0x62, 0]
    length := 2
    capacity := 4
    hasLengthByte := true
    hasNullByte := true }

theorem changesCase_iff_letters :
    ChangesCase exactAllocator CharToUniChar.initial .toUppercase lithuanianUppercase false lettersMutable ↔
      NoneDropped .toUppercase lithuanianUppercase false [] 0
        (pieces (lettersMutable.characters CharToUniChar.initial)) :=
  changesCase_iff exactAllocator (@CharToUniChar.Reachable.initial .linux) .toUppercase lithuanianUppercase false
    (fun _ => mapsAscii_lithuanian)
    (MutableString.wellFormed_eightBit rfl rfl rfl rfl rfl rfl nofun fun _ => ⟨fun _ => rfl, rfl⟩) (by decide)

/-- "i" with a dot above, and "x": the dot goes, and the "x" is passed over. -/
theorem changesCase_dot :
    ¬ChangesCase exactAllocator CharToUniChar.initial .toUppercase lithuanianUppercase true
      { emptyMutable with contents := .unicode [0x69, 0x0307, 0x78], length := 3, capacity := 6 } := by
  rintro ⟨new, mapped, heq, -, hmapped⟩
  have hlog : some [0x69, 0x0307] = some mapped := congrArg (Option.map Prod.snd) heq
  rw [← Option.some.inj hlog] at hmapped
  exact absurd hmapped (by decide)

end CaseChange

end CFLite.Strings
