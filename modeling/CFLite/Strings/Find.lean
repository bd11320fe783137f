import CFLite.Strings.Comparison

/-!
# The search in strings

`CFStringFindWithOptionsAndLocale` tries the positions of a range one after the
other, forwards or backwards, by one of three loops: over bytes where both strings
have C string pointers, over folded characters where the options ask for it, and
over units. `CFStringCreateArrayWithFindResults` and `CFStringFindAndReplace`
search again in what is left of the range.

* `Search.attemptBytes`, `Search.attemptUnicode`, `Search.attemptLiteral`: an
  attempt at a position;
* `findWithOptionsAndLocale`, `createArrayWithFindResults`, `findAndReplace`.
-/

namespace CFLite.Strings

open Framework

/-- `CFRange`, whose length can be less than 0 here. -/
structure SearchRange where
  location : Int
  length : Int
  deriving DecidableEq

/-- `CFRangeMake(location, end - location)` -/
def SearchRange.upTo (location limit : Int) : SearchRange := ⟨location, limit - location⟩

@[simp] theorem SearchRange.upTo_end (location limit : Int) :
    (SearchRange.upTo location limit).location + (SearchRange.upTo location limit).length = limit :=
  add_sub_cancel location limit

/-- The Unicode property data of a search: with that of the folding, the set of the
characters that `kCFCompareIgnoreNonAlphanumeric` ignores, the combining property of
a unit, and `CFStringGetRangeOfCharacterClusterAtIndex` for grapheme clusters. -/
structure SearchTables extends UnicodeTables where
  nonAlphanumeric : Nat → Bool
  combiningProperty : UniChar → Nat
  rangeOfGraphemeCluster : List UniChar → (charIndex : Int) → SearchRange

/-- What a search works with: the options, what is read through the two inline
buffers, `rangeToSearch` and the length of `stringToFind`. -/
structure Search where
  tables : SearchTables
  flags : CompareFlags
  langCode : Option LangCode
  characters : List UniChar
  access1 : Int → UniChar
  access2 : Int → UniChar
  rangeToSearch : SearchRange
  findStrLen : Int

/-- What becomes of the attempt at a position: a match that ends at an index, the
end of the search without a match, or the next position. -/
inductive Attempt where
  | found (str1Index : Int)
  | stop
  | next
  deriving DecidableEq

namespace Search

variable (s : Search)

def maxStr1Index : Int := s.rangeToSearch.location + s.rangeToSearch.length

def lengthVariants : Bool :=
  s.flags.caseInsensitive || s.flags.nonliteral || s.flags.diacriticInsensitive || s.flags.ignoreNonAlphanumeric

def equalityOptions : Bool := s.lengthVariants || s.flags.widthInsensitive

def forwardAnchor : Bool := s.flags.anchored && !s.flags.backwards

def backwardAnchor : Bool := s.flags.anchored && s.flags.backwards

/-- Whether there are `ignoredChars` and the character is one of them. -/
def ignores (character : Nat) : Bool := s.flags.ignoreNonAlphanumeric && s.tables.nonAlphanumeric character

/-- The first position. -/
def fromLoc : Int :=
  if s.flags.backwards then s.maxStr1Index - (if s.lengthVariants then 1 else s.findStrLen)
  else s.rangeToSearch.location

/-- The last position. -/
def toLoc : Int :=
  if s.flags.backwards then
    if s.flags.anchored && !s.lengthVariants then s.fromLoc else s.rangeToSearch.location
  else if s.flags.anchored then s.fromLoc
  else s.maxStr1Index - (if s.lengthVariants then 1 else s.findStrLen)

def delta : Int := if s.fromLoc ≤ s.toLoc then 1 else -1

/-- `__CFStringFoldCharacterClusterAtIndex`, in a string that is read up to `limit`. -/
def foldAt (access : Int → UniChar) (limit index : Int) (character : Nat) : List Nat × Nat :=
  foldCharacterClusterAtIndex s.tables.toUnicodeTables s.flags s.langCode (fun k => access (index + k))
    (limit - index).toNat character

/-- Past the ignored characters from an index on. Surrogates are joined where
`join` says so. -/
def skipIgnored (join : Bool) (access : Int → UniChar) (limit : Int) : (n : Nat) → (index : Int) → Int
  | 0, index => index
  | n + 1, index =>
    if index < limit then
      let (character, count) :=
        if join then characterAt (fun k => access (index + k)) 0 else ((access index).toNat, 1)
      if s.ignores character then skipIgnored join access limit n (index + count) else index
    else index

/-- `stringToFind`'s tail, when the text has come to its end. -/
def skipTail (join : Bool) (str1Index str2Index : Int) : Int :=
  if s.flags.ignoreNonAlphanumeric ∧ str1Index = s.maxStr1Index ∧ str2Index < s.findStrLen then
    s.skipIgnored join s.access2 s.findStrLen (s.findStrLen - str2Index).toNat str2Index
  else str2Index

/-- The anchor's tail, and what the attempt comes to. -/
def finish (join : Bool) (str1Index : Int) : Attempt :=
  let str1Index :=
    if s.flags.ignoreNonAlphanumeric ∧ s.backwardAnchor = true ∧ str1Index < s.maxStr1Index then
      s.skipIgnored join s.access1 s.maxStr1Index (s.maxStr1Index - str1Index).toNat str1Index
    else str1Index
  if s.backwardAnchor = false ∨ str1Index = s.maxStr1Index then .found str1Index else .stop

/-! ## The loop over bytes -/

/-- The character that a call of `__CFStringFoldCharacterClusterAtIndex` without
marks comes to. -/
def baseCharacter (access : Int → UniChar) (index : Int) (character : Nat) : Nat :=
  let next (k : Nat) := access (index + k)
  let cluster : Cluster := ⟨character, [], 1, false⟩
  if character < 0x0080 ∧ (s.langCode = none ∨ character ≠ 'I'.toNat) then
    if s.flags.caseInsensitive then smallLetter character else character
  else
    let (cluster, planeNo) := mapSurrogates next (character >>> 16) (mapWidth s.tables.toUnicodeTables s.flags cluster)
    (foldCase s.tables.toUnicodeTables s.flags s.langCode next planeNo
      (decompose s.tables.toUnicodeTables s.flags planeNo cluster)).character

/-- `*outCharacters` after a call that filled in nothing. -/
def outCharacter (access : Int → UniChar) (index : Int) (character strBuf : Nat) : Nat :=
  if character ≠ 0 ∧ (s.flags.diacriticInsensitive || s.flags.nonliteral) = true then
    s.baseCharacter access index character
  else strBuf

/-- A byte that differs: the character that is looked up in `ignoredChars`, and
what the byte is folded to. -/
def foldByte (access : Int → UniChar) (limit index : Int) (byte : Nat) : Nat × List Nat :=
  if byte < 0x80 ∧ (s.langCode = none ∨ byte ≠ 'I'.toNat) then
    let byte := if s.flags.caseInsensitive then smallLetter byte else byte
    (byte, [byte])
  else
    let character := (access index).toNat
    let (strBuf, _) := s.foldAt access limit index character
    (if byte < 0x80 then byte else character, if strBuf = [] then [character] else strBuf)

/-- What is left of the longer buffer, against the characters after the one at
`index` of the other string: each has to be the character left, and to fold to
nothing. The characters are read at `read`. -/
def expand (access : Int → UniChar) (limit : Int) (read : Int → Int) :
    (characters : List Nat) → (index : Int) → (strBuf : Nat) → Int × Bool
  | [], index, _ => (index, true)
  | character :: characters, index, strBuf =>
    let nextCharacter := (access (read index)).toNat
    let (filled, _) := s.foldAt access limit (index + 1) nextCharacter
    let strBuf := s.outCharacter access (index + 1) nextCharacter strBuf
    if filled ≠ [] ∨ character ≠ strBuf then (index, false)
    else expand access limit read characters (index + 1) strBuf

/-- A round of the loop over bytes: where the indexes are, at a `break` or at the
next round. -/
def byteStep (str1Bytes str2Bytes : List UInt8) (fromLoc str1Index str2Index : Int) : (Int × Int) ⊕ (Int × Int) :=
  let str1Byte := (str1Bytes.getD str1Index.toNat 0).toNat
  let str2Byte := (str2Bytes.getD str2Index.toNat 0).toNat
  if str1Byte = str2Byte then .inr (str1Index + 1, str2Index + 1)
  else if s.equalityOptions = false then .inl (str1Index, str2Index)
  else
    let (str1Char, strBuf1) := s.foldByte s.access1 s.maxStr1Index str1Index str1Byte
    if (s.forwardAnchor = true ∨ str1Index ≠ fromLoc) ∧ s.ignores str1Char = true then
      .inr (str1Index + 1, str2Index)
    else
      let (str2Char, strBuf2) := s.foldByte s.access2 s.findStrLen str2Index str2Byte
      if s.ignores str2Char then .inr (str1Index, str2Index + 1)
      else if strBuf1.length = 1 ∧ strBuf2.length = 1 then
        -- normal case
        if strBuf1 ≠ strBuf2 then .inl (str1Index, str2Index) else .inr (str1Index + 1, str2Index + 1)
      else if s.flags.caseInsensitive = false ∧ strBuf1.length ≠ strBuf2.length then .inl (str1Index, str2Index)
      else if strBuf1.take (min strBuf1.length strBuf2.length) ≠ strBuf2.take (min strBuf1.length strBuf2.length) then
        .inl (str1Index, str2Index)
      else if strBuf1.length < strBuf2.length then
        if str1Index + strBuf2.length > s.maxStr1Index then .inl (str1Index, str2Index)
        else
          let (str1Index, all) := s.expand s.access1 s.maxStr1Index (· + 1) (strBuf2.drop strBuf1.length) str1Index
            (strBuf1.headD 0)
          if all then .inr (str1Index + 1, str2Index + 1) else .inl (str1Index, str2Index)
      else if strBuf2.length < strBuf1.length then
        if str2Index + strBuf1.length > s.findStrLen then .inl (str1Index, str2Index)
        else
          -- the characters are read at the index in the text
          let (str2Index, all) := s.expand s.access2 s.findStrLen (fun _ => str1Index + 1)
            (strBuf1.drop strBuf2.length) str2Index (strBuf2.headD 0)
          if all then .inr (str1Index + 1, str2Index + 1) else .inl (str1Index, str2Index)
      else .inr (str1Index + 1, str2Index + 1)

/-- The loop over bytes, none where the rounds do not suffice. -/
def byteLoop (str1Bytes str2Bytes : List UInt8) (fromLoc : Int) :
    (rounds : Nat) → (str1Index str2Index : Int) → Option (Int × Int)
  | 0, _, _ => none
  | rounds + 1, str1Index, str2Index =>
    if str1Index < s.maxStr1Index ∧ str2Index < s.findStrLen then
      match s.byteStep str1Bytes str2Bytes fromLoc str1Index str2Index with
      | .inl indexes => some indexes
      | .inr (str1Index, str2Index) => byteLoop str1Bytes str2Bytes fromLoc rounds str1Index str2Index
    else some (str1Index, str2Index)

/-- The attempt at a position where both strings have C string pointers. -/
def attemptBytes (str1Bytes str2Bytes : List UInt8) (rounds : Nat) (fromLoc : Int) : Option Attempt :=
  (s.byteLoop str1Bytes str2Bytes fromLoc rounds fromLoc 0).map fun (str1Index, str2Index) =>
    if s.skipTail false str1Index str2Index = s.findStrLen then s.finish false str1Index else .next

/-! ## The loop over folded characters -/

/-- Where the loop is in one of the strings: `strBuf` up to `strBufLen` holds the
characters that the one at `index` was folded to. -/
structure Cursor where
  index : Int
  strBuf : List Nat
  strBufIndex : Nat
  usedLen : Nat
  deriving DecidableEq

/-- The next character of a string. -/
def read (access : Int → UniChar) (cursor : Cursor) : Nat × Cursor :=
  if cursor.strBuf = [] then
    let character := (access cursor.index).toNat
    (if s.flags.caseInsensitive = true ∧ (s.langCode = none ∨ character ≠ 'I'.toNat) then smallLetter character
      else character, { cursor with usedLen := 1 })
  else (cursor.strBuf.getD cursor.strBufIndex 0, { cursor with strBufIndex := cursor.strBufIndex + 1 })

/-- A high surrogate joined with the low one after it. -/
def Cursor.join (access : Int → UniChar) (character : Nat) (cursor : Cursor) : Nat × Cursor :=
  let otherChar := (access (cursor.index + 1)).toNat
  if IsHighSurrogate character ∧ IsLowSurrogate otherChar then
    (longCharacterForSurrogatePair character otherChar, { cursor with usedLen := 2 })
  else (character, cursor)

/-- The end of a round: past the character, unless more of its buffer is left. -/
def Cursor.advance (cursor : Cursor) : Cursor :=
  let cursor :=
    if cursor.strBuf ≠ [] ∧ cursor.strBufIndex = cursor.strBuf.length then { cursor with strBuf := [] } else cursor
  if cursor.strBuf = [] then { cursor with index := cursor.index + cursor.usedLen } else cursor

/-- A character taken from the buffer, put back. -/
def Cursor.unread (cursor : Cursor) : Cursor :=
  if cursor.strBuf ≠ [] then { cursor with strBufIndex := cursor.strBufIndex - 1 } else cursor

/-- Whether a character is a mark to skip. -/
def isSkipped (character : Nat) (cursor : Cursor) : Bool :=
  cursor.strBuf = [] && s.tables.isMember .graphemeExtend (character >>> 16) character

/-- The marks that one string has and the other has not: the other one's index is
moved back by what the end of the round adds. -/
def skipMarks (fromLoc : Int) (str1Char str2Char : Nat) (cursor1 cursor2 : Cursor) :
    (Nat × Cursor) × (Nat × Cursor) :=
  if s.flags.diacriticInsensitive = true ∧ cursor1.index > fromLoc then
    let str1Skip := s.isSkipped str1Char cursor1
    let str2Skip := s.isSkipped str2Char cursor2
    let str1Char := if str1Skip then str2Char else str1Char
    let str2Char := if str2Skip then str1Char else str2Char
    let cursor2 :=
      if str1Skip && !str2Skip then { cursor2 with index := cursor2.index - cursor2.usedLen } else cursor2
    let cursor1 :=
      if str2Skip && !str1Skip then { cursor1 with index := cursor1.index - cursor1.usedLen } else cursor1
    ((str1Char, cursor1), (str2Char, cursor2))
  else ((str1Char, cursor1), (str2Char, cursor2))

/-- The character folded. -/
def fold (access : Int → UniChar) (limit : Int) (character : Nat) (cursor : Cursor) : Nat × Cursor :=
  let (strBuf, usedLen) := s.foldAt access limit cursor.index character
  match strBuf with
  | [] => (character, cursor)
  | folded :: _ => (folded, { cursor with strBuf, strBufIndex := 1, usedLen })

/-- Two characters that differ, folded: where the cursors are, at a `break` or
where they fold to the same. -/
def foldBoth (str1Char str2Char : Nat) (cursor1 cursor2 : Cursor) : (Cursor × Cursor) ⊕ (Cursor × Cursor) :=
  let (str1Char, cursor1) :=
    if cursor1.strBuf = [] then s.fold s.access1 s.maxStr1Index str1Char cursor1 else (str1Char, cursor1)
  if cursor1.strBuf = [] ∧ cursor2.strBuf ≠ [] then .inl (cursor1, cursor2)
  else if cursor2.strBuf = [] ∧ (cursor1.strBuf = [] ∨ str1Char ≠ str2Char) then
    let (str2Char, cursor2) := s.fold s.access2 s.findStrLen str2Char cursor2
    if cursor2.strBuf = [] ∨ str1Char ≠ str2Char then .inl (cursor1, cursor2) else .inr (cursor1, cursor2)
  else .inr (cursor1, cursor2)

/-- What is left of two buffers, compared. -/
def compareLeft (cursor1 cursor2 : Cursor) : (Cursor × Cursor) ⊕ (Cursor × Cursor) :=
  if cursor1.strBuf ≠ [] ∧ cursor2.strBuf ≠ [] then
    let common := commonLength (cursor1.strBuf.drop cursor1.strBufIndex) (cursor2.strBuf.drop cursor2.strBufIndex)
    let strBuf1Index := cursor1.strBufIndex + common
    let strBuf2Index := cursor2.strBufIndex + common
    let cursors := ({ cursor1 with strBufIndex := strBuf1Index }, { cursor2 with strBufIndex := strBuf2Index })
    if strBuf1Index < cursor1.strBuf.length ∧ strBuf2Index < cursor2.strBuf.length then .inl cursors else .inr cursors
  else .inr (cursor1, cursor2)

/-- Two characters that differ. -/
def compareDifferent (fromLoc : Int) (str1Char str2Char : Nat) (cursor1 cursor2 : Cursor) :
    (Cursor × Cursor) ⊕ (Cursor × Cursor) :=
  let ((str1Char, cursor1), (str2Char, cursor2)) := s.skipMarks fromLoc str1Char str2Char cursor1 cursor2
  let folded := if str1Char ≠ str2Char then s.foldBoth str1Char str2Char cursor1 cursor2 else .inr (cursor1, cursor2)
  match folded with
  | .inl cursors => .inl cursors
  | .inr (cursor1, cursor2) =>
    match compareLeft cursor1 cursor2 with
    | .inl cursors => .inl cursors
    | .inr (cursor1, cursor2) => .inr (cursor1.advance, cursor2.advance)

/-- A round of the loop over folded characters: where the cursors are, at a `break`
or at the next round. -/
def unicodeStep (fromLoc : Int) (cursor1 cursor2 : Cursor) : (Cursor × Cursor) ⊕ (Cursor × Cursor) :=
  let (str1Char, cursor1) := s.read s.access1 cursor1
  let (str2Char, cursor2) := s.read s.access2 cursor2
  if str1Char = str2Char then .inr (cursor1.advance, cursor2.advance)
  else if str1Char < 0x80 ∧ str2Char < 0x80 ∧ s.flags.ignoreNonAlphanumeric = false ∧
      (s.langCode = none ∨ s.flags.caseInsensitive = false) then .inl (cursor1, cursor2)
  else
    let (str1Char, cursor1) := cursor1.join s.access1 str1Char
    let (str2Char, cursor2) := cursor2.join s.access2 str2Char
    if (s.forwardAnchor = true ∨ cursor1.index ≠ fromLoc) ∧ cursor1.index < s.maxStr1Index ∧
        s.ignores str1Char = true then
      .inr (cursor1.advance, cursor2.unread)
    else if s.ignores str2Char then .inr (cursor1.unread, cursor2.advance)
    else s.compareDifferent fromLoc str1Char str2Char cursor1 cursor2

/-- The loop over folded characters, none where the rounds do not suffice. -/
def unicodeLoop (fromLoc : Int) : (rounds : Nat) → Cursor → Cursor → Option (Cursor × Cursor)
  | 0, _, _ => none
  | rounds + 1, cursor1, cursor2 =>
    if cursor2.index < s.findStrLen then
      match s.unicodeStep fromLoc cursor1 cursor2 with
      | .inl cursors => some cursors
      | .inr (cursor1, cursor2) => unicodeLoop fromLoc rounds cursor1 cursor2
    else some (cursor1, cursor2)

/-- The end of the match where more of the text's buffer may be left, none where it
is no match. The bitmap of a plane past the first is of another set. -/
def bufferEnd (cursor : Cursor) : Option Int :=
  if cursor.strBuf = [] then some cursor.index
  else if s.flags.diacriticInsensitive = true ∧ cursor.strBuf.headD 0 < 0x0510 ∧
      ((cursor.strBuf.drop cursor.strBufIndex).all fun character =>
        s.tables.isMember (if character < 0x10000 then .graphemeExtend else .canonicalDecomposable) (character >>> 16)
          character) = true then
    some (cursor.index + cursor.usedLen)
  else none

/-- Past the marks after an index. -/
def pastMarks : (n : Nat) → (str1Index : Int) → Int
  | 0, str1Index => str1Index
  | n + 1, str1Index =>
    if str1Index + 1 < s.maxStr1Index ∧
        s.tables.isMember .graphemeExtend 0 (s.access1 (str1Index + 1)).toNat = true then
      pastMarks n (str1Index + 1)
    else str1Index + 1

/-- The end of the match after its marks, none where it ends inside a cluster. -/
def clusterEnd (str1Index : Int) : Option Int :=
  if (s.flags.diacriticInsensitive || s.flags.nonliteral) = true ∧ str1Index < s.maxStr1Index then
    let (str1Char, _) := characterAt (fun k => s.access1 (str1Index + k)) 0
    let otherChar := s.access1 (str1Index - 1)
    if s.tables.isMember .graphemeExtend (str1Char >>> 16) str1Char then
      if s.flags.diacriticInsensitive then
        -- the condition of the loop back over the marks is the last one of two, the location
        if str1Char < 0x10000 ∧ (s.access1 (min (str1Index - 1) s.rangeToSearch.location)).toNat < 0x0510 then
          some (s.pastMarks (s.maxStr1Index - str1Index).toNat str1Index)
        else some str1Index
      else none
    else if s.flags.diacriticInsensitive = false ∧
        (str1Char = 0x034F ∨ otherChar = 0x034F ∨ otherChar = 0x200D ∨
          (otherChar ≥ 0x1100 ∧ otherChar ≤ 0x11F9) ∨ s.tables.combiningProperty otherChar = 9) then
      let clusterRange := s.tables.rangeOfGraphemeCluster s.characters (str1Index - 1)
      if str1Index < clusterRange.location + clusterRange.length then none else some str1Index
    else some str1Index
  else some str1Index

/-- The attempt at a position where characters are folded. -/
def attemptUnicode (rounds : Nat) (fromLoc : Int) : Option Attempt :=
  (s.unicodeLoop fromLoc rounds ⟨fromLoc, [], 0, 0⟩ ⟨0, [], 0, 0⟩).map fun (cursor1, cursor2) =>
    if s.skipTail true cursor1.index cursor2.index = s.findStrLen then
      match (s.bufferEnd cursor1).bind s.clusterEnd with
      | some str1Index => s.finish true str1Index
      | none => .next
    else .next

/-! ## The loop over units -/

/-- Whether as many units are the same. -/
def sameUnits : (n : Nat) → (str1Index str2Index : Int) → Bool
  | 0, _, _ => true
  | n + 1, str1Index, str2Index =>
    if s.access1 str1Index ≠ s.access2 str2Index then false else sameUnits n (str1Index + 1) (str2Index + 1)

/-- The attempt at a position where units are compared. -/
def attemptLiteral (fromLoc : Int) : Attempt :=
  if s.sameUnits s.findStrLen.toNat fromLoc 0 then .found (fromLoc + s.findStrLen) else .next

/-! ## The positions -/

/-- The attempts at the positions up to `toLoc`, none where the rounds of an attempt
do not suffice. -/
def scan (attempt : Int → Option Attempt) : (n : Nat) → (fromLoc : Int) → Option (Option SearchRange)
  | 0, _ => none
  | n + 1, fromLoc =>
    (attempt fromLoc).bind fun
      | .found str1Index => some (some (.upTo fromLoc str1Index))
      | .stop => some none
      | .next => if fromLoc = s.toLoc then some none else scan attempt n (fromLoc + s.delta)

/-- The attempt at a position, for C string pointers that the two strings may have. -/
def attempt (str1Bytes str2Bytes : Option (List UInt8)) (rounds : Nat) (fromLoc : Int) : Option Attempt :=
  match str1Bytes, str2Bytes with
  | some str1Bytes, some str2Bytes => s.attemptBytes str1Bytes str2Bytes rounds fromLoc
  | _, _ => if s.equalityOptions then s.attemptUnicode rounds fromLoc else some (s.attemptLiteral fromLoc)

/-- The search. -/
def run (str1Bytes str2Bytes : Option (List UInt8)) (rounds : Nat) : Option (Option SearchRange) :=
  if s.findStrLen > 0 ∧ s.rangeToSearch.length > 0 ∧
      (s.findStrLen ≤ s.rangeToSearch.length ∨ s.lengthVariants = true) then
    s.scan (s.attempt str1Bytes str2Bytes rounds) ((s.toLoc - s.fromLoc).natAbs + 1) s.fromLoc
  else some none

end Search

/-! ## Searches -/

/-- `CFStringGetCharacterFromInlineBuffer` at an index that may be less than 0. -/
def InlineBuffer.getAt (map : CharToUniChar) (buf : InlineBuffer) (idx : Int) : UniChar :=
  if idx < 0 then 0 else buf.get map idx.toNat

/-- What `CFStringFindWithOptionsAndLocale` sets up. -/
def searchOf (tables : SearchTables) (map : CharToUniChar) (string stringToFind : CFString)
    (rangeToSearch : SearchRange) (flags : CompareFlags) (langCode : Option LangCode) (junk1 junk2 : List UniChar) :
    Search where
  tables := tables
  flags := flags
  langCode := langCode
  characters := string.characters map
  access1 := (initInlineBuffer string 0 (rangeToSearch.location + rangeToSearch.length).toNat junk1).getAt map
  access2 := (initInlineBuffer stringToFind 0 stringToFind.getLength junk2).getAt map
  rangeToSearch := rangeToSearch
  findStrLen := stringToFind.getLength

section Searches

variable (tables : SearchTables) (map : CharToUniChar) (string stringToFind : CFString) (flags : CompareFlags)
  (langCode : Option LangCode) (junk1 junk2 : List UniChar) (rounds : Nat)

/-- `CFStringFindWithOptionsAndLocale`: the range found, or none in it; none at all
where the rounds of an attempt do not suffice. -/
def findWithOptionsAndLocale (rangeToSearch : SearchRange) : Option (Option SearchRange) :=
  (searchOf tables map string stringToFind rangeToSearch flags langCode junk1 junk2).run
    string.getCStringPtr stringToFind.getCStringPtr rounds

/-- The searches one after the other, in the range left after each match, none where
they do not suffice. `endIndex` is the end of the range in 32 bits. -/
def findRanges (endIndex : Nat) : (searches : Nat) → (rangeToSearch : SearchRange) → Option (List SearchRange)
  | 0, _ => none
  | searches + 1, rangeToSearch =>
    if rangeToSearch.length > 0 then
      (findWithOptionsAndLocale tables map string stringToFind flags langCode junk1 junk2 rounds
        rangeToSearch).bind fun
        | none => some []
        | some foundRange =>
          let rangeToSearch : SearchRange :=
            if flags.backwards then ⟨rangeToSearch.location, foundRange.location - rangeToSearch.location⟩
            else .upTo (foundRange.location + foundRange.length) endIndex
          (findRanges endIndex searches rangeToSearch).map (foundRange :: ·)
    else some []

/-- The two loops of searches, with `UInt32 endIndex`. -/
def foundRanges (searches : Nat) (rangeToSearch : SearchRange) : Option (List SearchRange) :=
  findRanges tables map string stringToFind flags langCode junk1 junk2 rounds
    ((rangeToSearch.location + rangeToSearch.length).toNat % 2 ^ 32) searches rangeToSearch

/-- `CFStringCreateArrayWithFindResults`: the ranges of the array, or no array. -/
def createArrayWithFindResults (searches : Nat) (rangeToSearch : SearchRange) : Option (Option (List SearchRange)) :=
  (foundRanges tables map string stringToFind flags langCode junk1 junk2 rounds searches
    rangeToSearch).map fun ranges => if ranges.length > 0 then some ranges else none

/-- `CFStringFindAndReplace`: the count it returns, and the ranges it gives to
`__CFStringReplaceMultiple`, in increasing order. -/
def findAndReplace (searches : Nat) (rangeToSearch : SearchRange) : Option (Nat × List SearchRange) :=
  (foundRanges tables map string stringToFind flags langCode junk1 junk2 rounds searches
    rangeToSearch).map fun ranges => (ranges.length, if flags.backwards then ranges.reverse else ranges)

end Searches

end CFLite.Strings
