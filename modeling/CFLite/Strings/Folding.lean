import CFLite.Strings.ByteStreams

/-!
# Folding a cluster of characters

`__CFStringFoldCharacterClusterAtIndex` gives the characters that a character and
the marks after it are compared as: in another case or width, decomposed, or
without their marks, as the options ask. The Unicode property data is a parameter.

* `foldCharacterClusterAtIndex_smallLetter`: no case folding is left to do for a
  small ASCII letter.
-/

namespace CFLite.Strings

open Framework

/-! ## The code -/

/-- The options of comparisons and searches. -/
structure CompareFlags where
  caseInsensitive : Bool
  backwards : Bool
  anchored : Bool
  nonliteral : Bool
  diacriticInsensitive : Bool
  widthInsensitive : Bool
  ignoreNonAlphanumeric : Bool
  deriving DecidableEq

/-- The languages `_CFStrGetLanguageIdentifierForLocale` tells apart. -/
inductive LangCode where
  | az
  | lt
  | tr
  | nl
  deriving DecidableEq

/-- The sets `CFUniCharGetBitmapPtrForPlane` is asked for. -/
inductive CharacterSet where
  | graphemeExtend
  | canonicalDecomposable
  | hasNonSelfLowercase
  | hasNonSelfCaseFolding
  deriving DecidableEq

/-- The Unicode property data: the bitmaps by plane, `CFUniCharDecomposeCharacter`,
`CFUniCharCompatibilityDecompose` of one character, `CFUniCharMapCaseTo` with
`kCFUniCharCaseFold`, and `CFUniCharPrioritySort`. -/
structure UnicodeTables where
  bitmap : CharacterSet → (plane : Nat) → UniChar → Bool
  decomposeCharacter : (character maxBufferLength : Nat) → List Nat
  compatibilityDecompose : Nat → Nat
  mapCaseFold : (character : Nat) → Option LangCode → List UniChar
  prioritySort : List Nat → List Nat

/-- `CFUniCharIsMemberOfBitmap`, with the bitmap of the character's plane. -/
def UnicodeTables.isMember (tables : UnicodeTables) (set : CharacterSet) (plane character : Nat) : Bool :=
  tables.bitmap set plane (UInt16.ofNat character)

/-- `kCFStringStackBufferLength` -/
def stackBufferLength : Nat := inlineBufferLength

section Folding

-- `next` gives the units from the character's index on, as the inline buffer does
variable (tables : UnicodeTables) (flags : CompareFlags) (langCode : Option LangCode) (next : Nat → UniChar)

/-- The character at an index, of one unit or two. -/
def characterAt (index : Nat) : Nat × Nat :=
  let character := (next index).toNat
  if IsHighSurrogate character ∧ IsLowSurrogate (next (index + 1)).toNat then
    (longCharacterForSurrogatePair character (next (index + 1)).toNat, 2)
  else (character, 1)

/-- The variables of the function: `outCharacters` up to `filledLength`, and
`currentIndex` counted from `index`. -/
structure Cluster where
  character : Nat
  filled : List Nat
  currentIndex : Nat
  isTurkikCapitalI : Bool

/-- The width mapping. -/
def mapWidth (cluster : Cluster) : Cluster :=
  if flags.widthInsensitive ∧ cluster.character ≥ 0xFF00 ∧ cluster.character ≤ 0xFFEF then
    let character := tables.compatibilityDecompose cluster.character
    { cluster with character, filled := [character] }
  else cluster

/-- The surrogates. `planeNo` is that of the character the function was given. -/
def mapSurrogates (planeNo : Nat) (cluster : Cluster) : Cluster × Nat :=
  let lowSurrogate := (next cluster.currentIndex).toNat
  if planeNo = 0 ∧ IsHighSurrogate cluster.character ∧ IsLowSurrogate lowSurrogate then
    let character := longCharacterForSurrogatePair cluster.character lowSurrogate
    ({ cluster with character, currentIndex := cluster.currentIndex + 1 }, character >>> 16)
  else (cluster, planeNo)

/-- The decomposition. -/
def decompose (planeNo : Nat) (cluster : Cluster) : Cluster :=
  if (flags.diacriticInsensitive || flags.nonliteral) && tables.isMember .canonicalDecomposable planeNo cluster.character then
    let filled := tables.decomposeCharacter cluster.character stackBufferLength
    let character := filled.headD cluster.character
    -- reset if Roman, Greek, Cyrillic
    if flags.diacriticInsensitive ∧ character < 0x0510 then { cluster with character, filled := [character] }
    else if flags.nonliteral = false then { cluster with filled := [] }
    else { cluster with character, filled }
  else cluster

/-- The Turkik special-casing. -/
def foldTurkik (cluster : Cluster) : Cluster :=
  if (langCode = some .tr ∨ langCode = some .az) ∧ cluster.character = 'I'.toNat then
    if cluster.filled.length > 1 then
      if cluster.filled.getD 1 0 = 0x0307 then
        { cluster with
          character := 'i'.toNat
          filled := 'i'.toNat :: cluster.filled.drop 2
          isTurkikCapitalI := true }
      else cluster
    else if next cluster.currentIndex = 0x0307 then
      ⟨'i'.toNat, ['i'.toNat], cluster.currentIndex + 1, true⟩
    else cluster
  else cluster

/-- The characters of UTF-16 units. -/
def scalars : List UniChar → List Nat
  | [] => []
  | [unit] => [unit.toNat]
  | unit :: low :: units =>
    if IsHighSurrogate unit.toNat ∧ IsLowSurrogate low.toNat then
      longCharacterForSurrogatePair unit.toNat low.toNat :: scalars units
    else unit.toNat :: scalars (low :: units)

/-- The case folding. What was filled in after the first character stays after
the characters it folds to, and there is none where marks are filtered. -/
def foldCase (planeNo : Nat) (cluster : Cluster) : Cluster :=
  if flags.caseInsensitive then
    let filterNonBase := flags.diacriticInsensitive && decide (cluster.character < 0x0510)
    let cluster := foldTurkik langCode next cluster
    if !cluster.isTurkikCapitalI && (tables.isMember .hasNonSelfLowercase planeNo cluster.character ||
        tables.isMember .hasNonSelfCaseFolding planeNo cluster.character) then
      let caseFoldBuffer := scalars (tables.mapCaseFold cluster.character langCode)
      let folded := caseFoldBuffer.filter fun character =>
        !filterNonBase || !tables.isMember .graphemeExtend (character >>> 16) character
      { cluster with
        character := caseFoldBuffer.getLastD cluster.character
        filled := folded ++ cluster.filled.tail }
    else cluster
  else cluster

/-- The first combining mark after a character that was not changed, and
`doFill`. -/
def collectFirst (cluster : Cluster) : Cluster × Bool :=
  let doFill := !(flags.diacriticInsensitive && decide (cluster.character < 0x0510))
  if cluster.filled ≠ [] then (cluster, doFill)
  else if doFill = false then (cluster, doFill)
  else
    let (nonBaseCharacter, count) := characterAt next cluster.currentIndex
    if tables.isMember .graphemeExtend (nonBaseCharacter >>> 16) nonBaseCharacter then
      let marks :=
        if flags.diacriticInsensitive = false ∨ nonBaseCharacter > 0x050F then
          if tables.isMember .canonicalDecomposable (nonBaseCharacter >>> 16) nonBaseCharacter then
            tables.decomposeCharacter nonBaseCharacter (stackBufferLength - 1)
          else [nonBaseCharacter]
        else []
      ({ cluster with
         filled := cluster.character :: marks
         currentIndex := cluster.currentIndex + count }, true)
    else (cluster, false)

/-- The loop over the combining marks that follow. Each round but one moves past a
mark, so that the count of units is enough of rounds. -/
def collectMarks (doFill : Bool) : (rounds : Nat) → Cluster → Cluster
  | 0, cluster => cluster
  | rounds + 1, cluster =>
    if cluster.filled.length < stackBufferLength then
      let (character, count) := characterAt next cluster.currentIndex
      if cluster.isTurkikCapitalI then collectMarks doFill rounds { cluster with isTurkikCapitalI := false }
      else if tables.isMember .graphemeExtend (character >>> 16) character then
        if doFill then
          if tables.isMember .canonicalDecomposable (character >>> 16) character then
            let marks := tables.decomposeCharacter character (stackBufferLength - cluster.filled.length)
            if marks = [] then cluster
            else
              collectMarks doFill rounds
                { cluster with filled := cluster.filled ++ marks, currentIndex := cluster.currentIndex + count }
          else
            collectMarks doFill rounds
              { cluster with filled := cluster.filled ++ [character], currentIndex := cluster.currentIndex + count }
        else
          collectMarks doFill rounds
            { cluster with
              filled := if cluster.filled = [] then [cluster.character] else cluster.filled
              currentIndex := cluster.currentIndex + count }
      else cluster
    else cluster

/-- The priority sort of the marks at the end, from the character before them on. -/
def sortMarks (filled : List Nat) : List Nat :=
  let marks := (filled.tail.reverse.takeWhile fun character =>
    tables.isMember .graphemeExtend (character >>> 16) character).length
  let start := filled.length - 1 - marks
  if marks > 0 then filled.take start ++ tables.prioritySort (filled.drop start) else filled

/-- `__CFStringFoldCharacterClusterAtIndex`: the characters filled in, and the count
of units they stand for. `length` is the count of units from the index on. -/
def foldCharacterClusterAtIndex (length character : Nat) : List Nat × Nat :=
  if character = 0 then ([], 0)
  else
    let cluster : Cluster := ⟨character, [], 1, false⟩
    let cluster :=
      if character < 0x0080 ∧ (langCode = none ∨ character ≠ 'I'.toNat) then
        if flags.caseInsensitive ∧ character ≥ 'A'.toNat ∧ character ≤ 'Z'.toNat then
          let character := character + ('a'.toNat - 'A'.toNat)
          { cluster with character, filled := [character] }
        else cluster
      else
        let (cluster, planeNo) := mapSurrogates next (character >>> 16) (mapWidth tables flags cluster)
        foldCase tables flags langCode next planeNo (decompose tables flags planeNo cluster)
    if flags.diacriticInsensitive || flags.nonliteral then
      let (cluster, doFill) := collectFirst tables flags next cluster
      let cluster := collectMarks tables next doFill (length + 2) cluster
      (if cluster.filled.length > 1 then sortMarks tables cluster.filled else cluster.filled, cluster.currentIndex)
    else (cluster.filled, cluster.currentIndex)

end Folding

/-- `str1Char += ('a' - 'A')` for a capital ASCII letter. -/
def smallLetter (character : Nat) : Nat :=
  if character ≥ 'A'.toNat ∧ character ≤ 'Z'.toNat then character + ('a'.toNat - 'A'.toNat) else character

/-- A small ASCII letter or another ASCII character is not folded by case. -/
theorem foldCharacterClusterAtIndex_smallLetter (tables : UnicodeTables) {flags : CompareFlags}
    (hdiacritic : flags.diacriticInsensitive = false) (hliteral : flags.nonliteral = false) (next : Nat → UniChar)
    (length : Nat) {character : Nat} (hascii : character < 0x80) :
    (foldCharacterClusterAtIndex tables flags none next length (smallLetter character)).1 = [] := by
  have hA : 'A'.toNat = 0x41 := rfl
  have hZ : 'Z'.toNat = 0x5A := rfl
  have ha : 'a'.toNat = 0x61 := rfl
  have hlow : smallLetter character < 0x80 ∧ ¬(smallLetter character ≥ 'A'.toNat ∧ smallLetter character ≤ 'Z'.toNat) := by
    unfold smallLetter
    split <;> omega
  unfold foldCharacterClusterAtIndex
  simp only [hdiacritic, hliteral, Bool.or_self, Bool.false_eq_true, if_false, true_or, and_true, hlow.1, if_true, hlow.2,
    and_false]
  split <;> rfl

end CFLite.Strings
