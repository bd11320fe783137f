import CFLite.Strings.CaseMapping
import CFLite.Strings.CompatibilityDecomposition
import CFLite.Strings.PrioritySort
import CFLite.Strings.UTF8Encode

/-!
# Decomposition into a bounded buffer

`CFUniCharDecompose` reads UTF-16, collects the decompositions of a run of characters
in a buffer of its own that grows, sorts them and writes them in the format asked for,
as long as whole runs fit.

The call of `decompose` is over runs of characters that are written together.

* `decompose`, `decomposeLoop`: the code;
* `characters`, `runsFrom`, `writeRuns`: the characters of a text, its runs, and those that fit.
-/

namespace CFLite.Strings.Decomposing

open Framework CaseChange

/-- The tables of canonical decompositions and the combining classes. -/
structure CanonicalTables extends Tables where
  isHFSPlusDecomposable : Nat → Bool
  combiningClass : Nat → Nat

/-- `kCFUniCharUTF8Format` and the others. -/
inductive Format where
  | utf8
  | utf16
  | utf32
  deriving DecidableEq, Repr

/-! ## The code -/

/-- The units in which a character is stored. In UTF-8, a value that four bytes cannot hold
has two of U+FFFD. -/
def encode : Format → Nat → List Nat
  | .utf16, c => if c > 0xFFFF then (surrogates c).map UInt16.toNat else [c]
  | .utf8, c =>
    if c < 0x80 then [c]
    else if c < 0x800 then (writeBytes (firstByteMark.getD 2 0) 2 c []).map UInt8.toNat
    else if c < 0x10000 then (writeBytes (firstByteMark.getD 3 0) 3 c []).map UInt8.toNat
    else if c < 0x200000 then (writeBytes (firstByteMark.getD 4 0) 4 c []).map UInt8.toNat
    else (writeBytes (firstByteMark.getD 2 0) 2 0xFFFD []).map UInt8.toNat
  | .utf32, c => [c]

/-- `CFUniCharFillDestinationBuffer`: the used length, where all characters have room, and the
destination. Nothing where it writes past the end of the destination. -/
def fillDestination (format : Format) (dstLength : Nat) : List Nat → Nat → List Nat → Option (Option Nat × List Nat)
  | [], usedLength, dst => some (some usedLength, dst)
  | currentChar :: src, usedLength, dst =>
    let units := encode format currentChar
    if dstLength = 0 then fillDestination format dstLength src (usedLength + units.length) dst
    else if dstLength < usedLength + units.length then some (none, dst)
    else if dst.length < usedLength + units.length then none
    else fillDestination format dstLength src (usedLength + units.length) (storeCharacters dst usedLength units)

/-- `MAX_BUFFER_LENGTH`. -/
def maxBufferLength : Nat := 32

section Code

variable (T : CanonicalTables) (isHFSPlus : Bool) (format : Format) (maxLength : Nat)

/-- `__CFUniCharIsDecomposableCharacterWithFlag` -/
def isDecomposableWithFlag (character : Nat) : Bool :=
  if character < 0x10000 then
    if isHFSPlus then T.isHFSPlusDecomposable character else T.isDecomposable character
  else T.isDecomposable character

/-- The Jamo of a Hangul syllable, by its number. -/
def jamo (character : Nat) : List Nat :=
  [character / 588 + 0x1100, character % 588 / 28 + 0x1161] ++
    if character % 28 ≠ 0 then [character % 28 + 0x11A7] else []

/-- `CFUniCharDecomposeCharacter` -/
def decomposeCharacter (character room : Nat) : List Nat :=
  if character ≥ 0xAC00 ∧ character ≤ 0xAC00 + 11172 then
    if room < (if (character - 0xAC00) % 28 ≠ 0 then 3 else 2) then [] else jamo (character - 0xAC00)
  else recursivelyDecompose T.toTables character room

/-- What `CFUniCharDecompose` keeps from one character to the next. -/
structure DecomposeState where
  length : Nat
  segmentLength : Nat
  decompBuffer : List Nat
  decompBufferSize : Nat
  usedLength : Nat
  dst : List Nat

/-- The buffer as it is sorted before it is written. -/
def sortedBuffer (buffer : List Nat) : List Nat :=
  if buffer.length > 1 then prioritySort T.combiningClass buffer else buffer

/-- `__CFProcessReorderBuffer`, and whether there was room. -/
def processReorderBuffer (s : DecomposeState) : Option (Bool × DecomposeState) :=
  let sorted := sortedBuffer T s.decompBuffer
  (fillDestination format maxLength sorted s.usedLength s.dst).map fun r =>
    match r.1 with
    | some usedLength => (true, { s with decompBuffer := sorted, usedLength, dst := r.2 })
    | none => (false, { s with decompBuffer := sorted, dst := r.2 })

/-- The run that was collected is written, where there is one. -/
def flush (s : DecomposeState) : Option (Bool × DecomposeState) :=
  if s.decompBuffer.length > 0 then
    (processReorderBuffer T format maxLength s).map fun r =>
      if r.1 then (true, { r.2 with length := r.2.length - r.2.segmentLength, segmentLength := 0, decompBuffer := [] })
      else r
  else some (true, s)

/-- The loop at an ASCII character. -/
def asciiStep (currentChar : Nat) (s : DecomposeState) : Option (Bool × DecomposeState) :=
  (flush T format maxLength s).bind fun r =>
    if r.1 then
      if maxLength > 0 then
        if r.2.usedLength ≥ maxLength then some (false, r.2)
        else if r.2.dst.length ≤ r.2.usedLength then none
        else some (true, { r.2 with
          dst := r.2.dst.set r.2.usedLength currentChar
          length := r.2.length - 1
          usedLength := r.2.usedLength + 1 })
      else some (true, { r.2 with length := r.2.length - 1, usedLength := r.2.usedLength + 1 })
    else some r

/-- `((currentChar > 0xFFFF) ? 2 : 1)` -/
def widthOf (currentChar : Nat) : Nat := if currentChar > 0xFFFF then 2 else 1

/-- The size of the buffer with room for one more character than `length`. -/
def grownSize (length size : Nat) : Nat := if length + 1 ≥ size then size + maxBufferLength else size

/-- The loop at a combining mark. -/
def markStep (currentChar : Nat) (s : DecomposeState) : DecomposeState :=
  let decompBufferSize := grownSize s.decompBuffer.length s.decompBufferSize
  { s with
    decompBufferSize
    decompBuffer := s.decompBuffer ++
      if isDecomposableWithFlag T isHFSPlus currentChar then
        decomposeCharacter T currentChar (decompBufferSize - s.decompBuffer.length)
      else [currentChar]
    segmentLength := s.segmentLength + widthOf currentChar }

/-- The decomposition of a character that is no combining mark. -/
def baseCharacters (currentChar : Nat) : List Nat :=
  if isDecomposableWithFlag T isHFSPlus currentChar then decomposeCharacter T currentChar maxBufferLength
  else [currentChar]

/-- The loop at another character. -/
def baseStep (needToReorder : Bool) (currentChar : Nat) (s : DecomposeState) : Option (Bool × DecomposeState) :=
  (flush T format maxLength s).bind fun r =>
    if r.1 then
      let s := { r.2 with decompBuffer := baseCharacters T isHFSPlus currentChar }
      if !needToReorder ∨ s.decompBuffer.length = 1 then
        (fillDestination format maxLength s.decompBuffer s.usedLength s.dst).map fun r =>
          match r.1 with
          | some usedLength =>
            (true, { s with usedLength, dst := r.2, length := s.length - widthOf currentChar, decompBuffer := [] })
          | none => (false, { s with dst := r.2 })
      else some (true, { s with segmentLength := s.segmentLength + widthOf currentChar })
    else some r

/-- The character at the beginning of the units, and the units after it; none for a stray
surrogate in a format that has no place for it. -/
def readCharacter (first : UniChar) (src : List UniChar) : Option (Nat × List UniChar) :=
  if IsLowSurrogate first.toNat then
    if format ≠ .utf16 then none else some (first.toNat, src)
  else if IsHighSurrogate first.toNat then
    match src with
    | next :: rest =>
      if IsLowSurrogate next.toNat then some (longCharacterForSurrogatePair first.toNat next.toNat, rest)
      else if format ≠ .utf16 then none else some (first.toNat, src)
    | [] => if format ≠ .utf16 then none else some (first.toNat, src)
  else some (first.toNat, src)

variable {format} in
theorem length_readCharacter {first : UniChar} {src rest : List UniChar} {character : Nat}
    (h : readCharacter format first src = some (character, rest)) : rest.length ≤ src.length := by
  unfold readCharacter at h
  split at h
  · split at h <;> cases h
    rfl
  · split at h
    · split at h
      · split at h
        · cases h
          exact Nat.le_succ _
        · split at h <;> cases h
          rfl
      · split at h <;> cases h
        rfl
    · cases h
      rfl

/-- The loop of `CFUniCharDecompose`, over the units that are left. -/
def decomposeLoop (needToReorder : Bool) : List UniChar → DecomposeState → Option DecomposeState
  | [], s => some s
  | first :: src, s =>
    if first.toNat < 0x80 then
      (asciiStep T format maxLength first.toNat s).bind fun r =>
        if r.1 then decomposeLoop needToReorder src r.2 else some r.2
    else
      match _h : readCharacter format first src with
      | none => some s
      | some (currentChar, rest) =>
        if needToReorder && T.combiningClass currentChar != 0 then
          decomposeLoop needToReorder rest (markStep T isHFSPlus currentChar s)
        else
          (baseStep T isHFSPlus format maxLength needToReorder currentChar s).bind fun r =>
            if r.1 then decomposeLoop needToReorder rest r.2 else some r.2
termination_by units => units.length
decreasing_by
  all_goals simp only [List.length_cons]
  · omega
  all_goals
    have := length_readCharacter _h
    omega

/-- The end of `CFUniCharDecompose`: what is left in the buffer is written. -/
def finishDecompose (s : DecomposeState) : Option DecomposeState :=
  if s.decompBuffer.length > 0 then
    (processReorderBuffer T format maxLength s).map fun r =>
      if r.1 then { r.2 with length := r.2.length - r.2.segmentLength } else r.2
  else some s

/-- `CFUniCharDecompose`: the result, the consumed and the filled length, and the destination. -/
def decompose (needToReorder : Bool) (src : List UniChar) (dst : List Nat) : Option (Bool × Nat × Nat × List Nat) :=
  ((decomposeLoop T isHFSPlus format maxLength needToReorder src
      ⟨src.length, 0, [], maxBufferLength, 0, dst⟩).bind (finishDecompose T format maxLength)).map fun s =>
    (decide (¬ s.length > 0), src.length - s.length, s.usedLength, s.dst)

end Code

/-! ## Characters and runs -/

/-- The length of characters in a format. -/
def unitLength (format : Format) (chars : List Nat) : Nat := (chars.map fun c => (encode format c).length).sum

/-- The count of UTF-16 units of characters. -/
def widths (chars : List Nat) : Nat := (chars.map widthOf).sum

@[simp] theorem widths_nil : widths [] = 0 := rfl

@[simp] theorem widths_cons (c : Nat) (chars : List Nat) : widths (c :: chars) = widthOf c + widths chars := by
  simp [widths]

@[simp] theorem widths_append (chars others : List Nat) : widths (chars ++ others) = widths chars + widths others := by
  simp [widths]

/-- A character that the format has a place for. -/
def Holds (format : Format) (c : Nat) : Prop := format = .utf16 ∨ (¬ IsHighSurrogate c ∧ ¬ IsLowSurrogate c)

instance (format : Format) (c : Nat) : Decidable (Holds format c) := inferInstanceAs (Decidable (_ ∨ _))

/-- The characters of units, up to the first that the format has no place for. -/
def characters (format : Format) (units : List UniChar) : List Nat :=
  (CaseChange.charactersOf units).takeWhile fun c => Holds format c

section Runs

variable (T : CanonicalTables) (isHFSPlus : Bool) (format : Format) (maxLength : Nat)

/-- A combining mark; ASCII characters are none. -/
def IsMark (c : Nat) : Prop := 0x80 ≤ c ∧ T.combiningClass c ≠ 0

instance (c : Nat) : Decidable (IsMark T c) := inferInstanceAs (Decidable (_ ∧ _))

/-- What a character that is no mark is decomposed to; an ASCII character is its own. -/
def startOf (c : Nat) : List Nat := if c < 0x80 then [c] else baseCharacters T isHFSPlus c

/-- A run that is to be written, unless it is empty. -/
def emit (pending : List Nat) (runs : List (List Nat)) : List (List Nat) :=
  if pending = [] then runs else pending :: runs

/-- The runs of characters that are written together, the first of which begins with `pending`:
marks, behind the character before them if it is decomposed to more than one. -/
def runsFrom : (pending : List Nat) → List Nat → List (List Nat)
  | pending, [] => emit pending []
  | pending, c :: cs =>
    if IsMark T c then runsFrom (pending ++ [c]) cs
    else if (startOf T isHFSPlus c).length = 1 then emit pending ([c] :: runsFrom [] cs)
    else emit pending (runsFrom [c] cs)

/-- The buffer, with its size, after one more mark. -/
def addMark (b : List Nat × Nat) (c : Nat) : List Nat × Nat :=
  (b.1 ++
      if isDecomposableWithFlag T isHFSPlus c then decomposeCharacter T c (grownSize b.1.length b.2 - b.1.length)
      else [c],
    grownSize b.1.length b.2)

/-- The buffer, with its size, after a run. -/
def bufferOf (size : Nat) : List Nat → List Nat × Nat
  | [] => ([], size)
  | c :: cs => cs.foldl (addMark T isHFSPlus) (if IsMark T c then addMark T isHFSPlus ([], size) c
      else (startOf T isHFSPlus c, size))

/-- Characters that have no room behind what is used. -/
def Overflows (usedLength : Nat) (chars : List Nat) : Prop :=
  maxLength ≠ 0 ∧ maxLength < usedLength + unitLength format chars

instance (usedLength : Nat) (chars : List Nat) : Decidable (Overflows format maxLength usedLength chars) :=
  inferInstanceAs (Decidable (_ ∧ _))

/-- The runs that are written one after the other while they have room, and the length then. -/
def writeRuns : (size used : Nat) → List (List Nat) → List (List Nat) × Nat
  | _, used, [] => ([], used)
  | size, used, run :: runs =>
    if Overflows format maxLength used (bufferOf T isHFSPlus size run).1 then ([], used)
    else
      let r := writeRuns (bufferOf T isHFSPlus size run).2
        (used + unitLength format (bufferOf T isHFSPlus size run).1) runs
      (run :: r.1, r.2)

end Runs

end CFLite.Strings.Decomposing
