import CFLite.TextPlist.XML

/-!
# The old-style parser

`parseOldStylePropertyListOrStringsFile` and the functions under it. As in the
XML parser, the functions for containers take `parsePlistObject` as an
argument, and only it recurses. Its argument says whether an object must be
there: if not, `NULL` without an error means that there is none.
-/

namespace CFLite.TextPlist

open CFLite.Framework

/-! ## Spaces and comments -/

def isLineSeparator (c : UInt16) : Bool := c = 0x2028 || c = 0x2029

/-- The spaces of `advanceToNonSpace`. -/
def isOldStyleSpace (c : UInt16) : Bool := (9 ≤ c && c ≤ 0x0d) || c = unichar ' ' || isLineSeparator c

/-- The rest of a comment that ends with its line. -/
def skipLineComment (input : Input) : Parse Unit :=
  skipUnits input fun c => !(c = unichar '\n' || c = unichar '\r' || isLineSeparator c)

/-- The rest of a comment that ends in `*/`. -/
def skipBlockComment (input : Input) : Parse Unit :=
  whileAdvancing input (fun () => do
    let curr ← currentIndex
    if curr < input.length then
      let ch ← deref input curr
      advance 1
      if ch = unichar '*' ∧ curr + 1 < input.length then
        if (← deref input (curr + 1)) = unichar '/' then
          advance 1
          return .inr ()
        else return .inl ()
      else return .inl ()
    else return .inr ()) ()

/-- A step of `advanceToNonSpace`. -/
def nonSpaceStep (input : Input) : Unit → Parse (Unit ⊕ Bool) := fun () => do
  let curr ← currentIndex
  if curr < input.length then
    let ch ← deref input curr
    advance 1
    if isOldStyleSpace ch then return .inl ()
    else if ch = unichar '/' then
      if input.length ≤ curr + 1 then
        backOff
        return .inr true
      else
        let ch ← deref input (curr + 1)
        if ch = unichar '/' then
          advance 1
          skipLineComment input
          return .inl ()
        else if ch = unichar '*' then
          advance 1
          skipBlockComment input
          return .inl ()
        else
          backOff
          return .inr true
    else
      backOff
      return .inr true
  else return .inr false

/-- `advanceToNonSpace` -/
def advanceToNonSpace (input : Input) : Parse Bool := whileAdvancing input (nonSpaceStep input) ()

/-- Whether there is a next character, and it is `c`. -/
def nextIs (input : Input) (c : Char) : Parse Bool := do
  if ← advanceToNonSpace input then return (← deref input (← currentIndex)) = unichar c
  else return false

/-! ## Strings -/

/-- The octal digits after a backslash, of which the first one is `ch`. -/
def octalCharacter (input : Input) (ch : UInt16) : Parse UInt16 := do
  let num := ch.toNat - '0'.toNat
  let curr ← currentIndex
  let ch ← deref input curr
  let num ← if isOctalDigit ch then do
      advance 1
      let num := num * 8 + (ch.toNat - '0'.toNat)
      if curr + 1 < input.length then
        let ch ← deref input (curr + 1)
        if isOctalDigit ch then
          advance 1
          pure (num * 8 + (ch.toNat - '0'.toNat))
        else pure num
      else pure num
    else pure num
  return (input.library.nextStepLatin (UInt8.ofNat num)).getD 0

/-- A step of the loop over the four digits of `\U`, which does not stop at a
character that is no digit. -/
def hexCharacterStep (input : Input) : Nat × Nat → Parse ((Nat × Nat) ⊕ Nat) := fun (num, numDigits) => do
  let curr ← currentIndex
  if curr < input.length ∧ 0 < numDigits then
    match digitValue (← deref input curr) with
    | some digit =>
      advance 1
      return .inl (num * 16 + digit, numDigits - 1)
    | none => return .inl (num, numDigits - 1)
  else return .inr num

/-- The characters that a letter after a backslash stands for. -/
def escapes : List (Char × UInt16) :=
  [('a', 7), ('b', 8), ('f', 12), ('n', 10), ('r', 13), ('t', 9), ('v', 11), ('"', unichar '"'), ('\n', 10)]

/-- `getSlashedChar` -/
def getSlashedChar (input : Input) : Parse UInt16 := do
  visit .slashedChar
  let ch ← deref input (← currentIndex)
  advance 1
  if isOctalDigit ch then octalCharacter input ch
  else if ch = unichar 'U' then
    return UInt16.ofNat (← Run.loop (hexCharacterStep input) 5 (0, 4))
  else
    match escapes.find? fun escape => ch = unichar escape.1 with
    | some escape => return escape.2
    | none => return ch

/-- A step of `parseQuotedPlistString`: `mark` is the first character that is
not yet in `str`, which is `NULL` before the first backslash. -/
def quotedStep (input : Input) (quote : UInt16) : Nat × Option (List UInt16) →
    Parse ((Nat × Option (List UInt16)) ⊕ (Nat × Option (List UInt16))) := fun (mark, str) => do
  let curr ← currentIndex
  if curr < input.length then
    let ch ← deref input curr
    if ch = quote then return .inr (mark, str)
    else if ch = unichar '\\' then
      let chars ← copyUnits input mark curr
      advance 1
      let ch ← getSlashedChar input
      return .inl (← currentIndex, some (str.getD [] ++ chars ++ [ch]))
    else
      advance 1
      return .inl (mark, str)
  else return .inr (mark, str)

/-- `parseQuotedPlistString` -/
def parseQuotedPlistString (input : Input) (quote : UInt16) : Parse (Option Parsed) := do
  let startMark ← currentIndex
  let (mark, str) ← whileAdvancing input (quotedStep input quote) (startMark, none)
  let curr ← currentIndex
  if input.length ≤ curr then
    setCurr startMark
    setLineError input "Unterminated quoted string starting on line %d" []
    return none
  else
    let chars ← copyUnits input mark curr
    advance 1
    clearError
    return some (makeString input (str.getD [] ++ chars))

/-- `isValidUnquotedStringCharacter` -/
def isValidUnquotedStringCharacter (c : UInt16) : Bool :=
  (unichar 'a' ≤ c && c ≤ unichar 'z') || (unichar 'A' ≤ c && c ≤ unichar 'Z') || isDigit c ||
    [unichar '_', unichar '$', unichar '/', unichar ':', unichar '.', unichar '-'].contains c

/-- `parseUnquotedPlistString` -/
def parseUnquotedPlistString (input : Input) : Parse (Option Parsed) := do
  let mark ← currentIndex
  skipUnits input isValidUnquotedStringCharacter
  let curr ← currentIndex
  if curr = mark then
    setError "Unexpected EOF" []
    return none
  else return some (makeString input (← copyUnits input mark curr))

def isQuote (c : UInt16) : Bool := c = unichar '\'' || c = unichar '"'

/-- `parsePlistString`, for an object that need not be there. -/
def parsePlistString (input : Input) : Parse (Option Parsed) := do
  if ← advanceToNonSpace input then
    let ch ← deref input (← currentIndex)
    if isQuote ch then
      advance 1
      parseQuotedPlistString input ch
    else if isValidUnquotedStringCharacter ch then parseUnquotedPlistString input
    else return none
  else return none

/-! ## Containers -/

/-- `parsePlistObject`, as the functions for containers call it. -/
abbrev PlistObject := Bool → Parse (Option Parsed)

/-- A step of `parsePlistArray`, which stops with the objects, or none if an
error made it return `NULL`. -/
def plistArrayStep (input : Input) (object : PlistObject) (array : List Parsed) :
    Parse (List Parsed ⊕ Option (List Parsed)) := do
  match ← object false with
  | none => return .inr (some array)
  | some tmp =>
    if ← advanceToNonSpace input then
      if (← deref input (← currentIndex)) ≠ unichar ',' then return .inr (some (array ++ [tmp]))
      else
        advance 1
        return .inl (array ++ [tmp])
    else
      setLineError input "Expected ',' for array at line %d" []
      return .inr none

/-- `parsePlistArray` -/
def parsePlistArray (input : Input) (object : PlistObject) : Parse (Option Parsed) := do
  match ← whileAdvancing input (plistArrayStep input object) [] with
  | none => return none
  | some array =>
    if ← nextIs input ')' then
      clearError
      advance 1
      return some (.container true .array array)
    else
      setLineError input "Expected terminating ')' for array at line %d" []
      return none

/-- The value of an entry, with the cursor after its key. -/
def entryValue (input : Input) (object : PlistObject) (key : Parsed) : Parse (Option Parsed) := do
  if ← advanceToNonSpace input then
    let ch ← deref input (← currentIndex)
    if ch = unichar ';' then return some key
    else if ch = unichar '=' then
      advance 1
      object true
    else
      setLineError input "Unexpected ';' or '=' after key at line %d" []
      return none
  else
    setLineError input "Missing ';' on line %d" []
    return none

/-- A step of `parsePlistDictContent`, which stops with the entries, or none if
the parse failed. -/
def plistDictStep (input : Input) (object : PlistObject) (entries : List (Parsed × Parsed)) :
    Parse (List (Parsed × Parsed) ⊕ Option (List (Parsed × Parsed))) := do
  match ← parsePlistString input with
  | none => return .inr (some entries)
  | some key =>
    match ← entryValue input object key with
    | none => return .inr none
    | some value =>
      if ← nextIs input ';' then
        advance 1
        return .inl (dictionarySetValue entries key value)
      else
        setLineError input "Missing ';' on line %d" []
        return .inr none

/-- `parsePlistDictContent` -/
def parsePlistDictContent (input : Input) (object : PlistObject) : Parse (Option Parsed) := do
  match ← whileAdvancing input (plistDictStep input object) [] with
  | none => return none
  | some entries =>
    clearError
    return some (makeDictionary true entries)

/-- `parsePlistDict` -/
def parsePlistDict (input : Input) (object : PlistObject) : Parse (Option Parsed) := do
  match ← parsePlistDictContent input object with
  | none => return none
  | some dict =>
    if ← nextIs input '\x7d' then
      advance 1
      return some dict
    else
      setLineError input "Expected terminating '\x7d' for dictionary at line %d" []
      return none

/-! ## Data -/

/-- `fromHexDigit`, of a unit cut to an `unsigned char`; 0xff is no digit. -/
def fromHexDigit (ch : UInt16) : Nat := (digitValue (UInt16.ofNat (ch.toNat % 256))).getD 0xff

def isDataSpace (c : UInt16) : Bool := isXMLSpace c || isLineSeparator c

/-- Why `getDataBytes` failed: it returned -1 or -2. -/
inductive DataFailure where
  | unexpectedCharacter
  | unevenLength
  deriving DecidableEq, Repr

/-- A step of `getDataBytes`. -/
def dataBytesStep (input : Input) (bytesSize : Nat) (bytes : List UInt8) :
    Parse (List UInt8 ⊕ Except DataFailure (List UInt8)) := do
  let curr ← currentIndex
  if curr < input.length ∧ bytes.length < bytesSize then
    let ch1 ← deref input curr
    if ch1 = unichar '>' then return .inr (.ok bytes)
    else if fromHexDigit ch1 ≠ 0xff then
      advance 1
      if input.length ≤ curr + 1 then return .inr (.error .unevenLength)
      else
        let ch2 ← deref input (curr + 1)
        if fromHexDigit ch2 = 0xff then return .inr (.error .unevenLength)
        else
          advance 1
          return .inl (bytes ++ [UInt8.ofNat (fromHexDigit ch1 * 16 + fromHexDigit ch2)])
    else if isDataSpace ch1 then
      advance 1
      return .inl bytes
    else return .inr (.error .unexpectedCharacter)
  else return .inr (.ok bytes)

/-- `getDataBytes` -/
def getDataBytes (input : Input) (bytesSize : Nat) : Parse (Except DataFailure (List UInt8)) :=
  whileAdvancing input (dataBytesStep input bytesSize) []

/-- A step of `parsePlistData`: up to 400 bytes. -/
def plistDataStep (input : Input) (result : List UInt8) : Parse (List UInt8 ⊕ Option (List UInt8)) := do
  match ← getDataBytes input 400 with
  | .error .unevenLength =>
    setLineError input "Malformed data byte group at line %d; uneven length" []
    return .inr none
  | .error .unexpectedCharacter =>
    setLineError input "Malformed data byte group at line %d; invalid hex" []
    return .inr none
  | .ok bytes => return if bytes.isEmpty then .inr (some result) else .inl (result ++ bytes)

/-- `parsePlistData` -/
def parsePlistData (input : Input) : Parse (Option Parsed) := do
  match ← whileAdvancing input (plistDataStep input) [] with
  | none => return none
  | some result =>
    clearError
    visit .dataEnd
    if (← deref input (← currentIndex)) = unichar '>' then
      advance 1
      return some (.primitive true (.data result))
    else
      setLineError input "Expected terminating '>' for data at line %d" []
      return none

/-! ## Objects -/

/-- The object at the cursor, by its first character. -/
def plistObject (input : Input) (object : PlistObject) (requireObject : Bool) : Parse (Option Parsed) := do
  if ← advanceToNonSpace input then
    let ch ← deref input (← currentIndex)
    advance 1
    if ch = unichar '\x7b' then parsePlistDict input object
    else if ch = unichar '(' then parsePlistArray input object
    else if ch = unichar '<' then parsePlistData input
    else if isQuote ch then parseQuotedPlistString input ch
    else if isValidUnquotedStringCharacter ch then
      backOff
      parseUnquotedPlistString input
    else
      backOff
      if requireObject then
        setLineError input "Unexpected character '0x%x' at line %d" [.unichar ch]
      return none
  else
    if requireObject then setError "Unexpected EOF while parsing plist" []
    return none

/-- `parsePlistObject`, in a text of bounded depth. -/
def parsePlistObject (input : Input) : Nat → PlistObject
  | 0 => fun _ => Run.outOfFuel
  | depth + 1 => plistObject input (parsePlistObject input depth)

def isStringObject : Parsed → Bool
  | .primitive _ (.string _) => true
  | _ => false

/-- `parseOldStylePropertyListOrStringsFile` -/
def parseOldStylePropertyListOrStringsFile (input : Input) : Parse (Option Parsed) := do
  let start ← currentIndex
  if ← advanceToNonSpace input then
    let result ← parsePlistObject input input.depth true
    if ← advanceToNonSpace input then
      match result with
      | none => return none
      | some object =>
        if isStringObject object then
          setCurr start
          parsePlistDictContent input (parsePlistObject input input.depth)
        else
          setLineError input "Junk after plist at line %d" []
          return none
    else return result
  else return some (makeDictionary true [])

end CFLite.TextPlist
