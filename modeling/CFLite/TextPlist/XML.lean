import CFLite.TextPlist.ParseInfo

/-!
# The XML parser

`parseXMLPropertyList` and the functions under it. A function that returns an
object or `NULL` returns an option. `getContentObject` and the functions for
the tags of containers call each other; the latter take `getContentObject` as
an argument, and only it recurses, on a bound on the depth of the document.

A `Boolean *isKey` that the caller may pass is part of the value here, next to
the object. Sharing equal immutable strings through `stringSet` leaves no trace
in the values, and is left out.
-/

namespace CFLite.TextPlist

open CFLite.Framework

/-! ## Reading ahead -/

/-- `*p == c₀ && *(p + 1) == c₁ && …` -/
def followedBy (input : Input) (p : Nat) : List UInt16 → Parse Bool
  | [] => return true
  | c :: rest => do
    if (← deref input p) = c then followedBy input (p + 1) rest else return false

/-- `if (!pInfo->error) …` -/
def unlessError (x : Parse Unit) : Parse Unit := do
  if (← Run.get).error.isNone then x

/-- The error for the character at the cursor. -/
def unexpectedCharacter (input : Input) (debugString : String) : Parse Unit := do
  let ch ← deref input (← currentIndex)
  setLineError input debugString [.unichar ch]

def unexpectedEOF : Parse Unit := setError "Encountered unexpected EOF" []

/-! ## Comments, processing instructions and the DTD -/

/-- `skipXMLComment` -/
def skipXMLComment (input : Input) : Parse Unit := do
  let curr ← currentIndex
  let found ← Run.loop (fun p => do
    if p + 3 < input.length then
      if ← followedBy input p (['-', '-', '>'].map unichar) then return .inr (some (p + 3))
      else return .inl (p + 1)
    else return .inr none) (input.length - curr + 1) curr
  match found with
  | some p => setCurr p
  | none => setLineError input "Unterminated comment started on line %d" []

/-- `skipXMLProcessingInstruction` -/
def skipXMLProcessingInstruction (input : Input) : Parse Unit := do
  let start ← currentIndex
  let found ← whileAdvancing input (fun () => do
    let curr ← currentIndex
    if curr + 2 < input.length then
      if ← followedBy input curr (['?', '>'].map unichar) then
        advance 2
        return .inr true
      else
        advance 1
        return .inl ()
    else return .inr false) ()
  if found then return ()
  else
    setCurr start
    setLineError input
      "Encountered unexpected EOF while parsing the processing instruction begun on line %d" []

/-- `skipPERef` -/
def skipPERef (input : Input) : Parse Unit := do
  let curr ← currentIndex
  let found ← Run.loop (fun p => do
    if p < input.length then
      if (← deref input p) = unichar ';' then return .inr (some (p + 1)) else return .inl (p + 1)
    else return .inr none) (input.length - curr + 1) curr
  match found with
  | some p => setCurr p
  | none =>
    setLineError input
      "Encountered unexpected EOF while parsing percent-escape sequence begun on line %d" []

def inlineDTDEOF : Parse Unit := setError "Encountered unexpected EOF while parsing inline DTD" []

/-- The end of a declaration `<!string … >` of an inline DTD. The unit at the
cursor is read again after the loop, also when it has come to `end`. -/
def skipDeclaration (input : Input) : Parse Bool := do
  advance 1
  whileAdvancing input (fun () => do
    let curr ← currentIndex
    if curr < input.length then
      if (← deref input curr) = unichar '>' then return .inr ()
      else
        advance 1
        return .inl ()
    else return .inr ()) ()
  if (← deref input (← currentIndex)) ≠ unichar '>' then
    inlineDTDEOF
    return false
  else
    advance 1
    return true

/-- A step of `skipInlineDTD`, which stops with whether it returned. -/
def inlineDTDStep (input : Input) : Unit → Parse (Unit ⊕ Bool) := fun () => do
  let p ← Run.get
  if p.error.isNone ∧ p.curr < input.length then
    skipWhitespace input
    let curr ← currentIndex
    let ch ← deref input curr
    if ch = unichar '%' then
      advance 1
      skipPERef input
      return .inl ()
    else if ch = unichar '<' then
      advance 1
      if input.length ≤ curr + 1 then
        inlineDTDEOF
        return .inr true
      else
        let ch ← deref input (curr + 1)
        if ch = unichar '?' then
          advance 1
          skipXMLProcessingInstruction input
          return .inl ()
        else if ch = unichar '!' then
          let isComment ← if curr + 3 < input.length then followedBy input (curr + 2) (['-', '-'].map unichar)
            else pure false
          if isComment then
            advance 3
            skipXMLComment input
            return .inl ()
          else if ← skipDeclaration input then return .inl ()
          else return .inr true
        else
          setLineError input "Encountered unexpected character %c on line %d while parsing inline DTD"
            [.unichar ch]
          return .inr true
    else if ch = unichar ']' then
      advance 1
      return .inr true
    else
      setLineError input "Encountered unexpected character %c on line %d while parsing inline DTD"
        [.unichar ch]
      return .inr true
  else return .inr false

/-- `skipInlineDTD` -/
def skipInlineDTD (input : Input) : Parse Unit := do
  if ← whileAdvancing input (inlineDTDStep input) () then return ()
  else unlessError inlineDTDEOF

/-- The search of `skipDTD` for the end of the DTD, which it skips, or the
beginning of an inline DTD. -/
def skipToDTDEnd (input : Input) : Parse Bool :=
  whileAdvancing input (fun () => do
    let curr ← currentIndex
    if curr < input.length then
      let ch ← deref input curr
      if ch = unichar '[' then return .inr false
      else
        advance 1
        return if ch = unichar '>' then .inr true else .inl ()
    else return .inr false) ()

/-- `skipDTD`. The cursor is still at the `[` when `skipInlineDTD` starts. -/
def skipDTD (input : Input) : Parse Unit := do
  let curr ← currentIndex
  let isDoctype ← if input.length - curr < Tag.doctype.chars.length then pure false
    else matchString input curr Tag.doctype.chars
  if isDoctype then
    advance Tag.doctype.chars.length
    skipWhitespace input
    if ← skipToDTDEnd input then return ()
    else if (← currentIndex) = input.length then
      setError "Encountered unexpected EOF while parsing DTD" []
    else
      skipInlineDTD input
      if (← Run.get).error.isSome then return ()
      else
        skipWhitespace input
        let curr ← currentIndex
        if curr < input.length then
          if (← deref input curr) = unichar '>' then advance 1
          else unexpectedCharacter input "Encountered unexpected character %c on line %d while parsing DTD"
        else setError "Encountered unexpected EOF while parsing DTD" []
  else setLineError input "Malformed DTD on line %d" []

/-! ## Strings -/

/-- `parseCDSect_pl`: the characters it appends to the string. -/
def parseCDSect (input : Input) : Parse (List UInt16) := do
  let curr ← currentIndex
  if input.length - curr < Tag.cdsect.chars.length then
    unexpectedEOF
    return []
  else if ← matchString input curr Tag.cdsect.chars then
    advance Tag.cdsect.chars.length
    let start ← currentIndex
    let found ← whileAdvancing input (fun () => do
      let curr ← currentIndex
      if curr + 2 < input.length then
        if ← followedBy input curr ([']', ']', '>'].map unichar) then
          let chars ← copyUnits input start curr
          advance 3
          return .inr (some chars)
        else
          advance 1
          return .inl ()
      else return .inr none) ()
    match found with
    | some chars => return chars
    | none =>
      setCurr start
      setLineError input "Could not find end of CDATA started on line %d" []
      return []
  else
    setLineError input "Encountered improper CDATA opening at line %d" []
    return []

/-- A step of the loop over a character reference: `num` is an `uint16_t`. -/
def characterReferenceStep (input : Input) (isHex : Bool) (num : Nat) : Parse (Nat ⊕ List UInt16) := do
  let curr ← currentIndex
  if curr < input.length then
    let ch ← deref input curr
    advance 1
    let shifted := if isHex then num * 16 else num * 10
    if ch = unichar ';' then return .inr [UInt16.ofNat num]
    else if isDigit ch then return .inl ((shifted + (ch.toNat - '0'.toNat)) % 2 ^ 16)
    else if isHex ∧ unichar 'a' ≤ ch ∧ ch ≤ unichar 'f' then
      return .inl ((shifted + (10 + (ch.toNat - 'a'.toNat))) % 2 ^ 16)
    else if isHex ∧ unichar 'A' ≤ ch ∧ ch ≤ unichar 'F' then
      return .inl ((shifted + (10 + (ch.toNat - 'A'.toNat))) % 2 ^ 16)
    else
      setLineError input "Encountered unexpected character %c at line %d" [.unichar ch]
      return .inr []
  else
    unexpectedEOF
    return .inr []

/-- The reference to a character by its number, with the cursor at the `#`. -/
def parseCharacterReference (input : Input) : Parse (List UInt16) := do
  advance 1
  let isHex := (← deref input (← currentIndex)) = unichar 'x'
  if isHex then advance 1
  whileAdvancing input (characterReferenceStep input isHex) 0

def unknownEscape (input : Input) : Parse (List UInt16) := do
  setLineError input "Encountered unknown ampersand-escape sequence at line %d" []
  return []

/-- The end of a named reference. -/
def namedReference (length : Nat) (ch : Char) : Parse (List UInt16) := do
  advance length
  return [unichar ch]

/-- `parseEntityReference_pl`: the characters it appends to the string. The
number of units that are left is kept in an `int`. -/
def parseEntityReference (input : Input) : Parse (List UInt16) := do
  advance 1
  let curr ← currentIndex
  let len := int32 (input.length - curr)
  if len < 1 then
    unexpectedEOF
    return []
  else
    let ch ← deref input curr
    if ch = unichar 'l' then
      if len ≥ 3 then
        if ← followedBy input (curr + 1) (['t', ';'].map unichar) then namedReference 3 '<'
        else unknownEscape input
      else unknownEscape input
    else if ch = unichar 'g' then
      if len ≥ 3 then
        if ← followedBy input (curr + 1) (['t', ';'].map unichar) then namedReference 3 '>'
        else unknownEscape input
      else unknownEscape input
    else if ch = unichar 'a' then
      if len < 4 then
        unexpectedEOF
        return []
      else
        let ch ← deref input (curr + 1)
        if ch = unichar 'm' then
          if ← followedBy input (curr + 2) (['p', ';'].map unichar) then namedReference 4 '&'
          else unknownEscape input
        else if ch = unichar 'p' then
          if len > 4 then
            if ← followedBy input (curr + 2) (['o', 's', ';'].map unichar) then namedReference 5 '\''
            else unknownEscape input
          else unknownEscape input
        else unknownEscape input
    else if ch = unichar 'q' then
      if len ≥ 5 then
        if ← followedBy input (curr + 1) (['u', 'o', 't', ';'].map unichar) then namedReference 5 '"'
        else unknownEscape input
      else unknownEscape input
    else if ch = unichar '#' then
      if len < 4 then
        unexpectedEOF
        return []
      else parseCharacterReference input
    else unknownEscape input

/-- A new string, mutable if the option asks for it. -/
def makeString (input : Input) (chars : List UInt16) : Parsed :=
  .primitive (input.mutabilityOption = .mutableContainersAndLeaves) (.string chars)

/-- A step of `getString`: `mark` is the first character that is not yet in
`string`, which is `NULL` before the first reference or CDATA section. -/
def getStringStep (input : Input) : Nat × Option (List UInt16) → Parse ((Nat × Option (List UInt16)) ⊕
    (Nat × Option (List UInt16))) := fun (mark, string) => do
  let p ← Run.get
  let curr := p.curr
  if p.error.isNone ∧ curr < input.length then
    let ch ← deref input curr
    if ch = unichar '<' then
      if input.length ≤ curr + 1 then return .inr (mark, string)
      else if (← deref input (curr + 1)) ≠ unichar '!' then return .inr (mark, string)
      else
        let chars ← copyUnits input mark curr
        let section_ ← parseCDSect input
        return .inl (← currentIndex, some (string.getD [] ++ chars ++ section_))
    else if ch = unichar '&' then
      let chars ← copyUnits input mark curr
      let reference ← parseEntityReference input
      return .inl (← currentIndex, some (string.getD [] ++ chars ++ reference))
    else
      advance 1
      return .inl (mark, string)
  else return .inr (mark, string)

/-- `getString` -/
def getString (input : Input) : Parse (Option Parsed) := do
  let (mark, string) ← whileAdvancing input (getStringStep input) (← currentIndex, none)
  if (← Run.get).error.isSome then return none
  else
    let chars ← copyUnits input mark (← currentIndex)
    return some (makeString input (string.getD [] ++ chars))

/-! ## Closing tags -/

/-- `checkForCloseTag` -/
def checkForCloseTag (input : Input) (tag : List UInt16) : Parse Bool := do
  let curr ← currentIndex
  let unexpected :=
    unlessError (unexpectedCharacter input "Encountered unexpected character %c on line %d")
  if input.length - curr < tag.length + 3 then
    unlessError unexpectedEOF
    return false
  else if (← deref input curr) ≠ unichar '<' then
    unexpected
    return false
  else
    advance 1
    if (← deref input (curr + 1)) ≠ unichar '/' then
      unexpected
      return false
    else
      advance 1
      if ← matchString input (curr + 2) tag then
        advance tag.length
        skipWhitespace input
        let curr ← currentIndex
        if curr = input.length then
          unlessError unexpectedEOF
          return false
        else if (← deref input curr) ≠ unichar '>' then
          unexpected
          return false
        else
          advance 1
          return true
      else
        unlessError do
          let line ← lineNumber input
          setError "Close tag on line %d does not match open tag %@" [.line line, .string tag]
        return false

/-- The object, if its closing tag follows. -/
def closing (input : Input) (tag : Tag) (object : Parsed) : Parse (Option Parsed) := do
  if ← checkForCloseTag input tag.chars then return some object else return none

/-! ## Data -/

def decodeTable : List Int :=
  [-1, -1, -1, -1, -1, -1, -1, -1,
   -1, -1, -1, -1, -1, -1, -1, -1,
   -1, -1, -1, -1, -1, -1, -1, -1,
   -1, -1, -1, -1, -1, -1, -1, -1,
   -1, -1, -1, -1, -1, -1, -1, -1,
   -1, -1, -1, 62, -1, -1, -1, 63,
   52, 53, 54, 55, 56, 57, 58, 59,
   60, 61, -1, -1, -1,  0, -1, -1,
   -1,  0,  1,  2,  3,  4,  5,  6,
    7,  8,  9, 10, 11, 12, 13, 14,
   15, 16, 17, 18, 19, 20, 21, 22,
   23, 24, 25, -1, -1, -1, -1, -1,
   -1, 26, 27, 28, 29, 30, 31, 32,
   33, 34, 35, 36, 37, 38, 39, 40,
   41, 42, 43, 44, 45, 46, 47, 48,
   49, 50, 51, -1, -1, -1, -1, -1]

/-- `__CFPLDataDecodeTable[c]`, with `c` the unit at the cursor. -/
def decodeEntry (input : Input) (c : UInt16) : Parse Int := do
  visit .dataDecode
  Run.emit (.table 128 c.toNat)
  return decodeTable.getD c.toNat (input.beyondDecodeTable (c.toNat - 128))

/-- `isspace` -/
def isSpace (c : UInt16) : Bool := c = unichar ' ' || (9 ≤ c && c ≤ 13)

/-- The variables of `__CFPLDataDecode`; `bytes` are the `tmpbufpos` bytes in
the buffer. Only the low 24 bits of `acc` are looked at. -/
structure DataDecoder where
  numeq : Int := 0
  acc : Nat := 0
  cntr : Nat := 0
  tmpbuflen : Int := 256
  bytes : List UInt8 := []

/-- The new size of a buffer that is full, an `int`. -/
def growBuffer (tmpbuflen : Int) : Int :=
  int32 (if tmpbuflen < 256 * 1024 then tmpbuflen * 4
    else if tmpbuflen < 16 * 1024 * 1024 then tmpbuflen * 2
    else tmpbuflen + 256 * 1024)

/-- Up to three bytes are put into the buffer. Memory for a buffer of negative
size is not found. -/
def DataDecoder.flush (d : DataDecoder) : Parse DataDecoder :=
  let full := d.tmpbuflen ≤ d.bytes.length + 2
  let tmpbuflen := if full then growBuffer d.tmpbuflen else d.tmpbuflen
  if full ∧ tmpbuflen < 0 then Run.halt
  else
    let first := [UInt8.ofNat (d.acc / 2 ^ 16)]
    let second := if d.numeq < 2 then [UInt8.ofNat (d.acc / 2 ^ 8)] else []
    let third := if d.numeq < 1 then [UInt8.ofNat d.acc] else []
    return { d with tmpbuflen := tmpbuflen, bytes := d.bytes ++ first ++ second ++ third }

/-- One character of the data. -/
def DataDecoder.step (d : DataDecoder) (input : Input) (c : UInt16) : Parse DataDecoder := do
  let d := { d with numeq := if c = unichar '=' then int32 (d.numeq + 1) else if isSpace c then d.numeq else 0 }
  let entry ← decodeEntry input c
  if entry < 0 then return d
  else
    let d := { d with cntr := d.cntr + 1, acc := (d.acc * 2 ^ 6 + entry.toNat) % 2 ^ 32 }
    if d.cntr % 4 = 0 then d.flush else return d

/-- `__CFPLDataDecode` -/
def dataDecode (input : Input) : Parse (List UInt8) := do
  let d ← whileAdvancing input (fun d => do
    let curr ← currentIndex
    if curr < input.length then
      let c ← deref input curr
      if c = unichar '<' then return .inr d
      else
        let d ← d.step input c
        advance 1
        return .inl d
    else return .inr d) ({} : DataDecoder)
  return d.bytes

/-- `parseDataTag` -/
def parseDataTag (input : Input) : Parse (Option Parsed) := do
  let bytes ← dataDecode input
  closing input .data (.primitive (input.mutabilityOption = .mutableContainersAndLeaves) (.data bytes))

/-! ## Dates -/

/-- `read2DigitNumber` -/
def read2DigitNumber (input : Input) : Parse (Option Int) := do
  let curr ← currentIndex
  if input.length ≤ curr + 2 then return none
  else
    let ch1 ← deref input curr
    let ch2 ← deref input (curr + 1)
    advance 2
    if isDigit ch1 ∧ isDigit ch2 then
      return some ((ch1.toNat - '0'.toNat : Int) * 10 + (ch2.toNat - '0'.toNat : Int))
    else return none

/-- Fields of two digits, each with the character after it. -/
def readFields (input : Input) : List Char → Parse (Option (List Int))
  | [] => return some []
  | terminator :: rest => do
    match ← read2DigitNumber input with
    | none => return none
    | some field =>
      let curr ← currentIndex
      if curr < input.length then
        if (← deref input curr) = unichar terminator then
          advance 1
          return (← readFields input rest).map (field :: ·)
        else return none
      else return none

/-- The year of a date, an `int32_t`. -/
def readYear (input : Input) : Parse Int :=
  whileAdvancing input (fun year => do
    let curr ← currentIndex
    if curr < input.length then
      let ch ← deref input curr
      if isDigit ch then
        advance 1
        return .inl (int32 (10 * year + (ch.toNat - '0'.toNat : Int)))
      else return .inr year
    else return .inr year) 0

/-- The date up to its closing tag, or none if it is malformed. -/
def readDate (input : Input) : Parse (Option Calendar.GregorianDate) := do
  let curr ← currentIndex
  let yearIsNegative ← if curr < input.length then followedBy input curr [unichar '-'] else pure false
  if yearIsNegative then advance 1
  let year ← readYear input
  let curr ← currentIndex
  if curr < input.length then
    if (← deref input curr) = unichar '-' then
      advance 1
      match ← readFields input ['-', 'T', ':', ':', 'Z'] with
      | some [month, day, hour, minute, second] =>
        return some ⟨if yearIsNegative then int32 (-year) else year, month, day, hour, minute, second⟩
      | _ => return none
    else return none
  else return none

/-- `CFGregorianDateGetAbsoluteTime(date, NULL)`, which does not check the
month. -/
def absoluteTime (input : Input) (date : Calendar.GregorianDate) : Parse UInt64 := do
  visit (.date date.month)
  Run.emit (.table 16 date.month.toNat)
  return Calendar.gregorianDateGetAbsoluteTime input.beyondMonths date

/-- `parseDateTag` -/
def parseDateTag (input : Input) : Parse (Option Parsed) := do
  match ← readDate input with
  | none =>
    setLineError input "Could not interpret <date> at line %d" []
    return none
  | some date =>
    if ← checkForCloseTag input Tag.date.chars then
      let time ← absoluteTime input date
      return some (.primitive false (.date time))
    else return none

/-! ## Numbers -/

/-- The names of the numbers that are not finite. -/
def realNames : List (List Char × CFNumber) :=
  [(['n', 'a', 'n'], .nan),
   (['+', 'i', 'n', 'f', 'i', 'n', 'i', 't', 'y'], .positiveInfinity),
   (['-', 'i', 'n', 'f', 'i', 'n', 'i', 't', 'y'], .negativeInfinity),
   (['i', 'n', 'f', 'i', 'n', 'i', 't', 'y'], .positiveInfinity),
   (['-', 'i', 'n', 'f'], .negativeInfinity),
   (['i', 'n', 'f'], .positiveInfinity),
   (['+', 'i', 'n', 'f'], .positiveInfinity)]

/-- The number a string stands for. The lengths are kept in `SInt32`s. -/
def realOfString (input : Input) (chars : List UInt16) : Option CFNumber :=
  match realNames.find? fun name => input.library.equalIgnoringCase chars (name.1.map unichar) with
  | some name => some name.2
  | none =>
    match input.library.scanDouble chars with
    | some (bits, idx) => if int32 idx = int32 chars.length then some (CFNumber.createFloat64 bits) else none
    | none => none

/-- The characters of a string object. -/
def stringChars : Parsed → List UInt16
  | .primitive _ (.string chars) => chars
  | _ => []

/-- `parseRealTag` -/
def parseRealTag (input : Input) : Parse (Option Parsed) := do
  match ← getString input with
  | none =>
    unlessError (setLineError input "Encountered empty <real> on line %d" [])
    return none
  | some str =>
    match realOfString input (stringChars str) with
    | some number => closing input .real (.primitive false (.number number))
    | none =>
      setLineError input "Encountered misformatted real on line %d" []
      return none

/-- `__CFIsWhitespace` -/
def cfIsWhitespace (c : UInt16) : Bool :=
  c < 0x21 || (0x7e < c && c < 0xa1) || (0x2000 ≤ c && c ≤ 0x200b) || c = 0x3000

/-- `while (pInfo->curr < pInfo->end && p(*(pInfo->curr))) pInfo->curr++;` -/
def skipUnits (input : Input) (p : UInt16 → Bool) : Parse Unit :=
  whileAdvancing input (fun () => do
    let curr ← currentIndex
    if curr < input.length then
      if p (← deref input curr) then
        advance 1
        return .inl ()
      else return .inr ()
    else return .inr ()) ()

/-- `GET_CH`: the unit at the cursor, or `NULL` is returned with an error. -/
def getCh (input : Input) : Parse (Option UInt16) := do
  let curr ← currentIndex
  if curr = input.length then
    setLineError input "Premature end of file after <integer> on line %d" []
    return none
  else return some (← deref input curr)

/-- The value of a digit, up to base 16. -/
def digitValue (ch : UInt16) : Option Nat :=
  if isDigit ch then some (ch.toNat - '0'.toNat)
  else if unichar 'a' ≤ ch ∧ ch ≤ unichar 'f' then some (ch.toNat - 'a'.toNat + 10)
  else if unichar 'A' ≤ ch ∧ ch ≤ unichar 'F' then some (ch.toNat - 'A'.toNat + 10)
  else none

/-- A step of the loop over the digits: `ch` is the unit at the cursor, and
`value` an `uint64_t`. -/
def digitStep (input : Input) (isHex isNeg : Bool) : UInt16 × Nat → Parse ((UInt16 × Nat) ⊕ Option Nat) :=
  fun (ch, value) => do
    let multiplier := if isHex then 16 else 10
    if ch = unichar '<' then return .inr (some value)
    else
      match digitValue ch with
      | none =>
        setLineError input "Unknown character '%c' (0x%x) in <integer> on line %d" [.unichar ch, .unichar ch]
        return .inr none
      | some newDigit =>
        if !isHex ∧ 9 < newDigit then
          setLineError input "Hex digit in non-hex <integer> on line %d" []
          return .inr none
        else if (2 ^ 64 - 1) / multiplier < value ∨ 2 ^ 64 - 1 - newDigit < multiplier * value then
          setLineError input "Integer overflow in <integer> on line %d" []
          return .inr none
        else if isNeg ∧ 2 ^ 63 < multiplier * value + newDigit then
          setLineError input "Integer underflow in <integer> on line %d" []
          return .inr none
        else
          advance 1
          match ← getCh input with
          | none => return .inr none
          | some ch => return .inl (ch, multiplier * value + newDigit)

/-- A step over leading zeros: `ch` is the unit at the cursor. -/
def leadingZeroStep (input : Input) : UInt16 × Bool → Parse ((UInt16 × Bool) ⊕ Option (UInt16 × Bool)) :=
  fun (ch, hadLeadingZero) => do
    if ch = unichar '0' then
      advance 1
      match ← getCh input with
      | none => return .inr none
      | some ch => return .inl (ch, true)
    else return .inr (some (ch, hadLeadingZero))

def isHexMark (ch : UInt16) : Bool := ch = unichar 'x' || ch = unichar 'X'

/-- The `0` or `0x` that an integer may start with: `isHex` and
`hadLeadingZero`. -/
def parseRadix (input : Input) (ch : UInt16) : Parse (Bool × Bool) := do
  if ch = unichar '0' then
    let curr ← currentIndex
    let isHex ← if curr + 1 < input.length then do pure (isHexMark (← deref input (curr + 1))) else pure false
    advance (if isHex then 2 else 1)
    return (isHex, !isHex)
  else return (false, false)

/-- The integer with a sign and a magnitude. -/
def makeInteger (isNeg : Bool) (value : Nat) : CFNumber :=
  if isNeg ∨ value < 2 ^ 63 then .sint64 (Int64.ofInt (if isNeg then -(value : Int) else value))
  else .sint128 (UInt64.ofNat value)

/-- The digits of an integer, after its sign. -/
def parseMagnitude (input : Input) (isNeg : Bool) (ch : UInt16) : Parse (Option Parsed) := do
  let (isHex, hadLeadingZero) ← parseRadix input ch
  match ← getCh input with
  | none => return none
  | some ch =>
    match ← whileAdvancing input (leadingZeroStep input) (ch, hadLeadingZero) with
    | none => return none
    | some (ch, hadLeadingZero) =>
      if ch = unichar '<' ∧ hadLeadingZero then
        closing input .integer (.primitive false (.number (.sint64 0)))
      else if ch = unichar '<' then
        setLineError input "Incomplete <integer> on line %d" []
        return none
      else
        match ← whileAdvancing input (digitStep input isHex isNeg) (ch, 0) with
        | none => return none
        | some value => closing input .integer (.primitive false (.number (makeInteger isNeg value)))

/-- `parseIntegerTag` -/
def parseIntegerTag (input : Input) : Parse (Option Parsed) := do
  skipUnits input cfIsWhitespace
  match ← getCh input with
  | none => return none
  | some ch =>
    if ch = unichar '<' then
      setLineError input "Encountered empty <integer> on line %d" []
      return none
    else
      let isNeg := ch = unichar '-'
      if ch = unichar '-' ∨ ch = unichar '+' then
        advance 1
        skipUnits input cfIsWhitespace
      match ← getCh input with
      | none => return none
      | some ch => parseMagnitude input isNeg ch

/-! ## Containers -/

/-- `getContentObject`, as the functions for containers call it: an object and
whether it is a key. -/
abbrev Content := Parse (Option (Parsed × Bool))

/-- `parsePListTag` -/
def parsePListTag (input : Input) (content : Content) : Parse (Option Parsed) := do
  match ← content with
  | none =>
    unlessError (setError "Encountered empty plist tag" [])
    return none
  | some (result, _) =>
    let save ← currentIndex
    match ← content with
    | some _ =>
      setCurr save
      setLineError input "Encountered unexpected element at line %d (plist can only include one object)" []
      return none
    | none =>
      if (← Run.get).error.isSome then return none
      else closing input .plist result

/-- Whether a container with content is mutable: only the environment makes an
immutable copy of it. -/
def Input.filledContainerIsMutable (input : Input) : Bool :=
  !(input.allowImmutableCollections && input.mutabilityOption = .immutable)

/-- The loop of `parseArrayTag` over the objects of the array. -/
def arrayStep (content : Content) (array : List Parsed) : Parse (List Parsed ⊕ List Parsed) := do
  match ← content with
  | some (object, _) => return .inl (array ++ [object])
  | none => return .inr array

/-- `parseArrayTag` -/
def parseArrayTag (input : Input) (content : Content) : Parse (Option Parsed) := do
  let array ← whileAdvancing input (arrayStep content) []
  if (← Run.get).error.isSome then return none
  else closing input .array (.container input.filledContainerIsMutable .array array)

/-- `CFDictionarySetValue`, for keys that are strings. -/
def dictionarySetValue (entries : List (Parsed × Parsed)) (key value : Parsed) : List (Parsed × Parsed) :=
  if entries.any fun e => e.1.erase = key.erase then
    entries.map fun e => if e.1.erase = key.erase then (e.1, value) else e
  else entries ++ [(key, value)]

def makeDictionary (isMutable : Bool) (entries : List (Parsed × Parsed)) : Parsed :=
  .container isMutable .dictionary (entries.map Prod.fst ++ entries.map Prod.snd)

/-- `CFSTR("CF$UID")` -/
def uidKey : List UInt16 := ['C', 'F', '$', 'U', 'I', 'D'].map unichar

/-- The archiver UID that a dictionary with a number under `CF$UID` stands
for. -/
def uidOfEntries (input : Input) (entries : List (Parsed × Parsed)) : Option UInt32 :=
  match entries with
  | [(key, .primitive _ (.number value))] =>
    if key.erase = .primitive () (.string uidKey) then some (value.sint32Value input.library.int32OfReal) else none
  | _ => none

/-- A step of `parseDictTag`, which stops with the entries, or none if an error
made it return `NULL`. -/
def dictStep (input : Input) (content : Content) (entries : List (Parsed × Parsed)) :
    Parse (List (Parsed × Parsed) ⊕ Option (List (Parsed × Parsed))) := do
  let base ← currentIndex
  match ← content with
  | none => return .inr (some entries)
  | some (key, gotKey) =>
    if gotKey then
      match ← content with
      | none =>
        unlessError (setLineError input "Value missing for key inside <dict> at line %d" [])
        return .inr none
      | some (value, _) => return .inl (dictionarySetValue entries key value)
    else
      setCurr base
      unlessError (setLineError input "Found non-key inside <dict> at line %d" [])
      return .inr none

/-- The object for the entries of a dictionary. There is no dictionary yet when
there are no entries. -/
def objectOfEntries (input : Input) (entries : List (Parsed × Parsed)) : Parsed :=
  if entries.isEmpty then makeDictionary (input.mutabilityOption ≠ .immutable) []
  else
    match uidOfEntries input entries with
    | some value => .primitive false (.uid value)
    | none => makeDictionary input.filledContainerIsMutable entries

/-- `parseDictTag` -/
def parseDictTag (input : Input) (content : Content) : Parse (Option Parsed) := do
  match ← whileAdvancing input (dictStep input content) [] with
  | none => return none
  | some entries => closing input .dict (objectOfEntries input entries)

/-! ## Elements -/

/-- A step over the units of a tag, up to the `>`: the length of the tag's name
is an `int`, and -1 until it is known. -/
def tagStep (input : Input) (marker : Nat) (markerLength : Int) : Parse (Int ⊕ Int) := do
  let curr ← currentIndex
  if curr < input.length then
    let ch ← deref input curr
    if isXMLSpace ch then
      advance 1
      return .inl (if markerLength = -1 then int32 (curr - marker) else markerLength)
    else if ch = unichar '>' then return .inr markerLength
    else
      advance 1
      return .inl markerLength
  else return .inr markerLength

/-- The tag, if the marker is its name. -/
def matchTag (input : Input) (marker : Nat) (markerLength : Int) (tag : Tag) : Parse (Option Tag) := do
  if markerLength = tag.chars.length then
    if ← matchString input marker tag.chars then return some tag else return none
  else return none

/-- The first of some tags whose name the marker is. -/
def matchTags (input : Input) (marker : Nat) (markerLength : Int) : List Tag → Parse (Option Tag)
  | [] => return none
  | tag :: tags => do
    match ← matchTag input marker markerLength tag with
    | some tag => return some tag
    | none => matchTags input marker markerLength tags

/-- The tags that start with a character. -/
def tagsStartingWith (c : UInt16) : List Tag :=
  if c = unichar 'a' then [.array]
  else if c = unichar 'd' then [.dict, .data, .date]
  else if c = unichar 'f' then [.booleanFalse]
  else if c = unichar 'i' then [.integer]
  else if c = unichar 'k' then [.key]
  else if c = unichar 'p' then [.plist]
  else if c = unichar 'r' then [.real]
  else if c = unichar 's' then [.string]
  else if c = unichar 't' then [.booleanTrue]
  else []

/-- `markerIx` -/
def markerTag (input : Input) (marker : Nat) (markerLength : Int) : Parse (Option Tag) := do
  matchTags input marker markerLength (tagsStartingWith (← deref input marker))

/-- The tags of the old-style objects. -/
def isOldStyleTag (tag : Option Tag) : Bool :=
  [some .plist, some .array, some .dict, some .string, some .key, some .data].contains tag

def unknownTag (input : Input) (marker : Nat) (markerLength : Int) : Parse (Option Parsed) := do
  visit (.unknownTag markerLength)
  Run.emit (.copy (← currentIndex) marker markerLength)
  setCurr marker
  setLineError input "Encountered unknown tag %@ on line %d" [.string (input.slice marker markerLength.toNat)]
  return none

/-- A tag that must not be empty. -/
def emptyTag (input : Input) (debugString : String) : Parse (Option Parsed) := do
  setLineError input debugString []
  return none

/-- The `switch` on the tag, after its `>`. -/
def parseTag (input : Input) (content : Content) (marker : Nat) (markerLength : Int) (isEmpty : Bool) :
    Option Tag → Parse (Option Parsed)
  | some .plist =>
    if isEmpty then do
      setError "Encountered empty plist tag" []
      return none
    else parsePListTag input content
  | some .array =>
    if isEmpty then return some (.container (input.mutabilityOption ≠ .immutable) .array [])
    else parseArrayTag input content
  | some .dict =>
    if isEmpty then return some (makeDictionary (input.mutabilityOption ≠ .immutable) [])
    else parseDictTag input content
  | some .key => string .key
  | some .string => string .string
  | some .data => if isEmpty then emptyTag input "Encountered empty <data> on line %d" else parseDataTag input
  | some .date => if isEmpty then emptyTag input "Encountered empty <date> on line %d" else parseDateTag input
  | some .booleanTrue => boolean .booleanTrue true
  | some .booleanFalse => boolean .booleanFalse false
  | some .real => if isEmpty then emptyTag input "Encountered empty <real> on line %d" else parseRealTag input
  | some .integer =>
    if isEmpty then emptyTag input "Encountered empty <integer> on line %d" else parseIntegerTag input
  | _ => unknownTag input marker markerLength
where
  string (tag : Tag) : Parse (Option Parsed) := do
    if isEmpty then return some (makeString input [])
    else
      match ← getString input with
      | none => return none
      | some str => closing input tag str
  boolean (tag : Tag) (value : Bool) : Parse (Option Parsed) :=
    if isEmpty then return some (.primitive false (.boolean value))
    else closing input tag (.primitive false (.boolean value))

/-- `parseXMLElement` -/
def parseXMLElement (input : Input) (content : Content) : Parse (Option (Parsed × Bool)) := do
  let marker ← currentIndex
  let markerLength ← whileAdvancing input (tagStep input marker) (-1)
  let curr ← currentIndex
  if input.length ≤ curr then return none
  else
    let isEmpty := (← deref input (curr - 1)) = unichar '/'
    let markerLength :=
      if markerLength = -1 then int32 (curr - (if isEmpty then 1 else 0) - marker) else markerLength
    advance 1
    if markerLength = 0 then
      setCurr marker
      setLineError input "Malformed tag on line %d" []
      return none
    else
      let tag ← markerTag input marker markerLength
      if !input.allowNewTypes ∧ !isOldStyleTag tag then
        setError "Encountered new tag when expecting only old-style property list objects" []
        return none
      else
        match ← parseTag input content marker markerLength isEmpty tag with
        | some object => return some (object, tag = some .key)
        | none => return none

/-- A step of `getContentObject`. -/
def contentStep (input : Input) (content : Content) :
    Unit → Parse (Unit ⊕ Option (Parsed × Bool)) := fun () => do
  let p ← Run.get
  if p.error.isNone ∧ p.curr < input.length then
    skipWhitespace input
    let curr ← currentIndex
    if input.length ≤ curr then
      unexpectedEOF
      return .inr none
    else if (← deref input curr) ≠ unichar '<' then
      unexpectedCharacter input "Encountered unexpected character %c on line %d"
      return .inr none
    else
      advance 1
      let curr ← currentIndex
      if input.length ≤ curr then
        unexpectedEOF
        return .inr none
      else
        let ch ← deref input curr
        if ch = unichar '?' then
          skipXMLProcessingInstruction input
          return .inl ()
        else if ch = unichar '!' then
          if input.length ≤ curr + 2 then
            unexpectedEOF
            return .inr none
          else if ← followedBy input (curr + 1) (['-', '-'].map unichar) then
            advance 2
            skipXMLComment input
            return .inl ()
          else
            unexpectedEOF
            return .inr none
        else if ch = unichar '/' then
          backOff
          return .inr none
        else return .inr (← parseXMLElement input content)
  else return .inr none

/-- `getContentObject`, in a document of bounded depth. -/
def getContentObject (input : Input) : Nat → Content
  | 0 => Run.outOfFuel
  | depth + 1 => whileAdvancing input (contentStep input (getContentObject input depth)) ()

/-! ## Documents -/

/-- A depth that no document exceeds: every element has a `<` of its own. -/
def Input.depth (input : Input) : Nat := input.length + 1

/-- A step of `parseXMLPropertyList`. -/
def documentStep (input : Input) : Unit → Parse (Unit ⊕ Option (Option Parsed)) := fun () => do
  let p ← Run.get
  if p.error.isNone ∧ p.curr < input.length then
    skipWhitespace input
    let curr ← currentIndex
    if input.length ≤ curr + 1 then
      setError "No XML content found" []
      return .inr (some none)
    else if (← deref input curr) ≠ unichar '<' then
      unexpectedCharacter input "Unexpected character %c at line %d"
      return .inr (some none)
    else
      advance 1
      let ch ← deref input (curr + 1)
      if ch = unichar '!' then
        advance 1
        let isComment ← if curr + 3 < input.length then followedBy input (curr + 2) (['-', '-'].map unichar)
          else pure false
        if isComment then
          advance 2
          skipXMLComment input
          return .inl ()
        else
          skipDTD input
          return .inl ()
      else if ch = unichar '?' then
        advance 1
        skipXMLProcessingInstruction input
        return .inl ()
      else
        let element ← parseXMLElement input (getContentObject input input.depth)
        return .inr (some (element.map Prod.fst))
  else return .inr none

/-- `parseXMLPropertyList` -/
def parseXMLPropertyList (input : Input) : Parse (Option Parsed) := do
  match ← whileAdvancing input (documentStep input) () with
  | some result => return result
  | none =>
    unlessError unexpectedEOF
    return none

end CFLite.TextPlist
