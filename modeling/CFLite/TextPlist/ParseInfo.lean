import CFLite.Base.Calendar
import CFLite.Base.Object
import CFLite.Framework.Run

/-!
# The state of the text parsers

`_CFXMLPlistParseInfo` and what all functions of the XML parser and the
old-style parser use. `Input` is what a parse never changes: the units from
`begin` to `end`, the options, and what the memory holds after the text and
after the two tables that the code may read too far. The two fields that
change, `curr` and `error`, are `ParseInfo`, with `curr` counted from `begin`.

Every unit and table entry the code reads is an event (`Event.inBounds`). At
the few places where the code reads without a check of its own, the parse also
records the state it comes to that place in (`Event.guard`).
-/

namespace CFLite.TextPlist

open CFLite.Framework

/-! ## Characters and tags -/

/-- A character of the source, as a `UniChar`. -/
abbrev unichar (c : Char) : UInt16 := UInt16.ofNat c.toNat

/-- `CFXMLPlistTags` -/
inductive Tag where
  | plist | array | dict | key | string | data | date | real | integer | booleanTrue | booleanFalse
  | doctype | cdsect
  deriving DecidableEq, Repr

def Tag.chars : Tag → List UInt16
  | plist => ['p', 'l', 'i', 's', 't'].map unichar
  | array => ['a', 'r', 'r', 'a', 'y'].map unichar
  | dict => ['d', 'i', 'c', 't'].map unichar
  | key => ['k', 'e', 'y'].map unichar
  | string => ['s', 't', 'r', 'i', 'n', 'g'].map unichar
  | data => ['d', 'a', 't', 'a'].map unichar
  | date => ['d', 'a', 't', 'e'].map unichar
  | real => ['r', 'e', 'a', 'l'].map unichar
  | integer => ['i', 'n', 't', 'e', 'g', 'e', 'r'].map unichar
  | booleanTrue => ['t', 'r', 'u', 'e'].map unichar
  | booleanFalse => ['f', 'a', 'l', 's', 'e'].map unichar
  | doctype => ['D', 'O', 'C', 'T', 'Y', 'P', 'E'].map unichar
  | cdsect => ['<', '!', '[', 'C', 'D', 'A', 'T', 'A', '['].map unichar

def isDigit (c : UInt16) : Bool := unichar '0' ≤ c && c ≤ unichar '9'
def isOctalDigit (c : UInt16) : Bool := unichar '0' ≤ c && c ≤ unichar '7'

/-- The characters `skipWhitespace` skips. -/
def isXMLSpace (c : UInt16) : Bool := c = unichar ' ' || c = unichar '\t' || c = unichar '\n' || c = unichar '\r'

/-! ## Errors -/

inductive ErrorArgument where
  | line (number : Nat)
  | unichar (c : UInt16)
  | string (chars : List UInt16)
  deriving DecidableEq, Repr

/-- A `CFErrorRef` of `__CFPropertyListCreateError`: the code, and the format
and arguments of its debug description. -/
structure CFError where
  code : Nat
  debugString : String
  arguments : List ErrorArgument
  deriving DecidableEq, Repr

def kCFPropertyListReadCorruptError : Nat := 3840

/-! ## Input and state -/

/-- Functions of other files that the parsers call. -/
structure Library where
  /-- `__CFStringScanDouble` from the start of a string: the bits of the
  double and the index of the first character after it. -/
  scanDouble : List UInt16 → Option (UInt64 × Nat)
  /-- `CFStringCompare(…, kCFCompareCaseInsensitive) == kCFCompareEqualTo` -/
  equalIgnoringCase : List UInt16 → List UInt16 → Bool
  /-- A byte of `kCFStringEncodingNextStepLatin` as a character. -/
  nextStepLatin : UInt8 → Option UInt16
  /-- A floating point `CFNumber` cast to `int32_t`. -/
  int32OfReal : CFNumber → UInt32

structure Input where
  text : List UInt16
  /-- The units that the memory holds from `end` on. -/
  beyond : Nat → UInt16
  /-- The entries that the memory holds after `__CFPLDataDecodeTable`. -/
  beyondDecodeTable : Nat → Int
  /-- The entries that the memory holds after `daysBeforeMonth`. -/
  beyondMonths : Nat → UInt16
  mutabilityOption : Mutability
  allowNewTypes : Bool
  /-- Whether the environment has `CFPropertyListAllowImmutableCollections`. -/
  allowImmutableCollections : Bool
  library : Library

namespace Input

/-- `pInfo->end - pInfo->begin` -/
def length (input : Input) : Nat := input.text.length

/-- The unit that is `i` units after `begin`. -/
def unit (input : Input) (i : Nat) : UInt16 := input.text.getD i (input.beyond (i - input.length))

/-- The `count` units from the `i`th on. -/
def slice (input : Input) (i count : Nat) : List UInt16 := (List.range count).map fun k => input.unit (i + k)

end Input

structure ParseInfo where
  curr : Nat
  error : Option CFError
  deriving DecidableEq

/-! ## Events -/

/-- The places where the code reads what it did not check to be there. -/
inductive Site where
  | lineNumber
  | dataDecode
  | unknownTag (markerLength : Int)
  | date (month : Int)
  | slashedChar
  | dataEnd
  deriving DecidableEq, Repr

inductive Event where
  /-- The unit at `index` is read when the cursor is at `curr`. -/
  | unit (curr index : Nat)
  /-- `length` units from `start` on are copied. -/
  | copy (curr start : Nat) (length : Int)
  /-- An entry of a table of `size` entries is read. -/
  | table (size index : Nat)
  /-- The code comes to a place with the cursor at `curr`. -/
  | visit (curr : Nat) (site : Site)
  deriving DecidableEq, Repr

/-- The cursor is between `begin` and `end`, and what is read is before `end`
or in the table. -/
def Event.inBounds (input : Input) : Event → Bool
  | unit curr index => curr ≤ input.length && index < input.length
  | copy curr start length => curr ≤ input.length && 0 ≤ length && start + length ≤ input.length
  | table size index => index < size
  | visit _ _ => true

/-- The condition that the code relies on at each of the places.

* `lineNumber` looks past a carriage return, so the text before the cursor must
  not end in one when the cursor is at `end`;
* `__CFPLDataDecode` looks up the unit at the cursor in a table of 128;
* the copied length of an unknown tag is an `int`;
* the month of a date indexes a table of 16;
* `getSlashedChar` reads the unit after the backslash, and another one if that
  is an octal digit;
* `parsePlistData` reads the unit after the last pair of hexadecimal digits. -/
def Event.guard (input : Input) : Event → Bool
  | visit curr .lineNumber => !(curr = input.length && input.text.getLast? = some (unichar '\r'))
  | visit curr .dataDecode => input.unit curr < 128
  | visit _ (.unknownTag markerLength) => 0 ≤ markerLength
  | visit _ (.date month) => month < 16
  | visit curr .slashedChar =>
    curr < input.length && (!isOctalDigit (input.unit curr) || curr + 1 < input.length)
  | visit curr .dataEnd => curr < input.length
  | _ => true

/-! ## Primitive operations -/

abbrev Parse (α : Type) := Run Event ParseInfo α

/-- An object the parser makes, labelled with whether it is mutable. -/
abbrev Parsed := Object Bool

def currentIndex : Parse Nat := do return (← Run.get).curr

/-- `pInfo->curr = index;` -/
def setCurr (index : Nat) : Parse Unit := Run.modify fun p => { p with curr := index }

/-- `pInfo->curr += count;` -/
def advance (count : Nat) : Parse Unit := Run.modify fun p => { p with curr := p.curr + count }

/-- `pInfo->curr --;` -/
def backOff : Parse Unit := Run.modify fun p => { p with curr := p.curr - 1 }

def visit (site : Site) : Parse Unit := do Run.emit (.visit (← currentIndex) site)

/-- The unit at an address of the text. -/
def deref (input : Input) (index : Nat) : Parse UInt16 := do
  Run.emit (.unit (← currentIndex) index)
  return input.unit index

/-- The units from `start` to `stop`, for a new string. -/
def copyUnits (input : Input) (start stop : Nat) : Parse (List UInt16) := do
  Run.emit (.copy (← currentIndex) start (stop - start : Int))
  return input.slice start (stop - start)

/-- `pInfo->error = __CFPropertyListCreateError(kCFPropertyListReadCorruptError, …);` -/
def setError (debugString : String) (arguments : List ErrorArgument) : Parse Unit :=
  Run.modify fun p => { p with error := some ⟨kCFPropertyListReadCorruptError, debugString, arguments⟩ }

/-- `if (pInfo->error) { CFRelease(pInfo->error); pInfo->error = NULL; }` -/
def clearError : Parse Unit := Run.modify fun p => { p with error := none }

/-- A loop that advances the cursor with each step but the last. -/
def whileAdvancing {α β : Type} (input : Input) (body : α → Parse (α ⊕ β)) (a : α) : Parse β := do
  Run.loop body (input.length - (← currentIndex) + 1) a

/-! ## Functions of both parsers -/

/-- The loop of `lineNumber`, from `p` on with `count` lines so far. -/
def countLines (input : Input) (curr : Nat) : Nat × Nat → Parse ((Nat × Nat) ⊕ Nat) := fun (p, count) => do
  if p < curr then
    let ch ← deref input p
    if ch = unichar '\r' then
      let next ← deref input (p + 1)
      return .inl (if next = unichar '\n' then p + 2 else p + 1, count + 1)
    else if ch = unichar '\n' then return .inl (p + 1, count + 1)
    else return .inl (p + 1, count)
  else return .inr count

/-- `lineNumber` -/
def lineNumber (input : Input) : Parse Nat := do
  visit .lineNumber
  let curr ← currentIndex
  let count ← Run.loop (countLines input curr) (curr + 1) (0, 1)
  return count % 2 ^ 32

/-- An error whose text ends in the number of the line. -/
def setLineError (input : Input) (debugString : String) (arguments : List ErrorArgument) : Parse Unit := do
  let line ← lineNumber input
  setError debugString (arguments ++ [.line line])

/-- `skipWhitespace` -/
def skipWhitespace (input : Input) : Parse Unit :=
  whileAdvancing input (fun () => do
    let curr ← currentIndex
    if curr < input.length then
      if isXMLSpace (← deref input curr) then
        advance 1
        return .inl ()
      else return .inr ()
    else return .inr ()) ()

/-- `matchString`, which compares from the last unit to the first. -/
def matchString (input : Input) (buf : Nat) (stringToMatch : List UInt16) : Parse Bool :=
  compareUnits stringToMatch.reverse
where
  compareUnits : List UInt16 → Parse Bool
    | [] => return true
    | unit :: rest => do
      if (← deref input (buf + rest.length)) ≠ unit then return false
      else compareUnits rest

end CFLite.TextPlist
