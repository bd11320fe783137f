import CFLite.Strings.EightBitEncoding

/-!
# Characters of URLs

The table `sURLValidCharacters` of `CFURL.c`, and the predicates read from it.
-/

namespace CFLite.URL

export Strings (UniChar)

/-- A character of the source, as a `UniChar`. -/
abbrev unichar (c : Char) : UniChar := UInt16.ofNat c.toNat

/-- The bits of an entry of `sURLValidCharacters`. -/
inductive CharacterClass
  | valid | unreserved | pathValid | scheme | hexDigit
  deriving DecidableEq

/-- `sURLValidCharacters`, as the classes of the character. All others have none. -/
def sURLValidCharacters (ch : UniChar) : List CharacterClass :=
  if unichar '0' ≤ ch && ch ≤ unichar '9' || unichar 'A' ≤ ch && ch ≤ unichar 'F' ||
      unichar 'a' ≤ ch && ch ≤ unichar 'f' then
    [.valid, .unreserved, .scheme, .pathValid, .hexDigit]
  else if unichar 'G' ≤ ch && ch ≤ unichar 'Z' || unichar 'g' ≤ ch && ch ≤ unichar 'z' then
    [.valid, .unreserved, .scheme, .pathValid]
  else if ch == unichar '-' || ch == unichar '.' then [.valid, .unreserved, .scheme, .pathValid]
  else if ch == unichar '+' then [.valid, .scheme, .pathValid]
  else if (['!', '\'', '(', ')', '*', '_', '~'].map unichar).contains ch then [.valid, .unreserved, .pathValid]
  else if (['$', '&', ',', '/', '='].map unichar).contains ch then [.valid, .pathValid]
  else if ([':', ';', '?', '@'].map unichar).contains ch then [.valid]
  else []

def isURLLegalCharacter (ch : UniChar) : Bool := (sURLValidCharacters ch).contains .valid

/-- `scheme_valid` -/
def schemeValid (ch : UniChar) : Bool := (sURLValidCharacters ch).contains .scheme

def isUnreservedCharacter (ch : UniChar) : Bool := (sURLValidCharacters ch).contains .unreserved

def isPathLegalCharacter (ch : UniChar) : Bool := (sURLValidCharacters ch).contains .pathValid

def isHexDigit (ch : UniChar) : Bool := (sURLValidCharacters ch).contains .hexDigit

end CFLite.URL
