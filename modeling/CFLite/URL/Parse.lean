import CFLite.Framework.Slices
import CFLite.URL.Characters
import Mathlib.Data.BitVec
import Mathlib.Logic.Function.Basic

/-!
# Parsing a URL string

`_parseComponents` and `_rangeForComponent` of `CFURL.c`. `Parse` is the
locals of the former; `ranges[9]` is indexed by the component, and holds nothing
where the code has not written.
-/

namespace CFLite.URL

open Framework

/-- `CFRange` -/
structure CFRange where
  location : Nat
  length : Nat
  deriving DecidableEq

/-- The components, in the order of their flags. -/
inductive Component
  | scheme | user | password | host | port | path | parameters | query | fragment
  deriving DecidableEq, Repr

namespace Component

/-- The number of the bit of the component's flag. -/
def bit : Component → Nat
  | scheme => 0 | user => 1 | password => 2 | host => 3 | port => 4
  | path => 5 | parameters => 6 | query => 7 | fragment => 8

/-- `HAS_SCHEME`, …, `HAS_FRAGMENT` -/
def flag (c : Component) : BitVec 32 := BitVec.twoPow 32 c.bit

def all : List Component := [scheme, user, password, host, port, path, parameters, query, fragment]

end Component

def HAS_HTTP_SCHEME : BitVec 32 := 0x0200
def IS_IPV6_ENCODED : BitVec 32 := 0x0400
def IS_DIRECTORY : BitVec 32 := 0x1000
def IS_PARSED : BitVec 32 := 0x2000
def IS_ABSOLUTE : BitVec 32 := 0x4000
def IS_DECOMPOSABLE : BitVec 32 := 0x8000
def POSIX_AND_URL_PATHS_MATCH : BitVec 32 := 0x00100000
def HAS_FILE_SCHEME : BitVec 32 := 0x80000000

/-- `NET_LOCATION_MASK` -/
def NET_LOCATION_MASK : BitVec 32 :=
  Component.host.flag ||| Component.user.flag ||| Component.password.flag ||| Component.port.flag

/-- `flags & HAS_FOO` -/
def hasComponent (flags : BitVec 32) (c : Component) : Bool := flags &&& c.flag != 0

/-- What a URL keeps of its parsed string: the flags, and the ranges of the
components it has. -/
structure Parsed where
  flags : BitVec 32
  ranges : List CFRange

/-! ## The parts of `_parseComponents` -/

/-- The locals of `_parseComponents`. -/
structure Parse where
  flags : BitVec 32
  ranges : Component → Option CFRange
  numRanges : Nat
  baseIdx : Nat
  stringLength : Nat

namespace Parse

/-- `flags |= HAS_FOO; ranges[…] = …; numRanges ++` -/
def record (p : Parse) (c : Component) (location length : Nat) : Parse :=
  { p with
    flags := p.flags ||| c.flag
    ranges := Function.update p.ranges c (some ⟨location, length⟩)
    numRanges := p.numRanges + 1 }

/-- `base_idx = k` -/
def withBase (p : Parse) (k : Nat) : Parse := { p with baseIdx := k }

/-- `flags |= bits`, for bits that are no component's. -/
def setFlags (p : Parse) (bits : BitVec 32) : Parse := { p with flags := p.flags ||| bits }

def setFlagsIf (p : Parse) (condition : Bool) (bits : BitVec 32) : Parse :=
  if condition then p.setFlags bits else p

end Parse

/-- The text of a string literal. -/
def literal (chars : List Char) : List UniChar := chars.map unichar

/-- 1: parse the fragment. -/
def parseFragment (string : List UniChar) (p : Parse) : Parse :=
  match firstIn (· == unichar '#') string p.baseIdx p.stringLength with
  | some idx => { p.record .fragment (idx + 1) (p.stringLength - (idx + 1)) with stringLength := idx }
  | none => p

/-- 2: parse the scheme. -/
def parseScheme (string : List UniChar) (p : Parse) : Parse :=
  match firstIn (fun ch => ch == unichar ':' || !schemeValid ch) string p.baseIdx p.stringLength with
  | some idx =>
    if string[idx]? = some (unichar ':') then
      let name := string.take idx
      ((((p.record .scheme p.baseIdx idx).withBase (idx + 1)).setFlags IS_ABSOLUTE).setFlagsIf
        (name == literal ['h', 't', 't', 'p']) HAS_HTTP_SCHEME).setFlagsIf
        (name == literal ['f', 'i', 'l', 'e']) HAS_FILE_SCHEME
    else p
  | none => p

/-- `isCompliant` -/
def isCompliant (string : List UniChar) (p : Parse) : Bool :=
  if !hasComponent p.flags .scheme then true
  else if p.baseIdx == p.stringLength then false
  else if string[p.baseIdx]? != some (unichar '/') then false
  else true

/-- The user and the password, up to the `'@'` at `idx`. -/
def parseUser (string : List UniChar) (base idx : Nat) (p : Parse) : Parse :=
  match firstIn (· == unichar ':') string base idx with
  | some idx2 => (p.record .user base (idx2 - base)).record .password (idx2 + 1) (idx - (idx2 + 1))
  | none => p.record .user base (idx - base)

/-- The loop that looks for the port: the index of the colon, and whether an
IPv6 address was closed. -/
def findPort (string : List UniChar) (idx extent : Nat) : Option Nat × Bool :=
  if idx < extent then
    if string[idx]? = some (unichar '[') then
      match h : firstIn (· == unichar ']') string idx extent with
      | some close => ((findPort string (close + 1) extent).1, true)
      | none => (none, false)
    else if string[idx]? = some (unichar ':') then (some idx, false)
    else findPort string (idx + 1) extent
  else (none, false)
termination_by extent - idx
decreasing_by
  · have := (firstIn_eq_some h).1
    have := (firstIn_eq_some h).2.1
    omega
  · omega

/-- The host and the port. -/
def parseHost (string : List UniChar) (base extent : Nat) (p : Parse) : Parse :=
  let (port, ipv6) := findPort string base extent
  match port with
  | some idx => ((p.record .host base (idx - base)).record .port (idx + 1) (extent - (idx + 1))).setFlagsIf ipv6
      IS_IPV6_ENCODED
  | none => (p.record .host base (extent - base)).setFlagsIf ipv6 IS_IPV6_ENCODED

/-- The user and the password, if there is an `'@'`, and the host and the port. -/
def parseLogin (string : List UniChar) (base extent : Nat) (p : Parse) : Parse :=
  match firstIn (· == unichar '@') string base extent with
  | some idx => parseHost string (idx + 1) extent (parseUser string base idx p)
  | none => parseHost string base extent p

/-- 3: parse the network location and login. -/
def parseNetLocation (string : List UniChar) (p : Parse) : Parse :=
  if 2 ≤ p.stringLength - p.baseIdx ∧ string[p.baseIdx]? = some (unichar '/') ∧
      string[p.baseIdx + 1]? = some (unichar '/') then
    let base := 2 + p.baseIdx
    let extent := (firstIn (fun ch => ch == unichar '/' || ch == unichar '?') string base p.stringLength).getD
      p.stringLength
    (if extent ≠ base then parseLogin string base extent p else p).withBase extent
  else p

/-- 4: parse the query. 5: parse the parameters. -/
def parseTail (delimiter : Char) (c : Component) (string : List UniChar) (p : Parse) : Parse :=
  match firstIn (· == unichar delimiter) string p.baseIdx p.stringLength with
  | some idx => { p.record c (idx + 1) (p.stringLength - (idx + 1)) with stringLength := idx }
  | none => p

/-- Whether a path that is not empty names a directory. -/
def isDirectoryPath (string : List UniChar) (pathRg : CFRange) : Bool :=
  let ch := fun back => string[pathRg.location + pathRg.length - back]?
  if ch 1 = some (unichar '/') then true
  else if ch 1 = some (unichar '.') then
    if pathRg.length = 1 then true
    else if ch 2 = some (unichar '/') then true
    else if ch 2 ≠ some (unichar '.') then false
    else if pathRg.length = 2 then true
    else ch 3 = some (unichar '/')
  else false

/-- 6: parse the path. -/
def parsePath (string : List UniChar) (baseHasDirectoryPath : Bool) (p : Parse) : Parse :=
  if p.stringLength - p.baseIdx ≠ 0 ∨ p.flags &&& NET_LOCATION_MASK ≠ 0 then
    let pathRg : CFRange := ⟨p.baseIdx, p.stringLength - p.baseIdx⟩
    let p := p.record .path pathRg.location pathRg.length
    if 0 < pathRg.length then
      let sawPercent := (firstIn (· == unichar '%') string pathRg.location p.stringLength).isSome
      (p.setFlagsIf (!sawPercent) POSIX_AND_URL_PATHS_MATCH).setFlagsIf (isDirectoryPath string pathRg) IS_DIRECTORY
    else p.setFlagsIf baseHasDirectoryPath IS_DIRECTORY
  else p

/-- The ranges of the components whose flags are set, in the space for
`numRanges` of them. There is no result when they do not fit, or when a range
has not been written. -/
def pack (p : Parse) : Option (List CFRange) :=
  let kept := Component.all.filter (hasComponent p.flags)
  if kept.length ≤ p.numRanges then kept.mapM p.ranges else none

/-- `_parseComponents`. `theFlags` are the flags the URL has already, and
`baseHasDirectoryPath` says whether there is a base URL with a directory path. -/
def parseComponents (string : List UniChar) (baseHasDirectoryPath : Bool) (theFlags : BitVec 32) : Option Parsed :=
  let start : Parse :=
    { flags := IS_PARSED ||| theFlags, ranges := fun _ => none, numRanges := 0, baseIdx := 0,
      stringLength := string.length }
  let p := parseScheme string (parseFragment string start)
  if isCompliant string p then
    let p := parseNetLocation string (p.setFlags IS_DECOMPOSABLE)
    let p := parseTail ';' .parameters string (parseTail '?' .query string p)
    let p := parsePath string baseHasDirectoryPath p
    (pack p).map fun ranges => ⟨p.flags, ranges⟩
  else
    (p.ranges .scheme).map fun range => ⟨p.flags &&& ~~~Component.fragment.flag, [range]⟩

/-! ## Reading the ranges -/

/-- The loop of `_rangeForComponent`. -/
def rangeIndex (flags compFlag : BitVec 32) : Nat :=
  if compFlag.getLsbD 0 then 0
  else if compFlag = 0 then 0
  else (if flags.getLsbD 0 then 1 else 0) + rangeIndex (flags >>> 1) (compFlag >>> 1)
termination_by compFlag.toNat
decreasing_by
  rename_i hzero
  have hpos : compFlag.toNat ≠ 0 := fun h => hzero (BitVec.eq_of_toNat_eq (by simpa using h))
  rw [BitVec.toNat_ushiftRight, Nat.shiftRight_eq_div_pow]
  omega

/-- `_rangeForComponent` -/
def rangeForComponent (parsed : Parsed) (compFlag : BitVec 32) : Option CFRange :=
  if parsed.flags &&& compFlag = 0 then none
  else parsed.ranges[rangeIndex parsed.flags compFlag]?

end CFLite.URL
