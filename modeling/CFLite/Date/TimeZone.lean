import Mathlib.Algebra.Group.Nat.Defs
import Mathlib.Algebra.Group.Int.Defs
import CFLite.Framework.Buckets
import CFLite.Sorting.MergeSort

/-!
# Time zone data

`__CFParseTimeZoneData` of `CFTimeZone.c`, which reads the transitions of a
time zone from the bytes of a `tzfile`. Bytes are read, and elements of the
arrays it allocates are written, with a check; there is no result where the
code leaves the data or an array.
-/

namespace CFLite.TimeZone

open Framework Sorting

/-! ## Periods -/

/-- An abbreviation that was created from the bytes at an index of the table,
each of them a character. -/
structure Abbreviation where
  abbridx : Nat
  characters : List UInt8
  deriving DecidableEq, Repr

/-- `CFTZPeriod`. Bits 15–0 of the info are used for the offset's absolute
value, bit 16 for its sign, and bit 17 for the is-DST state. -/
structure TZPeriod where
  startSec : Int
  abbreviation : Option Abbreviation
  info : Nat
  deriving DecidableEq, Repr

/-- `__CFBitfieldGetValue` -/
def bitfieldGetValue (v n1 n2 : Nat) : Nat := v / 2 ^ n2 % 2 ^ (n1 - n2 + 1)

/-- `__CFBitfieldSetValue` -/
def bitfieldSetValue (v n1 n2 x : Nat) : Nat :=
  v - bitfieldGetValue v n1 n2 * 2 ^ n2 + x % 2 ^ (n1 - n2 + 1) * 2 ^ n2

/-- `__CFTZPeriodInit` on cleared memory, less the retain. -/
def TZPeriod.init (startTime : Int) (abbreviation : Option Abbreviation) (offset : Int) (isDST : Bool) : TZPeriod where
  startSec := startTime
  abbreviation := abbreviation
  info :=
    let info := bitfieldSetValue 0 15 0 offset.natAbs
    let info := bitfieldSetValue info 16 16 (if offset < 0 then 1 else 0)
    bitfieldSetValue info 17 17 (if isDST then 1 else 0)

/-- `__CFTZPeriodGMTOffset` -/
def TZPeriod.gmtOffset (period : TZPeriod) : Int :=
  let v : Int := bitfieldGetValue period.info 15 0
  if bitfieldGetValue period.info 16 16 ≠ 0 then -v else v

/-- `__CFTZPeriodIsDST` -/
def TZPeriod.isDST (period : TZPeriod) : Bool := bitfieldGetValue period.info 17 17 != 0

/-- `__CFCompareTZPeriods`, which treats equal as less than. -/
def compareTZPeriods (tzp1 tzp2 : TZPeriod) : CFComparisonResult :=
  if tzp1.startSec ≤ tzp2.startSec then .lt else .gt

/-! ## Reading -/

/-- `INT_MIN` -/
def intMin : Int := -2 ^ 31

/-- `INT_MAX` -/
def intMax : Int := 2 ^ 31 - 1

/-- `__CFDetzcode` of the four bytes from `p` on. -/
def detzcode (bytes : List UInt8) (p : Nat) : Option Int := do
  let b0 ← bytes[p]?
  let b1 ← bytes[p + 1]?
  let b2 ← bytes[p + 2]?
  let b3 ← bytes[p + 3]?
  return (BitVec.ofNat 32 (((b0.toNat * 256 + b1.toNat) * 256 + b2.toNat) * 256 + b3.toNat)).toInt

/-- `sizeof(struct tzhead)` -/
def sizeOfTzhead : Nat := 44

/-- The counts of transitions, of types and of abbreviation characters. -/
structure Counts where
  timecnt : Nat
  typecnt : Nat
  charcnt : Nat
  deriving DecidableEq, Repr

namespace Counts

def timep (_ : Counts) : Nat := sizeOfTzhead

def typep (c : Counts) : Nat := c.timep + 4 * c.timecnt

def ttisp (c : Counts) : Nat := c.typep + c.timecnt

def charp (c : Counts) : Nat := c.ttisp + (4 + 1 + 1) * c.typecnt

/-- The number of periods that there is room for. -/
def cnt (c : Counts) : Nat := if 0 < c.timecnt then c.timecnt else 1

end Counts

/-- The part of the parser that checks the header. The inner option is empty
where the data is rejected. -/
def readCounts (bytes : List UInt8) : Option (Option Counts) := do
  let len : Int := (BitVec.ofNat 32 bytes.length).toInt
  if len < sizeOfTzhead then return none
  let p0 ← bytes[0]?
  let p1 ← bytes[1]?
  let p2 ← bytes[2]?
  let p3 ← bytes[3]?
  if ¬ (p0 = 0x54 ∧ p1 = 0x5A ∧ p2 = 0x69 ∧ p3 = 0x66) then return none
  let timecnt ← detzcode bytes 32
  let typecnt ← detzcode bytes 36
  let charcnt ← detzcode bytes 40
  if typecnt ≤ 0 ∨ timecnt < 0 ∨ charcnt < 0 then return none
  if 1024 < timecnt ∨ 32 < typecnt ∨ 128 < charcnt then return none
  if len - sizeOfTzhead < (4 + 1) * timecnt + (4 + 1 + 1) * typecnt + charcnt then return none
  return some ⟨timecnt.toNat, typecnt.toNat, charcnt.toNat⟩

/-- What is read of one transition. -/
structure Transition where
  itime : Int
  offset : Int
  dst : Bool
  abbridx : Nat
  deriving DecidableEq, Repr

/-- The time of a transition in the range of an `int32_t`. -/
def clip (timecnt : Nat) (code : Int) : Int :=
  let time := code - 978307200
  if 0 = timecnt then intMin
  else if time < intMin then intMin
  else if intMax < time then intMax
  else time

/-- The type of a transition. -/
def readType (bytes : List UInt8) (c : Counts) (idx : Nat) : Option Nat :=
  if 0 < c.timecnt then (bytes[c.typep + idx]?).map UInt8.toNat else some 0

/-- The part of the loop that reads and checks a transition. The inner option
is empty where the loop ends with an error. -/
def readTransition (bytes : List UInt8) (c : Counts) (idx : Nat) : Option (Option Transition) := do
  let code ← detzcode bytes (c.timep + 4 * idx)
  let type ← readType bytes c idx
  if c.typecnt ≤ type then return none
  let offset ← detzcode bytes (c.ttisp + 6 * type)
  let dst ← bytes[c.ttisp + 6 * type + 4]?
  if 0 ≠ dst ∧ 1 ≠ dst then return none
  let abbridx ← bytes[c.ttisp + 6 * type + 5]?
  if c.charcnt < abbridx.toNat then return none
  return some ⟨clip c.timecnt code, offset, dst == 1, abbridx.toNat⟩

/-- The bytes before the first zero. -/
def cString : List UInt8 → Option (List UInt8)
  | [] => none
  | b :: rest => if b = 0 then some [] else (cString rest).map (b :: ·)

/-! ## The parser -/

/-- The arrays of the parser, and the references to every abbreviation. -/
structure ParseState where
  periods : List TZPeriod
  abbrs : List (Option Abbreviation)
  retains : Abbreviation → Nat

/-- `CFRetain`, and the reference that a new string comes with. -/
def retain (retains : Abbreviation → Nat) (abbreviation : Abbreviation) : Abbreviation → Nat :=
  Function.update retains abbreviation (retains abbreviation + 1)

/-- `if (NULL != abbrev) CFRelease(abbrev);` -/
def releaseAbbrev (retains : Abbreviation → Nat) : Option Abbreviation → Abbreviation → Nat
  | none => retains
  | some abbreviation => Function.update retains abbreviation (retains abbreviation - 1)

/-- The abbreviation at an index is created when it is needed first. -/
def createAbbreviation (bytes : List UInt8) (c : Counts) (abbridx : Nat) (s : ParseState) : Option ParseState := do
  match ← s.abbrs[abbridx]? with
  | some _ => return s
  | none =>
    let characters ← cString (bytes.drop (c.charp + abbridx))
    let abbrs ← write s.abbrs abbridx (some ⟨abbridx, characters⟩)
    return { s with abbrs, retains := retain s.retains ⟨abbridx, characters⟩ }

/-- The part of the loop that stores a period. -/
def storePeriod (bytes : List UInt8) (c : Counts) (idx : Nat) (t : Transition) (s : ParseState) : Option ParseState := do
  let s ← createAbbreviation bytes c t.abbridx s
  let abbreviation ← s.abbrs[t.abbridx]?
  let periods ← write s.periods idx (.init t.itime abbreviation t.offset t.dst)
  return { s with
    periods
    retains :=
      match abbreviation with
      | none => s.retains
      | some abbreviation => retain s.retains abbreviation }

/-- The loop over the transitions, with `n` to go: its `result`, and the arrays
at its end. -/
def parseLoop (bytes : List UInt8) (c : Counts) : (n idx : Nat) → ParseState → Option (Bool × ParseState)
  | 0, _, s => some (true, s)
  | n + 1, idx, s => do
    match ← readTransition bytes c idx with
    | none => return (false, s)
    | some t => parseLoop bytes c n (idx + 1) (← storePeriod bytes c idx t s)

/-- The loop that drops all but the last period that starts at `INT_MIN`. -/
def dropLowLoop (idx : Nat) (periods : List TZPeriod) (retains : Abbreviation → Nat) :
    List TZPeriod × (Abbreviation → Nat) :=
  if h : idx < periods.length then
    if periods[idx].startSec = intMin ∧ (periods[idx + 1]?).map TZPeriod.startSec = some intMin then
      dropLowLoop idx (periods.eraseIdx idx) (releaseAbbrev retains periods[idx].abbreviation)
    else dropLowLoop (idx + 1) periods retains
  else (periods, retains)
termination_by periods.length - idx
decreasing_by
  · rw [List.length_eraseIdx, if_pos h]
    omega
  · omega

/-- The loop that drops all but the first period that starts at `INT_MAX`. -/
def dropHighLoop (idx : Nat) (periods : List TZPeriod) (retains : Abbreviation → Nat) :
    List TZPeriod × (Abbreviation → Nat) :=
  if h : idx < periods.length then
    if periods[idx].startSec = intMax ∧ 0 < idx ∧ (periods[idx - 1]?).map TZPeriod.startSec = some intMax then
      dropHighLoop idx (periods.eraseIdx idx) (releaseAbbrev retains periods[idx].abbreviation)
    else dropHighLoop (idx + 1) periods retains
  else (periods, retains)
termination_by periods.length - idx
decreasing_by
  · rw [List.length_eraseIdx, if_pos h]
    omega
  · omega

/-- `sizeof(CFTZPeriod)` -/
def sizeOfTZPeriod : Nat := 24

/-- If the first period is in DST and there is more than one period, it is
dropped. -/
def dropLeadingDST (periods : List TZPeriod) (retains : Abbreviation → Nat) : List TZPeriod × (Abbreviation → Nat) :=
  match periods with
  | first :: second :: rest =>
    if first.isDST then (second :: rest, releaseAbbrev retains first.abbreviation) else (periods, retains)
  | _ => (periods, retains)

/-- What happens to the periods once all are stored. -/
def dropAndSort (periods : List TZPeriod) (retains : Abbreviation → Nat) :
    Option (List TZPeriod × (Abbreviation → Nat)) := do
  let (periods, retains) := dropLowLoop 0 periods retains
  let (periods, retains) := dropHighLoop 0 periods retains
  let periods ← qSortArray periods sizeOfTZPeriod compareTZPeriods
  return dropLeadingDST periods retains

/-- What a call gives: the value of the function, the periods that it hands
out, and the references that are left. -/
structure ParseResult where
  result : Bool
  periods : List TZPeriod
  retains : Abbreviation → Nat

/-- `__CFParseTimeZoneData` -/
def parseTimeZoneData (bytes : List UInt8) : Option ParseResult := do
  match ← readCounts bytes with
  | none => return ⟨false, [], fun _ => 0⟩
  | some c =>
    let zero : TZPeriod := ⟨0, none, 0⟩
    let (result, s) ← parseLoop bytes c c.cnt 0
      ⟨List.replicate c.cnt zero, List.replicate (c.charcnt + 1) none, fun _ => 0⟩
    let retains := s.abbrs.foldl releaseAbbrev s.retains
    if result then
      let (periods, retains) ← dropAndSort s.periods retains
      return ⟨true, periods, retains⟩
    else return ⟨false, [], retains⟩

end CFLite.TimeZone
