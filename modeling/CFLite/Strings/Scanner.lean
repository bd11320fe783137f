import CFLite.Strings.Contents
import CFLite.TextPlist.XML

/-!
# Scanning integers

`__CFStringScanInteger` and `__CFStringScanHex` read an integer from the
characters of an inline buffer, at an index that is an `SInt32`.

* `scanDigits_spec`: the digits of an integer give its value, or the end of the
  type that is nearest to it;
* `scanHexDigits_spec`: the same for hexadecimal digits and an `unsigned`;
* `scans_iff`: the texts and indexes where both read what they should.
-/

namespace CFLite.Strings

open CFLite.TextPlist

/-! ## The code -/

/-- `__CFStringGetCharacterFromInlineBufferAux` for a buffer of the given characters. -/
def characterAux (chars : List UniChar) (idx : Int) : UniChar :=
  if idx < 0 ∨ idx ≥ chars.length then 0xFFFF else chars.getD idx.toNat 0

/-- `__CFCharacterIsADigit` -/
def characterIsADigit (ch : UniChar) : Bool := ch ≥ unichar '0' && ch ≤ unichar '9'

/-- `__CFCharacterNumericValue` -/
def characterNumericValue (ch : UniChar) : Int :=
  if ch ≥ unichar '0' && ch ≤ unichar '9' then ch.toNat - (unichar '0').toNat else -1

/-- `__CFCharacterNumericOrHexValue` -/
def characterNumericOrHexValue (ch : UniChar) : Int :=
  if ch ≥ unichar '0' && ch ≤ unichar '9' then ch.toNat - (unichar '0').toNat
  else if ch ≥ unichar 'A' && ch ≤ unichar 'F' then ch.toNat + 10 - (unichar 'A').toNat
  else if ch ≥ unichar 'a' && ch ≤ unichar 'f' then ch.toNat + 10 - (unichar 'a').toNat
  else -1

/-- The largest value of an `SInt32` and an `int`. -/
def intMax : Int := 2 ^ 31 - 1

/-- `LLONG_MAX` -/
def llongMax : Int := 2 ^ 63 - 1

/-- `while (p(ch = __CFStringGetCharacterFromInlineBufferAux(buf, *indexPtr))) (*indexPtr)++;`,
none if the index overflows. -/
def skipWhile (p : UniChar → Bool) (chars : List UniChar) (idx : Int) : Option Int :=
  if p (characterAux chars idx) then
    if _h : idx < intMax then skipWhile p chars (idx + 1) else none
  else some idx
  termination_by (intMax - idx).toNat

/-- A value of a signed type whose largest value is `max`. -/
def inRange (max n : Int) : Option Int := if -max - 1 ≤ n ∧ n ≤ max then some n else none

/-- `(result >= MAX / 10) && ((result > MAX / 10) || (value - (neg ? 1 : 0) >= MAX - result * 10))` -/
def wouldOverflow (max : Int) (neg : Bool) (result value : Int) : Option Bool :=
  if result ≥ max.tdiv 10 then
    if result > max.tdiv 10 then some true
    else
      (inRange max (result * 10)).bind fun product =>
        (inRange max (max - product)).map fun room => value - (if neg then 1 else 0) ≥ room
  else some false

/-- The value with another digit in a type whose largest value is `max`, or none
if the test finds that it would overflow. -/
def appendDigit (max : Int) (neg : Bool) (result value : Int) : Option (Option Int) :=
  (wouldOverflow max neg result value).bind fun overflow =>
    if overflow then some none
    else (inRange max (result * 10)).bind fun product => (inRange max (product + value)).map some

/-- The `do` loop of `__CFStringScanInteger`: the index after it, whether the
result is to be negated, and the result. `result` is `longlongResult` if
`doingLonglong`, and `intResult` otherwise. -/
def scanDigits (chars : List UniChar) (doLonglong : Bool) (idx : Int) (doingLonglong neg : Bool) (result : Int) :
    Option (Int × Bool × Int) :=
  let max := if doingLonglong then llongMax else intMax
  match appendDigit max neg result (characterNumericValue (characterAux chars idx)) with
  | none => none
  | some none =>
    if _h : doLonglong && !doingLonglong then
      if characterIsADigit (characterAux chars idx) then scanDigits chars doLonglong idx true neg result
      else some (idx, neg, result)
    else if idx < intMax then
      (skipWhile characterIsADigit chars (idx + 1)).map fun idx => (idx, false, if neg then -max - 1 else max)
    else none
  | some (some result) =>
    if _h : idx < intMax then
      if characterIsADigit (characterAux chars (idx + 1)) then
        scanDigits chars doLonglong (idx + 1) doingLonglong neg result
      else some (idx + 1, neg, result)
    else none
  termination_by ((intMax - idx).toNat, if doingLonglong then 0 else 1)
  decreasing_by
    · rw [Bool.and_eq_true, Bool.not_eq_true'] at _h
      rw [_h.2]
      exact Prod.Lex.right _ (by simp)
    · exact Prod.Lex.left _ _ (by omega)

/-- The rest of `__CFStringScanInteger` once the sign has been read. -/
def scanNumeral (chars : List UniChar) (doLonglong stores neg : Bool) (idx : Int) : Option (Bool × Int × Option Int) :=
  if !characterIsADigit (characterAux chars idx) then some (false, idx, none)
  else
    match scanDigits chars doLonglong idx false neg 0 with
    | none => none
    | some (idx, neg, result) =>
      if stores then
        (inRange (if doLonglong then llongMax else intMax) (if neg then -result else result)).map fun result =>
          (true, idx, some result)
      else some (true, idx, none)

/-- `__CFStringScanInteger`: whether there is an integer, the index as it is left,
and what is stored if `result` is no null pointer. Signed overflow leaves none. -/
def stringScanInteger (chars : List UniChar) (idx : Int) (doLonglong stores : Bool) :
    Option (Bool × Int × Option Int) :=
  match skipWhile cfIsWhitespace chars idx with
  | none => none
  | some idx =>
    let ch := characterAux chars idx
    if ch = unichar '-' ∨ ch = unichar '+' then
      if idx < intMax then
        (skipWhile cfIsWhitespace chars (idx + 1)).bind (scanNumeral chars doLonglong stores (ch = unichar '-'))
      else none
    else scanNumeral chars doLonglong stores false idx

/-- `UINT_MAX` -/
def uintMax : Int := 2 ^ 32 - 1

/-- The `do` loop of `__CFStringScanHex`. -/
def scanHexDigits (chars : List UniChar) (idx value curDigit : Int) : Option (Int × Int) :=
  let value := if value > uintMax / 2 ^ 4 then uintMax else (value * 2 ^ 4 + curDigit) % 2 ^ 32
  if _h : idx < intMax then
    let curDigit := characterNumericOrHexValue (characterAux chars (idx + 1))
    if curDigit ≠ -1 then scanHexDigits chars (idx + 1) value curDigit else some (idx + 1, value)
  else none
  termination_by (intMax - idx).toNat

/-- The rest of `__CFStringScanHex` once the white space has been skipped. -/
def scanHexNumeral (chars : List UniChar) (stores : Bool) (idx : Int) : Option (Bool × Int × Option Int) :=
  let ch := characterAux chars idx
  let scan := fun idx curDigit =>
    (scanHexDigits chars idx 0 curDigit).map fun (idx, value) => (true, idx, if stores then some value else none)
  if ch = unichar '0' then
    if idx < intMax then
      let idx := idx + 1
      let ch := characterAux chars idx
      let prefixed := ch = unichar 'x' ∨ ch = unichar 'X'
      if prefixed ∧ ¬ idx < intMax then none
      else
        let idx := if prefixed then idx + 1 else idx
        let curDigit := characterNumericOrHexValue (characterAux chars idx)
        if curDigit = -1 then some (true, idx - 1, if stores then some 0 else none) else scan idx curDigit
    else none
  else
    let curDigit := characterNumericOrHexValue ch
    if curDigit = -1 then some (false, idx, none) else scan idx curDigit

/-- `__CFStringScanHex` -/
def stringScanHex (chars : List UniChar) (idx : Int) (stores : Bool) : Option (Bool × Int × Option Int) :=
  (skipWhile cfIsWhitespace chars idx).bind (scanHexNumeral chars stores)

/-! ## The characters from an index on -/

/-- The characters from an index on. -/
def charactersFrom (chars : List UniChar) (idx : Int) : List UniChar := if idx < 0 then [] else chars.drop idx.toNat

variable {chars : List UniChar} {idx : Int}

theorem characterAux_eq (chars : List UniChar) (idx : Int) :
    characterAux chars idx = (charactersFrom chars idx).headD 0xFFFF := by
  rw [characterAux, charactersFrom]
  by_cases hneg : idx < 0
  · rw [if_pos (.inl hneg), if_pos hneg]
    rfl
  · rw [if_neg hneg]
    by_cases hend : idx ≥ chars.length
    · rw [if_pos (.inr hend), List.drop_eq_nil_of_le (by omega)]
      rfl
    · have hlt : idx.toNat < chars.length := by omega
      rw [if_neg (not_or.mpr ⟨hneg, hend⟩), List.drop_eq_getElem_cons hlt, List.getD_eq_getElem _ _ hlt]
      rfl

theorem charactersFrom_succ {c : UniChar} {rest : List UniChar} (h : charactersFrom chars idx = c :: rest) :
    charactersFrom chars (idx + 1) = rest := by
  rw [charactersFrom] at h ⊢
  split at h
  · cases h
  · rename_i hpos
    rw [if_neg (by omega), Int.toNat_add (by omega) (by decide), ← List.drop_drop, h]
    rfl

theorem charactersFrom_add {n : Nat} (h : n ≤ (charactersFrom chars idx).length) :
    charactersFrom chars (idx + n) = (charactersFrom chars idx).drop n := by
  induction n generalizing idx with
  | zero => rw [Nat.cast_zero, Int.add_zero, List.drop_zero]
  | succ n ih =>
    cases hrest : charactersFrom chars idx with
    | nil =>
      rw [hrest] at h
      exact absurd h (Nat.not_succ_le_zero n)
    | cons c rest =>
      have hnext := charactersFrom_succ hrest
      rw [hrest] at h
      have hlength : n ≤ (charactersFrom chars (idx + 1)).length := hnext ▸ Nat.le_of_succ_le_succ h
      rw [Nat.cast_succ, Int.add_comm (n : Int), ← Int.add_assoc, ih hlength, hnext, List.drop_succ_cons]

/-- A loop that skips characters stops at the first other one, unless the index
overflows before. -/
theorem skipWhile_eq {p : UniChar → Bool} (hend : p 0xFFFF = false) (chars : List UniChar) (hidx : idx ≤ intMax) :
    skipWhile p chars idx =
      if idx + ((charactersFrom chars idx).takeWhile p).length ≤ intMax then
        some (idx + ((charactersFrom chars idx).takeWhile p).length)
      else none := by
  obtain ⟨rest, hrest⟩ : ∃ rest, charactersFrom chars idx = rest := ⟨_, rfl⟩
  rw [hrest]
  induction rest generalizing idx with
  | nil =>
    rw [skipWhile, characterAux_eq, hrest, List.headD_nil, hend]
    simp [hidx]
  | cons c rest ih =>
    have hnext := charactersFrom_succ hrest
    rw [skipWhile, characterAux_eq, hrest, List.headD_cons, List.takeWhile_cons]
    cases hc : p c with
    | false => simp [hidx]
    | true =>
      rw [if_pos rfl, if_pos rfl, List.length_cons]
      by_cases hlt : idx < intMax
      · rw [dif_pos hlt, ih (by omega) hnext]
        push_cast
        rw [Int.add_assoc, Int.add_comm 1]
      · rw [dif_neg hlt, if_neg (by push_cast; omega)]

/-! ## The digits of an integer -/

/-- The value of decimal digits after a value. -/
def decimalValue (v : Int) (digits : List UniChar) : Int := digits.foldl (fun v d => v * 10 + characterNumericValue d) v

/-- A magnitude with its sign. -/
def signed (neg : Bool) (v : Int) : Int := if neg then -v else v

/-- The value of a signed type nearest to an integer. -/
def clamp (max n : Int) : Int := Max.max (-max - 1) (min max n)

theorem unichar_digits : (unichar '0').toNat = 48 ∧ (unichar '9').toNat = 57 := by decide

theorem characterIsADigit_iff {ch : UniChar} : characterIsADigit ch = true ↔ 48 ≤ ch.toNat ∧ ch.toNat ≤ 57 := by
  obtain ⟨hzero, hnine⟩ := unichar_digits
  rw [characterIsADigit, Bool.and_eq_true, decide_eq_true_eq, decide_eq_true_eq, ge_iff_le, UInt16.le_iff_toNat_le,
    UInt16.le_iff_toNat_le, hzero, hnine]

/-- The value of a digit. -/
theorem characterNumericValue_bounds {ch : UniChar} (h : characterIsADigit ch = true) :
    0 ≤ characterNumericValue ch ∧ characterNumericValue ch ≤ 9 := by
  have hvalue : characterNumericValue ch = ch.toNat - (unichar '0').toNat := if_pos h
  have hch := characterIsADigit_iff.mp h
  rw [hvalue, unichar_digits.1]
  omega

theorem le_decimalValue {digits : List UniChar} (h : ∀ d ∈ digits, characterIsADigit d = true) {v : Int} (hv : 0 ≤ v) :
    v ≤ decimalValue v digits := by
  induction digits generalizing v with
  | nil => exact le_rfl
  | cons d digits ih =>
    obtain ⟨hd, hdigits⟩ := List.forall_mem_cons.mp h
    have hbounds := characterNumericValue_bounds hd
    have hrest := ih hdigits (v := v * 10 + characterNumericValue d) (by omega)
    have hstep : decimalValue v (d :: digits) = decimalValue (v * 10 + characterNumericValue d) digits := rfl
    omega

/-- The two types. -/
def IsLimit (max : Int) : Prop := max = intMax ∨ max = llongMax

theorem inRange_of_le {max n : Int} (hlow : -max - 1 ≤ n) (hhigh : n ≤ max) : inRange max n = some n :=
  if_pos ⟨hlow, hhigh⟩

/-- The test finds the digits that lead out of the type, and those that lead to its
end. -/
theorem appendDigit_eq {max : Int} (hmax : IsLimit max) (neg : Bool) {result value : Int} (hresult : 0 ≤ result)
    (hle : result ≤ max) (hvalue : 0 ≤ value ∧ value ≤ 9) :
    appendDigit max neg result value =
      some (if max + (if neg then 1 else 0) ≤ result * 10 + value then none else some (result * 10 + value)) := by
  obtain ⟨tenth, htenth, hten⟩ : ∃ tenth, max.tdiv 10 = tenth ∧ max = tenth * 10 + 7 ∧ 0 ≤ tenth := by
    rcases hmax with rfl | rfl
    · exact ⟨214748364, by decide, by decide, by decide⟩
    · exact ⟨922337203685477580, by decide, by decide, by decide⟩
  obtain ⟨hten, hpos⟩ := hten
  rw [appendDigit, wouldOverflow, htenth]
  have hsign : 0 ≤ (if neg then 1 else 0 : Int) ∧ (if neg then 1 else 0 : Int) ≤ 1 := by
    cases neg <;> decide
  generalize (if neg then 1 else 0 : Int) = sign at hsign ⊢
  clear hmax htenth
  by_cases hlarge : result > tenth
  · rw [if_pos (by omega), if_pos hlarge, Option.bind_some, if_pos rfl, if_pos (by omega)]
  by_cases hequal : result ≥ tenth
  · obtain rfl : result = tenth := by omega
    rw [if_pos hequal, if_neg hlarge, inRange_of_le (by omega) (by omega), Option.bind_some,
      inRange_of_le (by omega) (by omega), Option.map_some, Option.bind_some]
    by_cases hfull : value - sign ≥ max - result * 10
    · rw [if_pos (decide_eq_true hfull), if_pos (by omega)]
    · rw [if_neg (mt of_decide_eq_true hfull), if_neg (by omega), Option.bind_some,
        inRange_of_le (by omega) (by omega), Option.map_some]
  · rw [if_neg hequal, Option.bind_some, if_neg Bool.false_ne_true, inRange_of_le (by omega) (by omega),
      Option.bind_some, inRange_of_le (by omega) (by omega), Option.map_some, if_neg (by omega)]

/-- What the loop leaves after digits of the given value. -/
structure Scanned (max : Int) (neg : Bool) (v : Int) (out : Bool × Int) : Prop where
  value : signed out.1 out.2 = clamp max (signed neg v)
  /-- The negation of the result does not overflow. -/
  inRange : -max - 1 ≤ signed out.1 out.2 ∧ signed out.1 out.2 ≤ max

theorem scanned_of_lt {max : Int} (neg : Bool) {v : Int} (hv : 0 ≤ v) (hlt : v < max + if neg then 1 else 0) :
    Scanned max neg v (neg, v) := by
  have hrange : -max - 1 ≤ signed neg v ∧ signed neg v ≤ max := by
    cases neg <;> simp only [signed, Bool.false_eq_true, ↓reduceIte] at hlt ⊢ <;> omega
  refine ⟨?_, hrange⟩
  rw [clamp, min_eq_right hrange.2, max_eq_right hrange.1]

theorem scanned_of_ge {max : Int} (hmax : 0 ≤ max) (neg : Bool) {v : Int} (hge : max + (if neg then 1 else 0) ≤ v) :
    Scanned max neg v (false, if neg then -max - 1 else max) := by
  cases neg
  · simp only [Bool.false_eq_true, ↓reduceIte] at hge ⊢
    refine ⟨?_, by rw [signed]; simp; omega⟩
    simp only [signed, clamp, Bool.false_eq_true, ↓reduceIte]
    omega
  · simp only [↓reduceIte] at hge ⊢
    refine ⟨?_, by rw [signed]; simp; omega⟩
    simp only [signed, clamp, Bool.false_eq_true, ↓reduceIte]
    omega

/-- The digits that a text begins with. -/
def leadingDigits (rest : List UniChar) : List UniChar := rest.takeWhile characterIsADigit

theorem characterIsADigit_of_mem {rest : List UniChar} : ∀ d ∈ leadingDigits rest, characterIsADigit d = true :=
  fun d hd => List.all_eq_true.mp List.all_takeWhile d hd

theorem leadingDigits_cons {c : UniChar} (hc : characterIsADigit c = true) (rest : List UniChar) :
    leadingDigits (c :: rest) = c :: leadingDigits rest := List.takeWhile_cons_of_pos hc

theorem leadingDigits_of_head {rest : List UniChar} (h : characterIsADigit (rest.headD 0xFFFF) = false) :
    leadingDigits rest = [] := by
  cases rest with
  | nil => rfl
  | cons c rest => exact List.takeWhile_cons_of_neg (Bool.eq_false_iff.mp h)

theorem isLimit_ite (doingLonglong : Bool) : IsLimit (if doingLonglong then llongMax else intMax) := by
  cases doingLonglong
  · exact .inl rfl
  · exact .inr rfl

theorem IsLimit.nonneg {max : Int} (h : IsLimit max) : 0 ≤ max := by
  rcases h with rfl | rfl <;> decide

section Loop

variable {doLonglong doingLonglong : Bool} {c : UniChar} {rest : List UniChar} {result max : Int}

/-- One round of the loop. -/
theorem scanDigits_step (hrest : charactersFrom chars idx = c :: rest) (hc : characterIsADigit c = true) (neg : Bool)
    (hmax : max = if doingLonglong then llongMax else intMax) (hresult : 0 ≤ result) (hle : result ≤ max) :
    scanDigits chars doLonglong idx doingLonglong neg result =
      if max + (if neg then 1 else 0) ≤ result * 10 + characterNumericValue c then
        if doLonglong && !doingLonglong then scanDigits chars doLonglong idx true neg result
        else if idx < intMax then
          (skipWhile characterIsADigit chars (idx + 1)).map fun idx => (idx, false, if neg then -max - 1 else max)
        else none
      else if idx < intMax then
        if characterIsADigit (rest.headD 0xFFFF) then
          scanDigits chars doLonglong (idx + 1) doingLonglong neg (result * 10 + characterNumericValue c)
        else some (idx + 1, neg, result * 10 + characterNumericValue c)
      else none := by
  have hch : characterAux chars idx = c := by rw [characterAux_eq, hrest, List.headD_cons]
  have hnext : characterAux chars (idx + 1) = rest.headD 0xFFFF := by rw [characterAux_eq, charactersFrom_succ hrest]
  have happend := appendDigit_eq (hmax ▸ isLimit_ite doingLonglong) neg hresult hle (characterNumericValue_bounds hc)
  rw [scanDigits]
  simp only [← hmax, hch, hnext, happend, hc]
  by_cases hover : max + (if neg then 1 else 0) ≤ result * 10 + characterNumericValue c
  · simp only [if_pos hover, ↓reduceIte, dite_eq_ite]
  · simp only [if_neg hover, dite_eq_ite]

theorem scanned_cons (neg : Bool) (hc : characterIsADigit c = true) {out : Bool × Int}
    (h : Scanned max neg (decimalValue (result * 10 + characterNumericValue c) (leadingDigits rest)) out) :
    Scanned max neg (decimalValue result (leadingDigits (c :: rest))) out := by
  rw [leadingDigits_cons hc]
  exact h

theorem add_length_leadingDigits (hc : characterIsADigit c = true) (idx : Int) :
    idx + (leadingDigits (c :: rest)).length = idx + 1 + (leadingDigits rest).length := by
  rw [leadingDigits_cons hc, List.length_cons]
  push_cast
  omega

/-- A digit that leads out of the type: the rest of them are skipped. -/
theorem scanDigits_saturates (hlast : (doLonglong && !doingLonglong) = false)
    (hrest : charactersFrom chars idx = c :: rest) (hc : characterIsADigit c = true) (neg : Bool)
    (hmax : max = if doingLonglong then llongMax else intMax) (hresult : 0 ≤ result) (hle : result ≤ max)
    (hover : max + (if neg then 1 else 0) ≤ result * 10 + characterNumericValue c) :
    ∃ out, Scanned max neg (decimalValue result (leadingDigits (c :: rest))) out ∧
      scanDigits chars doLonglong idx doingLonglong neg result =
        if idx + (leadingDigits (c :: rest)).length ≤ intMax then some (idx + (leadingDigits (c :: rest)).length, out)
        else none := by
  have hpos := (hmax ▸ isLimit_ite doingLonglong : IsLimit max).nonneg
  have hbounds := characterNumericValue_bounds hc
  have hvalue : result * 10 + characterNumericValue c ≤
      decimalValue (result * 10 + characterNumericValue c) (leadingDigits rest) :=
    le_decimalValue characterIsADigit_of_mem (by omega)
  refine ⟨_, scanned_cons neg hc (scanned_of_ge hpos neg (le_trans hover hvalue)), ?_⟩
  rw [scanDigits_step hrest hc neg hmax hresult hle, hlast, if_pos hover, if_neg Bool.false_ne_true,
    add_length_leadingDigits hc]
  by_cases hlt : idx < intMax
  · rw [if_pos hlt, skipWhile_eq (by decide) chars (by omega), charactersFrom_succ hrest, leadingDigits]
    by_cases hroom : idx + 1 + (rest.takeWhile characterIsADigit).length ≤ intMax
    · rw [if_pos hroom, if_pos hroom]
      rfl
    · rw [if_neg hroom, if_neg hroom]
      rfl
  · rw [if_neg hlt, if_neg (by omega)]

theorem le_of_not_overflow {neg : Bool} {v : Int} (h : ¬ max + (if neg then 1 else 0) ≤ v) : v ≤ max := by
  cases neg <;> simp only [Bool.false_eq_true, ↓reduceIte] at h <;> omega

/-- The last digit, if it does not lead out of the type. -/
theorem scanDigits_stops (hrest : charactersFrom chars idx = c :: rest) (hc : characterIsADigit c = true) (neg : Bool)
    (hmax : max = if doingLonglong then llongMax else intMax) (hresult : 0 ≤ result) (hle : result ≤ max)
    (hover : ¬ max + (if neg then 1 else 0) ≤ result * 10 + characterNumericValue c)
    (hnext : characterIsADigit (rest.headD 0xFFFF) = false) {limit : Int} (hlimit : max ≤ limit) :
    ∃ out, Scanned limit neg (decimalValue result (leadingDigits (c :: rest))) out ∧
      scanDigits chars doLonglong idx doingLonglong neg result =
        if idx + (leadingDigits (c :: rest)).length ≤ intMax then some (idx + (leadingDigits (c :: rest)).length, out)
        else none := by
  have hbounds := characterNumericValue_bounds hc
  have hnil := leadingDigits_of_head hnext
  have hscanned := scanned_of_lt neg (show 0 ≤ result * 10 + characterNumericValue c by omega)
    (lt_of_lt_of_le (lt_of_not_ge hover) (Int.add_le_add_right hlimit _))
  refine ⟨_, scanned_cons neg hc (by rw [hnil]; exact hscanned), ?_⟩
  rw [scanDigits_step hrest hc neg hmax hresult hle, if_neg hover, hnext, add_length_leadingDigits hc, hnil]
  simp only [Bool.false_eq_true, ↓reduceIte, List.length_nil, Nat.cast_zero, Int.add_zero]
  by_cases hlt : idx < intMax
  · rw [if_pos hlt, if_pos (by omega)]
  · rw [if_neg hlt, if_neg (by omega)]

/-- The loop in the type that it ends in. -/
theorem scanDigits_last (hlast : (doLonglong && !doingLonglong) = false)
    (hrest : charactersFrom chars idx = c :: rest) (hc : characterIsADigit c = true) (neg : Bool)
    (hmax : max = if doingLonglong then llongMax else intMax) (hresult : 0 ≤ result) (hle : result ≤ max) :
    ∃ out, Scanned max neg (decimalValue result (leadingDigits (c :: rest))) out ∧
      scanDigits chars doLonglong idx doingLonglong neg result =
        if idx + (leadingDigits (c :: rest)).length ≤ intMax then some (idx + (leadingDigits (c :: rest)).length, out)
        else none := by
  induction rest generalizing idx c result with
  | nil =>
    by_cases hover : max + (if neg then 1 else 0) ≤ result * 10 + characterNumericValue c
    · exact scanDigits_saturates hlast hrest hc neg hmax hresult hle hover
    · exact scanDigits_stops hrest hc neg hmax hresult hle hover rfl le_rfl
  | cons d rest ih =>
    by_cases hover : max + (if neg then 1 else 0) ≤ result * 10 + characterNumericValue c
    · exact scanDigits_saturates hlast hrest hc neg hmax hresult hle hover
    by_cases hd : characterIsADigit d = true
    · have hbounds := characterNumericValue_bounds hc
      obtain ⟨out, hscanned, hscan⟩ := ih (charactersFrom_succ hrest) hd
        (show 0 ≤ result * 10 + characterNumericValue c by omega) (le_of_not_overflow hover)
      refine ⟨out, scanned_cons neg hc hscanned, ?_⟩
      rw [scanDigits_step hrest hc neg hmax hresult hle, if_neg hover, List.headD_cons, if_pos hd, hscan,
        add_length_leadingDigits hc]
      by_cases hlt : idx < intMax
      · rw [if_pos hlt]
      · rw [if_neg hlt, if_neg (by omega)]
    · exact scanDigits_stops hrest hc neg hmax hresult hle hover (Bool.eq_false_iff.mpr hd) le_rfl

/-- The value of the digits, or the end of the type that is nearest to it. A scan
that overflows an `int` goes on in an `int64_t` at the same digit. -/
theorem scanDigits_spec (hrest : charactersFrom chars idx = c :: rest) (hc : characterIsADigit c = true) (neg : Bool)
    (hmax : max = if doLonglong then llongMax else intMax) (hresult : 0 ≤ result) (hle : result ≤ intMax) :
    ∃ out, Scanned max neg (decimalValue result (leadingDigits (c :: rest))) out ∧
      scanDigits chars doLonglong idx false neg result =
        if idx + (leadingDigits (c :: rest)).length ≤ intMax then some (idx + (leadingDigits (c :: rest)).length, out)
        else none := by
  cases doLonglong with
  | false => exact scanDigits_last rfl hrest hc neg hmax hresult (hmax ▸ hle)
  | true =>
    obtain rfl : max = llongMax := hmax
    have hlimit : intMax ≤ llongMax := by decide
    have hint : intMax = if false then llongMax else intMax := rfl
    induction rest generalizing idx c result with
    | nil =>
      by_cases hover : intMax + (if neg then 1 else 0) ≤ result * 10 + characterNumericValue c
      · rw [scanDigits_step hrest hc neg hint hresult hle, if_pos hover, if_pos (show (true && !false) = true from rfl)]
        exact scanDigits_last rfl hrest hc neg rfl hresult (hle.trans hlimit)
      · exact scanDigits_stops hrest hc neg hint hresult hle hover rfl hlimit
    | cons d rest ih =>
      by_cases hover : intMax + (if neg then 1 else 0) ≤ result * 10 + characterNumericValue c
      · rw [scanDigits_step hrest hc neg hint hresult hle, if_pos hover, if_pos (show (true && !false) = true from rfl)]
        exact scanDigits_last rfl hrest hc neg rfl hresult (hle.trans hlimit)
      by_cases hd : characterIsADigit d = true
      · have hbounds := characterNumericValue_bounds hc
        obtain ⟨out, hscanned, hscan⟩ := ih (charactersFrom_succ hrest) hd
          (show 0 ≤ result * 10 + characterNumericValue c by omega) (le_of_not_overflow hover)
        refine ⟨out, scanned_cons neg hc hscanned, ?_⟩
        rw [scanDigits_step hrest hc neg hint hresult hle, if_neg hover, List.headD_cons, if_pos hd, hscan,
          add_length_leadingDigits hc]
        by_cases hlt : idx < intMax
        · rw [if_pos hlt]
        · rw [if_neg hlt, if_neg (by omega)]
      · exact scanDigits_stops hrest hc neg hint hresult hle hover (Bool.eq_false_iff.mpr hd) hlimit

end Loop

/-! ## An integer -/

/-- What comes before the digits of an integer: whether there is a minus sign, and
the number of characters of the white space, the sign and the white space after
it. -/
def numeralStart (rest : List UniChar) : Bool × Nat :=
  let spaces := (rest.takeWhile cfIsWhitespace).length
  let c := (rest.drop spaces).headD 0xFFFF
  if c = unichar '-' ∨ c = unichar '+' then
    (c = unichar '-', spaces + 1 + ((rest.drop (spaces + 1)).takeWhile cfIsWhitespace).length)
  else (false, spaces)

/-- What a scan gives for digits before which are `n` characters. -/
def integerResult (max : Int) (stores neg : Bool) (idx : Int) (digits : List UniChar) : Bool × Int × Option Int :=
  if digits = [] then (false, idx, none)
  else (true, idx + digits.length, if stores then some (clamp max (signed neg (decimalValue 0 digits))) else none)

theorem scanNumeral_eq (chars : List UniChar) (doLonglong stores neg : Bool) (hidx : idx ≤ intMax) :
    scanNumeral chars doLonglong stores neg idx =
      if idx + (leadingDigits (charactersFrom chars idx)).length ≤ intMax then
        some (integerResult (if doLonglong then llongMax else intMax) stores neg idx
          (leadingDigits (charactersFrom chars idx)))
      else none := by
  rw [scanNumeral, characterAux_eq]
  cases hdigit : characterIsADigit ((charactersFrom chars idx).headD 0xFFFF) with
  | false =>
    rw [leadingDigits_of_head hdigit, List.length_nil, Nat.cast_zero, Int.add_zero, if_pos hidx]
    rfl
  | true =>
    obtain ⟨c, rest, hrest⟩ : ∃ c rest, charactersFrom chars idx = c :: rest := by
      cases hrest : charactersFrom chars idx with
      | nil =>
        rw [hrest] at hdigit
        cases hdigit
      | cons c rest => exact ⟨c, rest, rfl⟩
    rw [hrest, List.headD_cons] at hdigit
    obtain ⟨⟨neg', result⟩, hscanned, hscan⟩ := scanDigits_spec hrest hdigit neg
      (rfl : _ = if doLonglong then llongMax else intMax) le_rfl (by decide : (0 : Int) ≤ intMax)
    have hdigits : leadingDigits (c :: rest) ≠ [] := by
      rw [leadingDigits_cons hdigit]
      exact List.cons_ne_nil _ _
    have hstored : inRange (if doLonglong then llongMax else intMax) (if neg' then -result else result) =
        some (clamp (if doLonglong then llongMax else intMax)
          (signed neg (decimalValue 0 (leadingDigits (c :: rest))))) := by
      rw [← hscanned.value]
      exact inRange_of_le hscanned.inRange.1 hscanned.inRange.2
    rw [hrest, hscan, if_neg (show ¬ (!true) = true by decide)]
    by_cases hroom : idx + (leadingDigits (c :: rest)).length ≤ intMax
    · rw [if_pos hroom, if_pos hroom]
      simp only [hstored, Option.map_some, integerResult, if_neg hdigits]
      cases stores <;> rfl
    · rw [if_neg hroom, if_neg hroom]

theorem length_takeWhile_le (p : UniChar → Bool) (l : List UniChar) : (l.takeWhile p).length ≤ l.length :=
  (List.takeWhile_prefix p).length_le

/-- An integer, of either width. -/
theorem stringScanInteger_eq (chars : List UniChar) (doLonglong stores : Bool) (hidx : idx ≤ intMax) {neg : Bool}
    {n : Nat} (hstart : numeralStart (charactersFrom chars idx) = (neg, n)) :
    stringScanInteger chars idx doLonglong stores =
      if idx + n + (leadingDigits ((charactersFrom chars idx).drop n)).length ≤ intMax then
        some (integerResult (if doLonglong then llongMax else intMax) stores neg (idx + n)
          (leadingDigits ((charactersFrom chars idx).drop n)))
      else none := by
  have hwhite : cfIsWhitespace 0xFFFF = false := by decide
  obtain ⟨spaces, hspaces⟩ : ∃ k, ((charactersFrom chars idx).takeWhile cfIsWhitespace).length = k := ⟨_, rfl⟩
  have hadd := charactersFrom_add (hspaces ▸ length_takeWhile_le _ _)
  rw [stringScanInteger, skipWhile_eq hwhite chars hidx, hspaces]
  rw [numeralStart, hspaces] at hstart
  have hch : characterAux chars (idx + spaces) = ((charactersFrom chars idx).drop spaces).headD 0xFFFF := by
    rw [characterAux_eq, hadd]
  generalize hc : ((charactersFrom chars idx).drop spaces).headD 0xFFFF = c at hstart hch
  by_cases hsign : c = unichar '-' ∨ c = unichar '+'
  · obtain ⟨tail, htail⟩ : ∃ tail, (charactersFrom chars idx).drop spaces = c :: tail := by
      cases htail : (charactersFrom chars idx).drop spaces with
      | nil =>
        rw [htail] at hc
        exact absurd (hc ▸ hsign) (by decide)
      | cons d tail => exact ⟨tail, congrArg (· :: tail) (by rw [htail] at hc; exact hc)⟩
    have hnext : charactersFrom chars (idx + spaces + 1) = (charactersFrom chars idx).drop (spaces + 1) := by
      rw [charactersFrom_succ (hadd.trans htail), ← List.drop_drop, htail, List.drop_one, List.tail_cons]
    obtain ⟨skipped, hskipped⟩ :
        ∃ k, (((charactersFrom chars idx).drop (spaces + 1)).takeWhile cfIsWhitespace).length = k := ⟨_, rfl⟩
    rw [hskipped] at hstart
    simp only [if_pos hsign] at hstart
    obtain ⟨rfl, rfl⟩ := Prod.ext_iff.mp hstart
    have hcast : idx + (spaces + 1 + skipped : Nat) = idx + spaces + 1 + skipped := by
      push_cast
      omega
    have hdigits : charactersFrom chars (idx + spaces + 1 + skipped) =
        (charactersFrom chars idx).drop (spaces + 1 + skipped) := by
      rw [charactersFrom_add (by rw [hnext, ← hskipped]; exact length_takeWhile_le _ _), hnext, List.drop_drop]
    simp only [hcast]
    by_cases hroom : idx + spaces < intMax
    · simp only [if_pos hroom.le, hch, if_pos hsign, if_pos hroom]
      rw [skipWhile_eq hwhite chars hroom, hnext, hskipped]
      by_cases hroom' : idx + spaces + 1 + skipped ≤ intMax
      · rw [if_pos hroom', Option.bind_some, scanNumeral_eq chars doLonglong stores _ hroom', hdigits]
      · rw [if_neg hroom', if_neg (by omega), Option.bind_none]
    · rw [if_neg (show ¬ idx + spaces + 1 + skipped + _ ≤ intMax by omega)]
      by_cases hroom' : idx + spaces ≤ intMax
      · simp only [if_pos hroom', hch, if_pos hsign, if_neg hroom]
      · simp only [if_neg hroom']
  · simp only [if_neg hsign] at hstart
    obtain ⟨rfl, rfl⟩ := Prod.ext_iff.mp hstart
    by_cases hroom : idx + spaces ≤ intMax
    · simp only [if_pos hroom, hch, if_neg hsign]
      rw [scanNumeral_eq chars doLonglong stores false hroom, hadd]
    · simp only [if_neg hroom]
      rw [if_neg (by omega)]

/-! ## A hexadecimal numeral -/

/-- The value of hexadecimal digits after a value. -/
def hexValue (v : Int) (digits : List UniChar) : Int :=
  digits.foldl (fun v d => v * 2 ^ 4 + characterNumericOrHexValue d) v

/-- The hexadecimal digits that a text begins with. -/
def leadingHexDigits (rest : List UniChar) : List UniChar := rest.takeWhile (characterNumericOrHexValue · ≠ -1)

theorem leadingHexDigits_cons {c : UniChar} (hc : characterNumericOrHexValue c ≠ -1) (rest : List UniChar) :
    leadingHexDigits (c :: rest) = c :: leadingHexDigits rest := List.takeWhile_cons_of_pos (decide_eq_true hc)

theorem leadingHexDigits_of_head {rest : List UniChar} (h : characterNumericOrHexValue (rest.headD 0xFFFF) = -1) :
    leadingHexDigits rest = [] := by
  cases rest with
  | nil => rfl
  | cons c rest => exact List.takeWhile_cons_of_neg (by rw [decide_eq_true_eq]; exact not_not_intro h)

/-- A hexadecimal digit is at the head of the text. -/
theorem exists_cons_of_hex {rest : List UniChar} (h : characterNumericOrHexValue (rest.headD 0xFFFF) ≠ -1) :
    ∃ c tail, rest = c :: tail ∧ characterNumericOrHexValue c ≠ -1 := by
  cases rest with
  | nil => exact absurd rfl h
  | cons c tail => exact ⟨c, tail, rfl, h⟩

theorem characterNumericOrHexValue_bounds {ch : UniChar} (h : characterNumericOrHexValue ch ≠ -1) :
    0 ≤ characterNumericOrHexValue ch ∧ characterNumericOrHexValue ch ≤ 15 := by
  obtain ⟨hzero, hnine⟩ := unichar_digits
  have hupper : (unichar 'A').toNat = 65 ∧ (unichar 'F').toNat = 70 := by decide
  have hlower : (unichar 'a').toNat = 97 ∧ (unichar 'f').toNat = 102 := by decide
  rw [characterNumericOrHexValue] at h ⊢
  simp only [Bool.and_eq_true, decide_eq_true_eq, ge_iff_le, UInt16.le_iff_toNat_le, hzero, hnine, hupper.1, hupper.2,
    hlower.1, hlower.2] at h ⊢
  clear hzero hnine hupper hlower
  split_ifs at h ⊢ <;> omega

/-- A round of the loop, on the nearest value of the type. -/
theorem hexStep {v d : Int} (hv : 0 ≤ v) (hd : 0 ≤ d ∧ d ≤ 15) :
    (if min uintMax v > uintMax / 2 ^ 4 then uintMax else (min uintMax v * 2 ^ 4 + d) % 2 ^ 32) =
      min uintMax (v * 2 ^ 4 + d) := by
  have hmax : uintMax = 4294967295 := rfl
  have hroom : uintMax / 2 ^ 4 = 268435455 := rfl
  rw [hroom]
  by_cases hlarge : v > 268435455
  · have hmin : min uintMax v > 268435455 := lt_min (by decide) hlarge
    rw [if_pos hmin, min_eq_left (by omega)]
  · rw [min_eq_right (a := uintMax) (b := v) (by omega), if_neg hlarge, min_eq_right (by omega)]
    exact Int.emod_eq_of_lt (by omega) (by omega)

/-- The last hexadecimal digit. -/
theorem scanHexDigits_last {c : UniChar} {rest : List UniChar} (hrest : charactersFrom chars idx = c :: rest)
    (hc : characterNumericOrHexValue c ≠ -1) (hnext : characterNumericOrHexValue (rest.headD 0xFFFF) = -1) {v : Int}
    (hv : 0 ≤ v) :
    scanHexDigits chars idx (min uintMax v) (characterNumericOrHexValue c) =
      if idx + (leadingHexDigits (c :: rest)).length ≤ intMax then
        some (idx + (leadingHexDigits (c :: rest)).length, min uintMax (hexValue v (leadingHexDigits (c :: rest))))
      else none := by
  rw [scanHexDigits, hexStep hv (characterNumericOrHexValue_bounds hc), characterAux_eq, charactersFrom_succ hrest,
    leadingHexDigits_cons hc, leadingHexDigits_of_head hnext, hnext, List.length_singleton, Nat.cast_one]
  simp only [ne_eq, not_true_eq_false, ↓reduceIte]
  by_cases hlt : idx < intMax
  · rw [dif_pos hlt, if_pos (Int.add_one_le_iff.mpr hlt)]
    rfl
  · rw [dif_neg hlt, if_neg (mt Int.add_one_le_iff.mp hlt)]

/-- The value of the digits, or `UINT_MAX` if that is less. -/
theorem scanHexDigits_spec {c : UniChar} {rest : List UniChar} (hrest : charactersFrom chars idx = c :: rest)
    (hc : characterNumericOrHexValue c ≠ -1) {v : Int} (hv : 0 ≤ v) :
    scanHexDigits chars idx (min uintMax v) (characterNumericOrHexValue c) =
      if idx + (leadingHexDigits (c :: rest)).length ≤ intMax then
        some (idx + (leadingHexDigits (c :: rest)).length, min uintMax (hexValue v (leadingHexDigits (c :: rest))))
      else none := by
  induction rest generalizing idx c v with
  | nil => exact scanHexDigits_last hrest hc rfl hv
  | cons d rest ih =>
    by_cases hd : characterNumericOrHexValue d = -1
    · exact scanHexDigits_last hrest hc hd hv
    have hbounds := characterNumericOrHexValue_bounds hc
    have hnext := charactersFrom_succ hrest
    have hlength : idx + (leadingHexDigits (c :: d :: rest)).length =
        idx + 1 + (leadingHexDigits (d :: rest)).length := by
      rw [leadingHexDigits_cons hc, List.length_cons]
      push_cast
      omega
    rw [scanHexDigits, hexStep hv hbounds, characterAux_eq, hnext, hlength]
    by_cases hlt : idx < intMax
    · rw [dif_pos hlt]
      simp only [List.headD_cons, ne_eq, hd, not_false_eq_true, ↓reduceIte]
      rw [ih hnext hd (by omega), leadingHexDigits_cons hc]
      rfl
    · rw [dif_neg hlt, if_neg (by omega)]

/-- There is a `0x` or `0X` at the head of the text. -/
def HexPrefixed (rest : List UniChar) : Prop :=
  rest.headD 0xFFFF = unichar '0' ∧
    ((rest.drop 1).headD 0xFFFF = unichar 'x' ∨ (rest.drop 1).headD 0xFFFF = unichar 'X')

instance (rest : List UniChar) : Decidable (HexPrefixed rest) := inferInstanceAs (Decidable (_ ∧ _))

/-- The digits that the scan of a hexadecimal numeral takes, and the number of
characters before them. -/
def hexDigits (rest : List UniChar) : Nat × List UniChar :=
  if HexPrefixed rest then (2, leadingHexDigits (rest.drop 2)) else (0, leadingHexDigits rest)

/-- The loop from the first digit on. -/
theorem scanHexDigits_first (stores : Bool) {rest : List UniChar} (hrest : charactersFrom chars idx = rest)
    (hc : characterNumericOrHexValue (rest.headD 0xFFFF) ≠ -1) :
    (scanHexDigits chars idx 0 (characterNumericOrHexValue (rest.headD 0xFFFF))).map
        (fun x => (true, x.1, if stores then some x.2 else none)) =
      if idx + (leadingHexDigits rest).length ≤ intMax then
        some (true, idx + (leadingHexDigits rest).length,
          if stores then some (min uintMax (hexValue 0 (leadingHexDigits rest))) else none)
      else none := by
  obtain ⟨c, tail, rfl, hc⟩ := exists_cons_of_hex hc
  have hscan := scanHexDigits_spec hrest hc (v := 0) le_rfl
  rw [show min uintMax 0 = 0 from rfl] at hscan
  rw [List.headD_cons, hscan]
  by_cases hroom : idx + (leadingHexDigits (c :: tail)).length ≤ intMax
  · rw [if_pos hroom, if_pos hroom, Option.map_some]
  · rw [if_neg hroom, if_neg hroom, Option.map_none]

theorem leadingHexDigits_ne_nil {rest : List UniChar} (h : characterNumericOrHexValue (rest.headD 0xFFFF) ≠ -1) :
    leadingHexDigits rest ≠ [] := by
  obtain ⟨c, tail, rfl, hc⟩ := exists_cons_of_hex h
  rw [leadingHexDigits_cons hc]
  exact List.cons_ne_nil _ _

/-- A numeral with a prefix. -/
theorem scanHexNumeral_prefixed (stores : Bool) {d : UniChar} {rest : List UniChar}
    (hrest : charactersFrom chars idx = unichar '0' :: d :: rest) (hd : d = unichar 'x' ∨ d = unichar 'X') :
    scanHexNumeral chars stores idx =
      if idx + 2 + (leadingHexDigits rest).length ≤ intMax then
        if leadingHexDigits rest = [] then some (true, idx + 1, if stores then some 0 else none)
        else
          some (true, idx + 2 + (leadingHexDigits rest).length,
            if stores then some (min uintMax (hexValue 0 (leadingHexDigits rest))) else none)
      else none := by
  have hnext := charactersFrom_succ hrest
  have htail : charactersFrom chars (idx + 2) = rest := by
    rw [show idx + 2 = idx + 1 + 1 by omega, charactersFrom_succ hnext]
  rw [scanHexNumeral]
  simp only [characterAux_eq, hrest, hnext, List.headD_cons, ↓reduceIte, Int.add_assoc, Int.reduceAdd, htail, hd,
    true_and]
  by_cases hlt : idx + 1 < intMax
  · rw [if_pos (by omega), if_neg (not_not_intro hlt)]
    by_cases hc : characterNumericOrHexValue (rest.headD 0xFFFF) = -1
    · have hroom : idx + (2 + (([] : List UniChar).length : Int)) ≤ intMax := by
        rw [List.length_nil]
        omega
      rw [if_pos hc, leadingHexDigits_of_head hc, if_pos hroom, if_pos rfl, show idx + 2 - 1 = idx + 1 by omega]
    · rw [if_neg hc, scanHexDigits_first stores htail hc, if_neg (leadingHexDigits_ne_nil hc), Int.add_assoc]
  · rw [if_neg (show ¬ idx + (2 + ((leadingHexDigits rest).length : Int)) ≤ intMax by omega), if_pos hlt, ite_self]

/-- A numeral with a leading zero and no prefix. -/
theorem scanHexNumeral_zero (stores : Bool) {rest : List UniChar}
    (hrest : charactersFrom chars idx = unichar '0' :: rest)
    (hx : ¬ (rest.headD 0xFFFF = unichar 'x' ∨ rest.headD 0xFFFF = unichar 'X')) :
    scanHexNumeral chars stores idx =
      if idx + 1 + (leadingHexDigits rest).length ≤ intMax then
        if leadingHexDigits rest = [] then some (true, idx, if stores then some 0 else none)
        else
          some (true, idx + 1 + (leadingHexDigits rest).length,
            if stores then some (min uintMax (hexValue 0 (leadingHexDigits rest))) else none)
      else none := by
  have hnext := charactersFrom_succ hrest
  rw [scanHexNumeral]
  simp only [characterAux_eq, hrest, hnext, List.headD_cons, ↓reduceIte, hx, false_and]
  by_cases hlt : idx < intMax
  · rw [if_pos hlt]
    by_cases hc : characterNumericOrHexValue (rest.headD 0xFFFF) = -1
    · have hroom : idx + 1 + (([] : List UniChar).length : Int) ≤ intMax := by
        rw [List.length_nil]
        omega
      rw [if_pos hc, leadingHexDigits_of_head hc, if_pos hroom, if_pos rfl, Int.add_sub_cancel]
    · rw [if_neg hc, scanHexDigits_first stores hnext hc, if_neg (leadingHexDigits_ne_nil hc)]
  · rw [if_neg hlt, if_neg (by omega)]

/-- A numeral with no leading zero. -/
theorem scanHexNumeral_other (stores : Bool) {rest : List UniChar} (hidx : idx ≤ intMax)
    (hrest : charactersFrom chars idx = rest) (hzero : rest.headD 0xFFFF ≠ unichar '0') :
    scanHexNumeral chars stores idx =
      if idx + (leadingHexDigits rest).length ≤ intMax then
        if leadingHexDigits rest = [] then some (false, idx, none)
        else
          some (true, idx + (leadingHexDigits rest).length,
            if stores then some (min uintMax (hexValue 0 (leadingHexDigits rest))) else none)
      else none := by
  rw [scanHexNumeral]
  simp only [characterAux_eq, hrest, if_neg hzero]
  by_cases hc : characterNumericOrHexValue (rest.headD 0xFFFF) = -1
  · have hroom : idx + (([] : List UniChar).length : Int) ≤ intMax := by
      rw [List.length_nil]
      omega
    rw [if_pos hc, leadingHexDigits_of_head hc, if_pos hroom, if_pos rfl]
  · rw [if_neg hc, scanHexDigits_first stores hrest hc, if_neg (leadingHexDigits_ne_nil hc)]

/-! ## What both scans should read -/

/-- The hexadecimal digits that make up a numeral, after an optional prefix that is
followed by a digit, and the number of characters of the prefix. -/
def hexNumeral (rest : List UniChar) : Nat × List UniChar :=
  if HexPrefixed rest ∧ leadingHexDigits (rest.drop 2) ≠ [] then (2, leadingHexDigits (rest.drop 2))
  else (0, leadingHexDigits rest)

/-- The scan of digits succeeds exactly when there are some, leaves the index after
them and stores their value. -/
def ReadsNumeral (out : Option (Bool × Int × Option Int)) (stores : Bool) (digits : List UniChar) (idx value : Int) :
    Prop :=
  ∃ found idx' stored, out = some (found, idx', stored) ∧ (found = true ↔ digits ≠ []) ∧
    (digits ≠ [] → idx' = idx ∧ stored = if stores then some value else none)

/-- Both scans of a text from an index read what they should. -/
structure Scans (chars : List UniChar) (idx : Int) : Prop where
  integer : ∀ doLonglong stores,
    let (neg, n) := numeralStart (charactersFrom chars idx)
    let digits := leadingDigits ((charactersFrom chars idx).drop n)
    ReadsNumeral (stringScanInteger chars idx doLonglong stores) stores digits (idx + n + digits.length)
      (clamp (if doLonglong then llongMax else intMax) (signed neg (decimalValue 0 digits)))
  hex : ∀ stores,
    let spaces := ((charactersFrom chars idx).takeWhile cfIsWhitespace).length
    let (skipped, digits) := hexNumeral ((charactersFrom chars idx).drop spaces)
    ReadsNumeral (stringScanHex chars idx stores) stores digits (idx + spaces + skipped + digits.length)
      (min uintMax (hexValue 0 digits))

theorem not_reads_none {stores : Bool} {digits : List UniChar} {value : Int} :
    ¬ ReadsNumeral none stores digits idx value := by
  rintro ⟨_, _, _, h, -⟩
  cases h

theorem reads_integer_iff (chars : List UniChar) (doLonglong stores : Bool) (hidx : idx ≤ intMax) {neg : Bool} {n : Nat}
    (hstart : numeralStart (charactersFrom chars idx) = (neg, n)) {digits : List UniChar}
    (hdigits : leadingDigits ((charactersFrom chars idx).drop n) = digits) :
    ReadsNumeral (stringScanInteger chars idx doLonglong stores) stores digits (idx + n + digits.length)
        (clamp (if doLonglong then llongMax else intMax) (signed neg (decimalValue 0 digits))) ↔
      idx + n + digits.length ≤ intMax := by
  rw [stringScanInteger_eq chars doLonglong stores hidx hstart, hdigits]
  by_cases hroom : idx + n + digits.length ≤ intMax
  · refine iff_of_true ?_ hroom
    rw [if_pos hroom, integerResult]
    by_cases hnil : digits = []
    · rw [if_pos hnil]
      exact ⟨_, _, _, rfl, iff_of_false Bool.false_ne_true (not_not_intro hnil), fun h => absurd hnil h⟩
    · rw [if_neg hnil]
      exact ⟨_, _, _, rfl, iff_of_true rfl hnil, fun _ => ⟨rfl, rfl⟩⟩
  · rw [if_neg hroom]
    exact iff_of_false not_reads_none hroom

/-- The number of characters that the scan of a hexadecimal numeral passes over. -/
def hexReach (rest : List UniChar) : Nat :=
  if HexPrefixed rest then 2 + (leadingHexDigits (rest.drop 2)).length else (leadingHexDigits rest).length

/-- The numeral is a `0` that is followed neither by a digit nor by an `x` or `X`. -/
def LoneZero (rest : List UniChar) : Prop := ¬ HexPrefixed rest ∧ leadingHexDigits rest = [unichar '0']

theorem headD_of_leadingHexDigits {rest : List UniChar} {c : UniChar} {digits : List UniChar}
    (h : leadingHexDigits rest = c :: digits) : rest.headD 0xFFFF = c := by
  by_cases hhead : characterNumericOrHexValue (rest.headD 0xFFFF) = -1
  · rw [leadingHexDigits_of_head hhead] at h
    cases h
  · obtain ⟨d, tail, rfl, hd⟩ := exists_cons_of_hex hhead
    rw [leadingHexDigits_cons hd] at h
    exact List.head_eq_of_cons_eq h

/-- After a `0` the index is taken back over a prefix that may not be there. -/
theorem reads_hex_iff (chars : List UniChar) (stores : Bool) (hidx : idx ≤ intMax) {rest : List UniChar}
    (hrest : charactersFrom chars idx = rest) :
    ReadsNumeral (scanHexNumeral chars stores idx) stores (hexNumeral rest).2
        (idx + (hexNumeral rest).1 + (hexNumeral rest).2.length) (min uintMax (hexValue 0 (hexNumeral rest).2)) ↔
      idx + hexReach rest ≤ intMax ∧ ¬ LoneZero rest := by
  have hzeroDigit : characterNumericOrHexValue (unichar '0') ≠ -1 := by decide
  by_cases hprefixed : HexPrefixed rest
  · obtain ⟨d, tail, rfl, hd⟩ : ∃ d tail, rest = unichar '0' :: d :: tail ∧ (d = unichar 'x' ∨ d = unichar 'X') := by
      match rest, hprefixed with
      | [_], h =>
        have hend : ¬ ((0xFFFF : UniChar) = unichar 'x' ∨ (0xFFFF : UniChar) = unichar 'X') := by decide
        exact absurd h.2 hend
      | c :: d :: tail, h => exact ⟨d, tail, congrArg (· :: d :: tail) h.1, h.2⟩
    have hnotDigit : characterNumericOrHexValue d = -1 := by rcases hd with rfl | rfl <;> decide
    have hlone : ¬ LoneZero (unichar '0' :: d :: tail) := fun h => h.1 hprefixed
    have hcast : idx + ((2 + (leadingHexDigits tail).length : Nat) : Int) =
        idx + 2 + (leadingHexDigits tail).length := by
      push_cast
      omega
    rw [scanHexNumeral_prefixed stores hrest hd, hexReach, if_pos hprefixed, List.drop_succ_cons, List.drop_succ_cons,
      List.drop_zero, hcast]
    by_cases hroom : idx + 2 + (leadingHexDigits tail).length ≤ intMax
    · refine iff_of_true ?_ ⟨hroom, hlone⟩
      rw [if_pos hroom]
      by_cases hnil : leadingHexDigits tail = []
      · have hnumeral : hexNumeral (unichar '0' :: d :: tail) = (0, [unichar '0']) := by
          rw [hexNumeral, if_neg (fun h => h.2 hnil), leadingHexDigits_cons hzeroDigit,
            leadingHexDigits_of_head (show characterNumericOrHexValue ((d :: tail).headD 0xFFFF) = -1 from hnotDigit)]
        rw [if_pos hnil, hnumeral]
        exact ⟨_, _, _, rfl, iff_of_true rfl (List.cons_ne_nil _ _), fun _ => ⟨by simp, rfl⟩⟩
      · have hnumeral : hexNumeral (unichar '0' :: d :: tail) = (2, leadingHexDigits tail) := if_pos ⟨hprefixed, hnil⟩
        rw [if_neg hnil, hnumeral]
        exact ⟨_, _, _, rfl, iff_of_true rfl hnil, fun _ => ⟨rfl, rfl⟩⟩
    · rw [if_neg hroom]
      exact iff_of_false not_reads_none fun h => hroom h.1
  rw [hexReach, if_neg hprefixed, hexNumeral, if_neg (fun h => hprefixed h.1)]
  simp only [Nat.cast_zero, Int.add_zero]
  by_cases hzero : rest.headD 0xFFFF = unichar '0'
  · obtain ⟨tail, rfl⟩ : ∃ tail, rest = unichar '0' :: tail := by
      obtain ⟨c, tail, rfl, -⟩ := exists_cons_of_hex (hzero ▸ hzeroDigit)
      exact ⟨tail, congrArg (· :: tail) hzero⟩
    have hcast : idx + ((leadingHexDigits tail).length + 1 : Nat) = idx + 1 + (leadingHexDigits tail).length := by
      push_cast
      omega
    rw [scanHexNumeral_zero stores hrest fun h => hprefixed ⟨rfl, h⟩, LoneZero, leadingHexDigits_cons hzeroDigit,
      List.length_cons, hcast]
    by_cases hroom : idx + 1 + (leadingHexDigits tail).length ≤ intMax
    · rw [if_pos hroom]
      by_cases hnil : leadingHexDigits tail = []
      · rw [if_pos hnil, hnil]
        refine iff_of_false ?_ fun h => h.2 ⟨hprefixed, rfl⟩
        rintro ⟨_, _, _, hout, -, hindex⟩
        cases hout
        have hindex := (hindex (List.cons_ne_nil _ _)).1
        rw [List.length_nil] at hindex
        omega
      · rw [if_neg hnil]
        exact iff_of_true ⟨_, _, _, rfl, iff_of_true rfl (List.cons_ne_nil _ _), fun _ => ⟨rfl, rfl⟩⟩
          ⟨hroom, fun h => hnil (List.cons.inj h.2).2⟩
    · rw [if_neg hroom]
      exact iff_of_false not_reads_none fun h => hroom h.1
  · have hlone : ¬ LoneZero rest := fun h => hzero (headD_of_leadingHexDigits h.2)
    rw [scanHexNumeral_other stores hidx hrest hzero]
    by_cases hroom : idx + (leadingHexDigits rest).length ≤ intMax
    · refine iff_of_true ?_ ⟨hroom, hlone⟩
      rw [if_pos hroom]
      by_cases hnil : leadingHexDigits rest = []
      · rw [if_pos hnil]
        exact ⟨_, _, _, rfl, iff_of_false Bool.false_ne_true (not_not_intro hnil), fun h => absurd hnil h⟩
      · rw [if_neg hnil]
        exact ⟨_, _, _, rfl, iff_of_true rfl hnil, fun _ => ⟨rfl, rfl⟩⟩
    · rw [if_neg hroom]
      exact iff_of_false not_reads_none fun h => hroom h.1

/-- The same after white space. -/
theorem reads_scanHex_iff (chars : List UniChar) (stores : Bool) (hidx : idx ≤ intMax) {spaces : Nat}
    (hspaces : ((charactersFrom chars idx).takeWhile cfIsWhitespace).length = spaces) {rest : List UniChar}
    (hrest : (charactersFrom chars idx).drop spaces = rest) :
    ReadsNumeral (stringScanHex chars idx stores) stores (hexNumeral rest).2
        (idx + spaces + (hexNumeral rest).1 + (hexNumeral rest).2.length)
        (min uintMax (hexValue 0 (hexNumeral rest).2)) ↔
      idx + spaces + hexReach rest ≤ intMax ∧ ¬ LoneZero rest := by
  have hwhite : cfIsWhitespace 0xFFFF = false := by decide
  have hadd := charactersFrom_add (hspaces ▸ length_takeWhile_le cfIsWhitespace (charactersFrom chars idx))
  rw [stringScanHex, skipWhile_eq hwhite chars hidx, hspaces]
  by_cases hroom : idx + spaces ≤ intMax
  · rw [if_pos hroom, Option.bind_some]
    exact reads_hex_iff chars stores hroom (hadd.trans hrest)
  · rw [if_neg hroom, Option.bind_none]
    exact iff_of_false not_reads_none fun h => hroom (by omega)

/-- The number of characters that the scan of an integer passes over. -/
def integerReach (rest : List UniChar) : Nat :=
  (numeralStart rest).2 + (leadingDigits (rest.drop (numeralStart rest).2)).length

/-- Both scans read what they should if and only if the index does not overflow and
the hexadecimal numeral is not a lone zero. -/
theorem scans_iff (chars : List UniChar) (hidx : idx ≤ intMax) :
    Scans chars idx ↔
      let rest := charactersFrom chars idx
      let spaces := (rest.takeWhile cfIsWhitespace).length
      idx + integerReach rest ≤ intMax ∧ idx + spaces + hexReach (rest.drop spaces) ≤ intMax ∧
        ¬ LoneZero (rest.drop spaces) := by
  have hinteger := fun doLonglong stores => reads_integer_iff chars doLonglong stores hidx Prod.mk.eta.symm rfl
  have hhex := fun stores => reads_scanHex_iff chars stores hidx rfl rfl
  have hreach : idx + integerReach (charactersFrom chars idx) = idx + (numeralStart (charactersFrom chars idx)).2 +
      (leadingDigits ((charactersFrom chars idx).drop (numeralStart (charactersFrom chars idx)).2)).length := by
    rw [integerReach, Nat.cast_add, Int.add_assoc]
  dsimp only
  rw [hreach]
  constructor
  · intro h
    exact ⟨(hinteger false false).mp (h.integer false false), (hhex false).mp (h.hex false)⟩
  · rintro ⟨hroom, hread⟩
    exact ⟨fun doLonglong stores => (hinteger doLonglong stores).mpr hroom, fun stores => (hhex stores).mpr hread⟩

/-- The text of `12`. -/
theorem scans_iff_twelve : (0 : Int) ≤ intMax ∧ Scans [unichar '1', unichar '2'] 0 := by
  refine ⟨by decide, (scans_iff _ (by decide)).mpr ⟨by decide, by decide, ?_⟩⟩
  exact fun h => absurd h.2 (by decide)

/-- The scan of `0` leaves the index where it was. -/
theorem not_scans_zero : ¬ Scans [unichar '0'] 0 := by
  intro h
  have hlone : LoneZero [unichar '0'] := ⟨by decide, by decide⟩
  exact ((reads_scanHex_iff [unichar '0'] true (by decide) rfl rfl).mp (h.hex true)).2 hlone

end CFLite.Strings
