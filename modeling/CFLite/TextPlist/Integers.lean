import CFLite.TextPlist.CharacterReferences

/-!
# Integers in XML

What `parseIntegerTag` accepts between its tags, and the number it makes of
it.

* `integerLoop_result`: the loop over the digits accepts those whose value is
  within the limit, although it looks at the value digit by digit;
* `magnitudeText_iff`: the parser's way through `0`, `0x` and leading zeros
  gives the value of the digits;
* `parseIntegerTag_reads`: an integer in the range gives its number, and every
  other text an error.
-/

namespace CFLite.TextPlist

open CFLite.Framework

/-! ## The integers of a text -/

/-- Decimal digits, or `0x` and hexadecimal digits, with the value `m`. -/
inductive MagnitudeText : List UInt16 → Nat → Prop where
  | decimal {text : List UInt16} {digits : List Nat} (hne : text ≠ [])
    (hdigits : text.mapM (radixDigit false) = some digits) : MagnitudeText text (digitsValue 10 digits 0)
  | hexadecimal {mark : UInt16} {text : List UInt16} {digits : List Nat} (hmark : isHexMark mark = true)
    (hne : text ≠ []) (hdigits : text.mapM (radixDigit true) = some digits) :
    MagnitudeText (unichar '0' :: mark :: text) (digitsValue 16 digits 0)

/-- Space, a sign, space and a magnitude, of which only the last must be
there. -/
inductive IntegerText : List UInt16 → Int → Prop where
  | unsigned {spaces body : List UInt16} {m : Nat} (hspaces : ∀ c ∈ spaces, cfIsWhitespace c = true)
    (hbody : MagnitudeText body m) : IntegerText (spaces ++ body) m
  | plus {spaces spaces' body : List UInt16} {m : Nat} (hspaces : ∀ c ∈ spaces, cfIsWhitespace c = true)
    (hspaces' : ∀ c ∈ spaces', cfIsWhitespace c = true) (hbody : MagnitudeText body m) :
    IntegerText (spaces ++ unichar '+' :: (spaces' ++ body)) m
  | minus {spaces spaces' body : List UInt16} {m : Nat} (hspaces : ∀ c ∈ spaces, cfIsWhitespace c = true)
    (hspaces' : ∀ c ∈ spaces', cfIsWhitespace c = true) (hbody : MagnitudeText body m) :
    IntegerText (spaces ++ unichar '-' :: (spaces' ++ body)) (-m)

/-- The largest magnitude of an integer with a sign. -/
def magnitudeLimit (isNeg : Bool) : Nat := if isNeg then 2 ^ 63 else 2 ^ 64 - 1

/-! ## Digits -/

theorem digitsValue_ge {base : Nat} (hbase : 0 < base) (digits : List Nat) (num : Nat) :
    num ≤ digitsValue base digits num := by
  induction digits generalizing num with
  | nil => exact Nat.le_refl num
  | cons digit digits ih =>
    calc num ≤ num * base := Nat.le_mul_of_pos_right num hbase
      _ ≤ num * base + digit := Nat.le_add_right ..
      _ ≤ digitsValue base digits (num * base + digit) := ih _

theorem radix_pos (isHex : Bool) : 0 < radix isHex := by cases isHex <;> decide

/-- Digits of the radix and those that `digitStep` accepts. -/
theorem radixDigit_eq_some {isHex : Bool} {ch : UInt16} {digit : Nat} :
    radixDigit isHex ch = some digit ↔ digitValue ch = some digit ∧ ¬(!isHex ∧ 9 < digit) := by
  rw [radixDigit]
  cases isHex with
  | true => simp
  | false =>
    simp only [Bool.false_eq_true, false_or, Bool.not_false, true_and]
    rw [digitValue]
    split
    · rename_i hdec
      rw [isDigit, Bool.and_eq_true, decide_eq_true_eq, decide_eq_true_eq, UInt16.le_iff_toNat_le,
        UInt16.le_iff_toNat_le] at hdec
      have hzero : (unichar '0').toNat = 48 := by decide
      have hnine : (unichar '9').toNat = 57 := by decide
      have hchar : '0'.toNat = 48 := by decide
      simp only [Option.some.injEq]
      omega
    · split
      · simp only [Option.some.injEq, reduceCtorEq, false_iff]
        omega
      · split
        · simp only [Option.some.injEq, reduceCtorEq, false_iff]
          omega
        · simp

theorem digitValue_lt {ch : UInt16} {digit : Nat} (h : digitValue ch = some digit) : digit < 16 := by
  have hzero : (unichar '0').toNat = 48 ∧ (unichar '9').toNat = 57 ∧ '0'.toNat = 48 := by decide
  have hlow : (unichar 'a').toNat = 97 ∧ (unichar 'f').toNat = 102 ∧ 'a'.toNat = 97 := by decide
  have hup : (unichar 'A').toNat = 65 ∧ (unichar 'F').toNat = 70 ∧ 'A'.toNat = 65 := by decide
  rw [digitValue] at h
  split at h
  · rename_i hdec
    rw [isDigit, Bool.and_eq_true, decide_eq_true_eq, decide_eq_true_eq, UInt16.le_iff_toNat_le,
      UInt16.le_iff_toNat_le] at hdec
    have := Option.some.inj h
    omega
  · split at h
    · rename_i hc
      rw [UInt16.le_iff_toNat_le, UInt16.le_iff_toNat_le] at hc
      have := Option.some.inj h
      omega
    · split at h
      · rename_i hc
        rw [UInt16.le_iff_toNat_le, UInt16.le_iff_toNat_le] at hc
        have := Option.some.inj h
        omega
      · cases h

/-! ## The loop over the digits -/

section Loop

variable {input : Input} {p : ParseInfo} {isHex isNeg : Bool}

theorem getCh_result {c : UInt16} {tail : List UInt16} (hrest : input.rest p.curr = c :: tail) :
    (getCh input p).result = .ok (some c, p) := by
  have hlt := Input.lt_length hrest
  simp only [getCh, result_bind, currentIndex_result, ok_bind, if_neg (Nat.ne_of_lt hlt), deref_result,
    Input.unit_eq hrest, pure_result]

/-- A step on a digit that keeps the value within the limit. -/
theorem digitStep_digit {c next : UInt16} {tail : List UInt16} {digit value : Nat}
    (hrest : input.rest p.curr = c :: next :: tail) (hdigit : radixDigit isHex c = some digit)
    (hlimit : value * radix isHex + digit ≤ magnitudeLimit isNeg) (hc : c ≠ unichar '<') :
    (digitStep input isHex isNeg (c, value) p).result =
      .ok (.inl (next, value * radix isHex + digit), { p with curr := p.curr + 1 }) := by
  obtain ⟨hvalue, hradix⟩ := radixDigit_eq_some.mp hdigit
  have hbase : (if isHex = true then 16 else 10) = radix isHex := rfl
  have hpos := radix_pos isHex
  have hmul : radix isHex * value = value * radix isHex := Nat.mul_comm ..
  have hle : magnitudeLimit isNeg ≤ 2 ^ 64 - 1 := by cases isNeg <;> decide
  have hdiv : ¬(2 ^ 64 - 1) / radix isHex < value := by
    rw [Nat.not_lt, Nat.le_div_iff_mul_le hpos]
    omega
  have hsum : ¬2 ^ 64 - 1 - digit < radix isHex * value := by omega
  have hneg : ¬(isNeg = true ∧ 2 ^ 63 < radix isHex * value + digit) := by
    rintro ⟨rfl, hlt⟩
    rw [magnitudeLimit, if_pos rfl] at hlimit
    omega
  have hnext := getCh_result (p := { p with curr := p.curr + 1 }) (Input.rest_succ hrest)
  simp only [digitStep, if_neg hc, hvalue, hbase]
  rw [if_neg hradix, if_neg (by rw [not_or]; exact ⟨hdiv, hsum⟩), if_neg hneg]
  simp only [result_bind, advance_result, ok_bind, hnext, pure_result, hmul]

/-- A step on another character, or past the limit. -/
theorem digitStep_other (input : Input) (p : ParseInfo) {c : UInt16} {value : Nat} (hc : c ≠ unichar '<')
    (hbad : ∀ digit, radixDigit isHex c = some digit → magnitudeLimit isNeg < value * radix isHex + digit) :
    ∃ p', (digitStep input isHex isNeg (c, value) p).result = .ok (.inr none, p') ∧ p'.error ≠ none := by
  have hbase : (if isHex = true then 16 else 10) = radix isHex := rfl
  have hmul : radix isHex * value = value * radix isHex := Nat.mul_comm ..
  simp only [digitStep, if_neg hc, hbase]
  cases hvalue : digitValue c with
  | none =>
    simp only [result_bind, setLineError_result, ok_bind, pure_result]
    exact ⟨_, rfl, Option.some_ne_none _⟩
  | some digit =>
    dsimp only
    by_cases hradix : !isHex ∧ 9 < digit
    · rw [if_pos hradix]
      simp only [result_bind, setLineError_result, ok_bind, pure_result]
      exact ⟨_, rfl, Option.some_ne_none _⟩
    · have hlimit := hbad digit (radixDigit_eq_some.mpr ⟨hvalue, hradix⟩)
      have hsmall := digitValue_lt hvalue
      rw [if_neg hradix]
      by_cases hover : (2 ^ 64 - 1) / radix isHex < value ∨ 2 ^ 64 - 1 - digit < radix isHex * value
      · rw [if_pos hover]
        simp only [result_bind, setLineError_result, ok_bind, pure_result]
        exact ⟨_, rfl, Option.some_ne_none _⟩
      · have hneg : isNeg = true ∧ 2 ^ 63 < radix isHex * value + digit := by
          rw [magnitudeLimit] at hlimit
          split at hlimit
          · rename_i h
            exact ⟨h, by omega⟩
          · omega
        rw [if_neg hover, if_pos hneg]
        simp only [result_bind, setLineError_result, ok_bind, pure_result]
        exact ⟨_, rfl, Option.some_ne_none _⟩

/-- The value of a run of digits up to `<`, or an error at the first character
that is no digit or leaves the limit. -/
theorem integerLoop_result (isHex isNeg : Bool) (n : Nat) (body tail : List UInt16) (hbody : ∀ c ∈ body, c ≠ unichar '<')
    {c : UInt16} {rest : List UInt16} (hcons : body ++ unichar '<' :: tail = c :: rest)
    (hrest : input.rest p.curr = c :: rest) (hn : body.length < n) (value : Nat)
    (hvalue : value ≤ magnitudeLimit isNeg) :
    (∀ digits, body.mapM (radixDigit isHex) = some digits →
      digitsValue (radix isHex) digits value ≤ magnitudeLimit isNeg →
      (Run.loop (digitStep input isHex isNeg) n (c, value) p).result =
        .ok (some (digitsValue (radix isHex) digits value), { p with curr := p.curr + body.length })) ∧
    ((∀ digits, body.mapM (radixDigit isHex) = some digits →
      magnitudeLimit isNeg < digitsValue (radix isHex) digits value) →
      ∃ p', (Run.loop (digitStep input isHex isNeg) n (c, value) p).result = .ok (none, p') ∧ p'.error ≠ none) := by
  induction n generalizing body c rest p value with
  | zero => omega
  | succ n ih =>
    cases body with
    | nil =>
      obtain ⟨rfl, rfl⟩ := List.cons.inj hcons
      refine ⟨fun digits hdigits _ => ?_, fun h => ?_⟩
      · obtain rfl : [] = digits := Option.some.inj hdigits
        rw [loop_result]
        simp only [digitStep, if_true, pure_result, ok_bind, digitsValue, List.foldl_nil, List.length_nil, Nat.add_zero]
      · exact absurd (h [] rfl) (Nat.not_lt.mpr hvalue)
    | cons d body =>
      obtain ⟨rfl, rfl⟩ := List.cons.inj hcons
      have hd := hbody d (List.mem_cons_self ..)
      rw [List.length_cons] at hn
      obtain ⟨next, rest, hnext⟩ : ∃ next rest, body ++ unichar '<' :: tail = next :: rest := by
        cases body with
        | nil => exact ⟨_, _, rfl⟩
        | cons e body => exact ⟨_, _, rfl⟩
      rw [loop_result, List.mapM_cons]
      change input.rest p.curr = d :: (body ++ unichar '<' :: tail) at hrest
      by_cases hgood : ∃ digit, radixDigit isHex d = some digit ∧ value * radix isHex + digit ≤ magnitudeLimit isNeg
      · obtain ⟨digit, hdigit, hlimit⟩ := hgood
        rw [hnext] at hrest
        obtain ⟨hsome, hnone⟩ := ih (p := { p with curr := p.curr + 1 }) body
          (fun c hmem => hbody c (List.mem_cons_of_mem _ hmem)) hnext (Input.rest_succ hrest) (by omega)
          (value * radix isHex + digit) hlimit
        rw [digitStep_digit hrest hdigit hlimit hd, ok_bind]
        dsimp only
        simp only [hdigit, Option.bind_eq_bind, Option.bind_some]
        constructor
        · intro digits hdigits hle
          obtain ⟨ds, hds, hdigits⟩ := Option.bind_eq_some_iff.mp hdigits
          obtain rfl := Option.some.inj hdigits
          rw [hsome ds hds hle, List.length_cons, Nat.add_assoc, Nat.add_comm 1]
          rfl
        · intro h
          refine hnone fun ds hds => ?_
          exact h (digit :: ds) (by rw [hds]; rfl)
      · obtain ⟨p', hp', herror⟩ := digitStep_other input p hd fun digit hdigit =>
          Nat.lt_of_not_le fun hle => hgood ⟨digit, hdigit, hle⟩
        rw [hp', ok_bind]
        refine ⟨fun digits hdigits hle => ?_, fun _ => ⟨p', rfl, herror⟩⟩
        obtain ⟨digit, hdigit, hdigits⟩ := Option.bind_eq_some_iff.mp hdigits
        obtain ⟨ds, hds, hdigits⟩ := Option.bind_eq_some_iff.mp hdigits
        obtain rfl := Option.some.inj hdigits
        have hge := digitsValue_ge (radix_pos isHex) ds (value * radix isHex + digit)
        exact absurd ⟨digit, hdigit, Nat.le_trans hge hle⟩ hgood

/-- Zeros before the digits. -/
theorem leadingZeros_result (n : Nat) {body tail : List UInt16} (hbody : ∀ c ∈ body, c ≠ unichar '<')
    {c : UInt16} {rest : List UInt16} (hcons : body ++ unichar '<' :: tail = c :: rest)
    (hrest : input.rest p.curr = c :: rest) (hn : body.length < n) (hadLeadingZero : Bool) :
    ∃ zeros digits next rest', body = List.replicate zeros (unichar '0') ++ digits ∧
      digits ++ unichar '<' :: tail = next :: rest' ∧
      (next = unichar '<' ↔ digits = []) ∧
      (Run.loop (leadingZeroStep input) n (c, hadLeadingZero) p).result =
        .ok (some (next, hadLeadingZero || decide (zeros ≠ 0)), { p with curr := p.curr + zeros }) := by
  induction n generalizing body c rest p hadLeadingZero with
  | zero => omega
  | succ n ih =>
    rw [loop_result]
    by_cases hc : c = unichar '0'
    · subst hc
      cases body with
      | nil => exact absurd (List.cons.inj hcons).1 (by decide)
      | cons d body =>
        obtain ⟨rfl, rfl⟩ := List.cons.inj hcons
        rw [List.length_cons] at hn
        change input.rest p.curr = unichar '0' :: (body ++ unichar '<' :: tail) at hrest
        obtain ⟨next, rest, hnext⟩ : ∃ next rest, body ++ unichar '<' :: tail = next :: rest := by
          cases body with
          | nil => exact ⟨_, _, rfl⟩
          | cons e body => exact ⟨_, _, rfl⟩
        have hafter := Input.rest_succ hrest
        rw [hnext] at hafter
        obtain ⟨zeros, digits, next', rest', hsplit, hdigits, hend, hloop⟩ := ih (p := { p with curr := p.curr + 1 })
          (fun c hmem => hbody c (List.mem_cons_of_mem _ hmem)) hnext hafter (by omega) true
        refine ⟨zeros + 1, digits, next', rest', by rw [hsplit, List.replicate_succ, List.cons_append], hdigits, hend, ?_⟩
        have hch := getCh_result (p := { p with curr := p.curr + 1 }) hafter
        simp only [leadingZeroStep, if_true, result_bind, advance_result, ok_bind, hch, pure_result, hloop]
        simp [Nat.add_assoc, Nat.add_comm 1]
    · refine ⟨0, body, c, rest, rfl, hcons, ?_, ?_⟩
      · cases body with
        | nil => exact iff_of_true (List.cons.inj hcons).1.symm rfl
        | cons d body =>
          obtain ⟨rfl, -⟩ := List.cons.inj hcons
          exact iff_of_false (hbody d (List.mem_cons_self ..)) (List.cons_ne_nil _ _)
      · simp only [leadingZeroStep, if_neg hc, pure_result, ok_bind, Nat.add_zero]
        simp

/-! ## The magnitude -/

/-- What `parseRadix` makes of the text after the sign: whether it is
hexadecimal, whether a zero was passed over, and what is left. -/
def splitRadix : List UInt16 → Bool × Bool × List UInt16
  | [] => (false, false, [])
  | [c] => if c = unichar '0' then (false, true, []) else (false, false, [c])
  | c :: mark :: text =>
    if c = unichar '0' then if isHexMark mark then (true, false, text) else (false, true, mark :: text)
    else (false, false, c :: mark :: text)

theorem parseRadix_result {body tail : List UInt16} {c : UInt16} {rest : List UInt16}
    (hcons : body ++ unichar '<' :: tail = c :: rest) (hrest : input.rest p.curr = c :: rest) :
    ∃ skipped, body = skipped ++ (splitRadix body).2.2 ∧
      (parseRadix input c p).result =
        .ok (((splitRadix body).1, (splitRadix body).2.1), { p with curr := p.curr + skipped.length }) := by
  cases body with
  | nil =>
    obtain ⟨rfl, -⟩ := List.cons.inj hcons
    exact ⟨[], rfl, rfl⟩
  | cons d body =>
    obtain ⟨rfl, rfl⟩ := List.cons.inj hcons
    by_cases hzero : d = unichar '0'
    · subst hzero
      change input.rest p.curr = unichar '0' :: (body ++ unichar '<' :: tail) at hrest
      have hafter := Input.rest_succ hrest
      cases body with
      | nil =>
        have hlt := Input.lt_length hafter
        have hunit : isHexMark (input.unit (p.curr + 1)) = false := by
          rw [Input.unit_eq hafter]
          decide
        refine ⟨[unichar '0'], rfl, ?_⟩
        simp only [parseRadix, if_true, result_bind, currentIndex_result, ok_bind, if_pos hlt, deref_result, pure_result,
          hunit, Bool.false_eq_true, if_false, advance_result, splitRadix, Bool.not_false, List.length_singleton]
      | cons mark body =>
        have hlt := Input.lt_length hafter
        have hunit : input.unit (p.curr + 1) = mark := Input.unit_eq hafter
        cases hmark : isHexMark mark with
        | true =>
          refine ⟨[unichar '0', mark], by simp [splitRadix, hmark], ?_⟩
          simp only [parseRadix, if_true, result_bind, currentIndex_result, ok_bind, if_pos hlt, deref_result,
            pure_result, hunit, hmark, advance_result, splitRadix, Bool.not_true, List.length_cons, List.length_nil]
        | false =>
          refine ⟨[unichar '0'], by simp [splitRadix, hmark], ?_⟩
          simp only [parseRadix, if_true, result_bind, currentIndex_result, ok_bind, if_pos hlt, deref_result,
            pure_result, hunit, hmark, Bool.false_eq_true, if_false, advance_result, splitRadix, Bool.not_false,
            List.length_singleton]
    · have hsplit : splitRadix (d :: body) = (false, false, d :: body) := by
        cases body <;> rw [splitRadix, if_neg hzero]
      refine ⟨[], by rw [hsplit]; rfl, ?_⟩
      simp only [parseRadix, if_neg hzero, pure_result, hsplit, List.length_nil, Nat.add_zero]

end Loop

/-- A zero before the digits does not count. -/
theorem digitsValue_replicate_zero (base zeros : Nat) (digits : List Nat) :
    digitsValue base (List.replicate zeros 0 ++ digits) 0 = digitsValue base digits 0 := by
  induction zeros with
  | zero => rfl
  | succ zeros ih =>
    rw [List.replicate_succ, List.cons_append, digitsValue, List.foldl_cons, Nat.zero_mul, Nat.add_zero]
    exact ih

theorem radixDigit_zero (isHex : Bool) : radixDigit isHex (unichar '0') = some 0 := by cases isHex <;> decide

theorem mapM_replicate_zero (isHex : Bool) (zeros : Nat) (text : List UInt16) :
    (List.replicate zeros (unichar '0') ++ text).mapM (radixDigit isHex) =
      (text.mapM (radixDigit isHex)).map (List.replicate zeros 0 ++ ·) := by
  induction zeros with
  | zero => cases h : text.mapM (radixDigit isHex) <;> simp [h]
  | succ zeros ih =>
    rw [List.replicate_succ, List.cons_append, List.mapM_cons, radixDigit_zero, ih]
    cases text.mapM (radixDigit isHex) <;> rfl

theorem not_hexMark_of_digit {mark : UInt16} {digit : Nat} (h : radixDigit false mark = some digit) :
    isHexMark mark = false := by
  rw [isHexMark, Bool.or_eq_false_iff, decide_eq_false_iff_not, decide_eq_false_iff_not]
  have hx : radixDigit false (unichar 'x') = none ∧ radixDigit false (unichar 'X') = none := by decide
  constructor <;> rintro rfl
  · exact absurd (hx.1.symm.trans h) (Option.some_ne_none _).symm
  · exact absurd (hx.2.symm.trans h) (Option.some_ne_none _).symm

/-- The digits of a magnitude are what is left after `parseRadix`, if that is
something or a zero was passed over. -/
theorem magnitudeText_iff (body : List UInt16) (m : Nat) :
    MagnitudeText body m ↔ ((splitRadix body).2.1 = true ∨ (splitRadix body).2.2 ≠ []) ∧
      ∃ digits, (splitRadix body).2.2.mapM (radixDigit (splitRadix body).1) = some digits ∧
        digitsValue (radix (splitRadix body).1) digits 0 = m := by
  constructor
  · intro h
    cases h with
    | @decimal _ digits hne hdigits =>
      match body, hne with
      | [c], _ =>
        by_cases hc : c = unichar '0'
        · subst hc
          obtain rfl : [0] = digits := Option.some.inj ((by decide : some [0] = _).trans hdigits)
          exact ⟨.inl rfl, [], rfl, rfl⟩
        · simp only [splitRadix, if_neg hc]
          exact ⟨.inr (List.cons_ne_nil _ _), digits, hdigits, rfl⟩
      | c :: mark :: text, _ =>
        by_cases hc : c = unichar '0'
        · subst hc
          have hzero := mapM_replicate_zero false 1 (mark :: text)
          rw [List.replicate_one, List.singleton_append, hdigits, eq_comm, Option.map_eq_some_iff] at hzero
          obtain ⟨ds, hds, rfl⟩ := hzero
          have hmark : isHexMark mark = false := by
            rw [List.mapM_cons] at hds
            obtain ⟨digit, hdigit, -⟩ := Option.bind_eq_some_iff.mp hds
            exact not_hexMark_of_digit hdigit
          simp only [splitRadix, if_true, hmark, Bool.false_eq_true, if_false]
          exact ⟨.inl trivial, ds, hds, (digitsValue_replicate_zero 10 1 ds).symm⟩
        · simp only [splitRadix, if_neg hc]
          exact ⟨.inr (List.cons_ne_nil _ _), digits, hdigits, rfl⟩
    | @hexadecimal mark text digits hmark hne hdigits =>
      simp only [splitRadix, if_true, hmark]
      exact ⟨.inr hne, digits, hdigits, rfl⟩
  · rintro ⟨hany, digits, hdigits, rfl⟩
    match body with
    | [] => exact absurd hany (by simp [splitRadix])
    | [c] =>
      by_cases hc : c = unichar '0'
      · subst hc
        simp only [splitRadix, if_true] at hdigits ⊢
        obtain rfl : [] = digits := Option.some.inj hdigits
        have hone : MagnitudeText [unichar '0'] (digitsValue 10 [0] 0) := .decimal (List.cons_ne_nil _ _) (by decide)
        exact hone
      · simp only [splitRadix, if_neg hc] at hdigits ⊢
        exact .decimal (List.cons_ne_nil _ _) hdigits
    | c :: mark :: text =>
      by_cases hc : c = unichar '0'
      · subst hc
        cases hmark : isHexMark mark with
        | true =>
          simp only [splitRadix, if_true, hmark] at hany hdigits ⊢
          exact .hexadecimal hmark (hany.resolve_left Bool.false_ne_true) hdigits
        | false =>
          simp only [splitRadix, if_true, hmark, Bool.false_eq_true, if_false] at hdigits ⊢
          have hzero := mapM_replicate_zero false 1 (mark :: text)
          rw [hdigits] at hzero
          have hval := digitsValue_replicate_zero 10 1 digits
          change MagnitudeText _ (digitsValue 10 digits 0)
          rw [← hval]
          exact .decimal (List.cons_ne_nil _ _) hzero
      · simp only [splitRadix, if_neg hc] at hdigits ⊢
        exact .decimal (List.cons_ne_nil _ _) hdigits

/-- The same without the leading zeros. -/
theorem magnitudeText_iff_zeros {body digits : List UInt16} {zeros : Nat}
    (hsplit : (splitRadix body).2.2 = List.replicate zeros (unichar '0') ++ digits) (m : Nat) :
    MagnitudeText body m ↔ (((splitRadix body).2.1 || decide (zeros ≠ 0)) = true ∨ digits ≠ []) ∧
      ∃ ds, digits.mapM (radixDigit (splitRadix body).1) = some ds ∧ digitsValue (radix (splitRadix body).1) ds 0 = m := by
  have hany : (splitRadix body).2.2 ≠ [] ↔ zeros ≠ 0 ∨ digits ≠ [] := by
    rw [hsplit, ne_eq, List.append_eq_nil_iff, List.replicate_eq_nil_iff]
    tauto
  rw [magnitudeText_iff, hany, ← or_assoc, Bool.or_eq_true, decide_eq_true_eq, hsplit, mapM_replicate_zero]
  refine and_congr_right fun _ => ⟨?_, ?_⟩
  · rintro ⟨all, hall, hvalue⟩
    obtain ⟨ds, hds, rfl⟩ := Option.map_eq_some_iff.mp hall
    exact ⟨ds, hds, (digitsValue_replicate_zero _ zeros ds).symm.trans hvalue⟩
  · rintro ⟨ds, hds, hvalue⟩
    exact ⟨_, by rw [hds]; rfl, (digitsValue_replicate_zero _ zeros ds).trans hvalue⟩

section Parse

variable {input : Input} {p : ParseInfo}

/-- The rest of a text that goes on with a closing tag. -/
theorem rest_closeTag {body spaces tail : List UInt16} (hrest : input.rest p.curr = body ++ (closeTag .integer spaces ++ tail)) :
    ∃ c rest, body ++ unichar '<' :: ((closeTag .integer spaces).tail ++ tail) = c :: rest ∧
      input.rest p.curr = c :: rest := by
  have hopen : closeTag .integer spaces ++ tail = unichar '<' :: ((closeTag .integer spaces).tail ++ tail) := rfl
  rw [hopen] at hrest
  cases body with
  | nil => exact ⟨_, _, rfl, hrest⟩
  | cons d body => exact ⟨_, _, rfl, hrest⟩

/-- A magnitude within the limit gives its number, any other text an error. -/
theorem parseMagnitude_result (isNeg : Bool) {body spaces tail : List UInt16} (hbody : ∀ c ∈ body, c ≠ unichar '<')
    (hspaces : ∀ c ∈ spaces, isXMLSpace c = true)
    (hrest : input.rest p.curr = body ++ (closeTag .integer spaces ++ tail)) {c : UInt16} {rest : List UInt16}
    (hcons : body ++ unichar '<' :: ((closeTag .integer spaces).tail ++ tail) = c :: rest) :
    (∀ m, MagnitudeText body m → m ≤ magnitudeLimit isNeg → (parseMagnitude input isNeg c p).result =
      .ok (some (.primitive false (.number (makeInteger isNeg m))),
        { p with curr := p.curr + body.length + (closeTag .integer spaces).length })) ∧
    ((∀ m, MagnitudeText body m → magnitudeLimit isNeg < m) →
      ∃ p', (parseMagnitude input isNeg c p).result = .ok (none, p') ∧ p'.error ≠ none) := by
  have hrest' : input.rest p.curr = c :: rest := hrest.trans hcons
  obtain ⟨skipped, hskipped, hradix⟩ := parseRadix_result hcons hrest'
  -- the text after the radix
  have hafter : input.rest (p.curr + skipped.length) = (splitRadix body).2.2 ++ (closeTag .integer spaces ++ tail) := by
    refine Input.rest_add (hrest.trans ?_)
    exact (congrArg (· ++ (closeTag .integer spaces ++ tail)) hskipped).trans (List.append_assoc ..)
  obtain ⟨c₁, rest₁, hcons₁, hrest₁⟩ := rest_closeTag (p := { p with curr := p.curr + skipped.length }) hafter
  have hbody₁ : ∀ c ∈ (splitRadix body).2.2, c ≠ unichar '<' := fun c hc =>
    hbody c (by rw [hskipped]; exact List.mem_append_right _ hc)
  have hlen := congrArg List.length hafter
  rw [Input.length_rest, List.length_append] at hlen
  obtain ⟨zeros, digits, next, rest₂, hsplit, hcons₂, hnext, hloop⟩ := leadingZeros_result
    (p := { p with curr := p.curr + skipped.length }) (input.length - (p.curr + skipped.length) + 1) hbody₁ hcons₁ hrest₁
    (by omega) (splitRadix body).2.1
  have hmagnitude := magnitudeText_iff_zeros hsplit
  have hbodylen : p.curr + skipped.length + zeros + digits.length = p.curr + body.length := by
    have h₁ := congrArg List.length hskipped
    have h₂ := congrArg List.length hsplit
    simp only [List.length_append, List.length_replicate] at h₁ h₂
    omega
  -- the text after the leading zeros
  have hafter₂ : input.rest (p.curr + skipped.length + zeros) = digits ++ (closeTag .integer spaces ++ tail) := by
    have hzeros : input.rest (p.curr + skipped.length) =
        List.replicate zeros (unichar '0') ++ (digits ++ (closeTag .integer spaces ++ tail)) := by
      rw [hafter, hsplit, List.append_assoc]
    have hadd := Input.rest_add hzeros
    rwa [List.length_replicate] at hadd
  have hrun : (parseMagnitude input isNeg c p).result =
      ((if next = unichar '<' ∧ ((splitRadix body).2.1 || decide (zeros ≠ 0)) = true then
        closing input .integer (.primitive false (.number (.sint64 0)))
      else if next = unichar '<' then do
        setLineError input "Incomplete <integer> on line %d" []
        return none
      else do
        let value ← whileAdvancing input (digitStep input (splitRadix body).1 isNeg) (next, 0)
        value.elim (return none) fun value =>
          closing input .integer (.primitive false (.number (makeInteger isNeg value))) : Parse _)
        { p with curr := p.curr + skipped.length + zeros }).result := by
    simp only [parseMagnitude, result_bind, hradix, ok_bind,
      getCh_result (p := { p with curr := p.curr + skipped.length }) hrest₁, whileAdvancing_result, hloop]
    refine congrArg Outcome.result (congrFun (if_congr Iff.rfl rfl (if_congr Iff.rfl rfl ?_)) _)
    exact congrArg (Bind.bind _) (funext fun value => by cases value <;> rfl)
  rw [hrun]
  by_cases hend : digits = []
  · subst hend
    have hnext := hnext.mpr rfl
    by_cases hzero : ((splitRadix body).2.1 || decide (zeros ≠ 0)) = true
    · have hm : ∀ m, MagnitudeText body m ↔ 0 = m := by
        intro m
        rw [hmagnitude]
        refine ⟨?_, fun h => ⟨.inl hzero, [], rfl, h⟩⟩
        rintro ⟨-, ds, hds, hvalue⟩
        obtain rfl : [] = ds := Option.some.inj hds
        exact hvalue
      refine ⟨fun m hm' _ => ?_, fun h => absurd (h 0 ((hm 0).mpr rfl)) (Nat.not_lt_zero _)⟩
      obtain rfl := (hm m).mp hm'
      rw [if_pos ⟨hnext, hzero⟩, closing_result (p := { p with curr := p.curr + skipped.length + zeros }) hspaces hafter₂]
      have hnumber : makeInteger isNeg 0 = .sint64 0 := by cases isNeg <;> decide
      rw [hnumber, ← hbodylen]
      rfl
    · refine ⟨fun m hm => ?_, fun _ => ?_⟩
      · obtain ⟨hany, -⟩ := (hmagnitude m).mp hm
        exact absurd (hany.resolve_left hzero) (fun h => h rfl)
      · rw [if_neg (fun h => hzero h.2), if_pos hnext]
        simp only [result_bind, setLineError_result, ok_bind, pure_result]
        exact ⟨_, rfl, Option.some_ne_none _⟩
  · have hnext : next ≠ unichar '<' := fun h => hend (hnext.mp h)
    rw [if_neg (fun h => hnext h.1), if_neg hnext]
    have hdigits : ∀ c ∈ digits, c ≠ unichar '<' := fun c hc =>
      hbody₁ c (by rw [hsplit]; exact List.mem_append_right _ hc)
    have hlen₂ := congrArg List.length hafter₂
    rw [Input.length_rest, List.length_append] at hlen₂
    obtain ⟨hsome, hnone⟩ := integerLoop_result (p := { p with curr := p.curr + skipped.length + zeros })
      (splitRadix body).1 isNeg (input.length - (p.curr + skipped.length + zeros) + 1) digits _ hdigits hcons₂
      (hafter₂.trans hcons₂) (by omega) 0 (Nat.zero_le _)
    refine ⟨fun m hm hle => ?_, fun h => ?_⟩
    · obtain ⟨-, ds, hds, rfl⟩ := (hmagnitude m).mp hm
      have hclose : input.rest (p.curr + body.length) = closeTag .integer spaces ++ tail := by
        rw [← hbodylen]
        exact Input.rest_add hafter₂
      simp only [result_bind, whileAdvancing_result, hsome ds hds hle, ok_bind, hbodylen, Option.elim_some]
      exact closing_result (p := { p with curr := p.curr + body.length }) hspaces hclose _
    · obtain ⟨p', hp', herror⟩ := hnone fun ds hds => h _ ((hmagnitude _).mpr ⟨.inr hend, ds, hds, rfl⟩)
      refine ⟨p', ?_, herror⟩
      simp only [result_bind, whileAdvancing_result, hp', ok_bind, Option.elim_none, pure_result]

end Parse

/-! ## Spaces and the sign -/

theorem MagnitudeText.head {body : List UInt16} {m : Nat} (h : MagnitudeText body m) :
    ∃ c rest, body = c :: rest ∧ isDigit c = true := by
  cases h with
  | @decimal _ digits hne hdigits =>
    match body, hne with
    | c :: rest, _ =>
      rw [List.mapM_cons] at hdigits
      obtain ⟨digit, hdigit, -⟩ := Option.bind_eq_some_iff.mp hdigits
      refine ⟨c, rest, rfl, ?_⟩
      rw [radixDigit] at hdigit
      split at hdigit
      · rename_i hc
        exact hc.resolve_left Bool.false_ne_true
      · cases hdigit
  | hexadecimal => exact ⟨_, _, rfl, by decide⟩

/-- A digit is neither space nor a sign. -/
theorem digit_ne {c : UInt16} (h : isDigit c = true) :
    cfIsWhitespace c = false ∧ c ≠ unichar '-' ∧ c ≠ unichar '+' := by
  rw [isDigit, Bool.and_eq_true, decide_eq_true_eq, decide_eq_true_eq, UInt16.le_iff_toNat_le,
    UInt16.le_iff_toNat_le] at h
  have hzero : (unichar '0').toNat = 48 := by decide
  have hnine : (unichar '9').toNat = 57 := by decide
  refine ⟨?_, ?_, ?_⟩
  · rw [cfIsWhitespace]
    simp only [Bool.or_eq_false_iff, Bool.and_eq_false_iff, decide_eq_false_iff_not, UInt16.lt_iff_toNat_lt,
      UInt16.le_iff_toNat_le, ← UInt16.toNat_inj]
    simp only [UInt16.reduceToNat]
    omega
  · rintro rfl
    exact absurd h (by decide)
  · rintro rfl
    exact absurd h (by decide)

theorem dropWhile_spaces {spaces rest : List UInt16} {c : UInt16} (hspaces : ∀ c ∈ spaces, cfIsWhitespace c = true)
    (hc : cfIsWhitespace c = false) : (spaces ++ c :: rest).dropWhile cfIsWhitespace = c :: rest := by
  rw [List.dropWhile_append_of_pos hspaces, List.dropWhile_cons_of_neg (by simp [hc])]

theorem MagnitudeText.dropWhile {body spaces : List UInt16} {m : Nat} (h : MagnitudeText body m)
    (hspaces : ∀ c ∈ spaces, cfIsWhitespace c = true) : (spaces ++ body).dropWhile cfIsWhitespace = body := by
  obtain ⟨c, rest, rfl, hdigit⟩ := h.head
  exact dropWhile_spaces hspaces (digit_ne hdigit).1

/-- The integers of a text, after its first spaces. -/
theorem integerText_iff (text : List UInt16) (v : Int) :
    IntegerText text v ↔ ∃ c rest, text.dropWhile cfIsWhitespace = c :: rest ∧ ∃ m : Nat,
      if c = unichar '-' then MagnitudeText (rest.dropWhile cfIsWhitespace) m ∧ v = -m
      else if c = unichar '+' then MagnitudeText (rest.dropWhile cfIsWhitespace) m ∧ v = m
      else MagnitudeText (c :: rest) m ∧ v = m := by
  have hspaces : ∀ text : List UInt16, ∀ c ∈ text.takeWhile cfIsWhitespace, cfIsWhitespace c = true :=
    fun text => List.all_eq_true.mp List.all_takeWhile
  constructor
  · intro h
    cases h with
    | @unsigned spaces body m hsp hbody =>
      obtain ⟨c, rest, rfl, hdigit⟩ := hbody.head
      obtain ⟨hspace, hminus, hplus⟩ := digit_ne hdigit
      exact ⟨c, rest, dropWhile_spaces hsp hspace, m, by rw [if_neg hminus, if_neg hplus]; exact ⟨hbody, rfl⟩⟩
    | @plus spaces spaces' body m hsp hsp' hbody =>
      refine ⟨_, _, dropWhile_spaces hsp (by decide), m, ?_⟩
      rw [if_neg (by decide), if_pos rfl, hbody.dropWhile hsp']
      exact ⟨hbody, rfl⟩
    | @minus spaces spaces' body m hsp hsp' hbody =>
      refine ⟨_, _, dropWhile_spaces hsp (by decide), m, ?_⟩
      rw [if_pos rfl, hbody.dropWhile hsp']
      exact ⟨hbody, rfl⟩
  · rintro ⟨c, rest, hdrop, m, h⟩
    have htext := (List.takeWhile_append_dropWhile (p := cfIsWhitespace) (l := text)).symm
    have hrest := (List.takeWhile_append_dropWhile (p := cfIsWhitespace) (l := rest)).symm
    rw [hdrop] at htext
    split at h
    · rename_i hc
      obtain ⟨hm, rfl⟩ := h
      rw [htext, hc, hrest]
      exact .minus (hspaces text) (hspaces rest) hm
    · split at h
      · rename_i hc
        obtain ⟨hm, rfl⟩ := h
        rw [htext, hc, hrest]
        exact .plus (hspaces text) (hspaces rest) hm
      · obtain ⟨hm, rfl⟩ := h
        rw [htext]
        exact .unsigned (hspaces text) hm

/-- `skipUnits` over the spaces of a text that ends in `<`. -/
theorem skipSpaces_result {input : Input} {p : ParseInfo} {text tail : List UInt16}
    (hrest : input.rest p.curr = text ++ unichar '<' :: tail) :
    (skipUnits input cfIsWhitespace p).result =
      .ok ((), { p with curr := p.curr + (text.takeWhile cfIsWhitespace).length }) ∧
    input.rest (p.curr + (text.takeWhile cfIsWhitespace).length) =
      text.dropWhile cfIsWhitespace ++ unichar '<' :: tail := by
  have hsplit := (List.takeWhile_append_dropWhile (p := cfIsWhitespace) (l := text)).symm
  have htake : (text ++ unichar '<' :: tail).takeWhile cfIsWhitespace = text.takeWhile cfIsWhitespace := by
    rw [List.takeWhile_append]
    split
    · rename_i hall
      rw [List.takeWhile_cons_of_neg (by decide), List.append_nil]
      exact (List.takeWhile_prefix _).eq_of_length hall |>.symm
    · rfl
  refine ⟨by rw [skipUnits_result, hrest, htake], Input.rest_add (hrest.trans ?_)⟩
  rw [← List.append_assoc, ← hsplit]

/-! ## The element -/

/-- The value of an integer number. -/
def integerValue : CFNumber → Option Int
  | .sint64 value => some value.toInt
  | .sint128 low => some low.toNat
  | _ => none

theorem makeInteger_value {isNeg : Bool} {m : Nat} (h : m ≤ magnitudeLimit isNeg) :
    integerValue (makeInteger isNeg m) = some (if isNeg then -(m : Int) else m) := by
  rw [magnitudeLimit] at h
  rw [makeInteger]
  split
  · rename_i hsmall
    have hmin : -2 ^ 63 ≤ (if isNeg = true then -(m : Int) else m) := by
      split
      · rw [if_pos (by assumption)] at h
        omega
      · omega
    have hmax : (if isNeg = true then -(m : Int) else m) < 2 ^ 63 := by
      split
      · omega
      · have := hsmall.resolve_left (by assumption)
        omega
    rw [integerValue, Int64.toInt_ofInt_of_le hmin hmax]
  · rename_i hbig
    rw [not_or] at hbig
    rw [integerValue, if_neg hbig.1, UInt64.toNat_ofNat', Nat.mod_eq_of_lt]
    rw [if_neg hbig.1] at h
    omega

/-- How the text of an `<integer>` element should be read. -/
structure ReadsInteger (input : Input) (p : ParseInfo) (text spaces : List UInt16) : Prop where
  number : ∀ v, IntegerText text v → -2 ^ 63 ≤ v → v < 2 ^ 64 → ∃ number, integerValue number = some v ∧
    (parseIntegerTag input p).result = .ok (some (.primitive false (.number number)),
      { p with curr := p.curr + text.length + (closeTag .integer spaces).length })
  error : (∀ v, IntegerText text v → ¬(-2 ^ 63 ≤ v ∧ v < 2 ^ 64)) →
    ∃ p', (parseIntegerTag input p).result = .ok (none, p') ∧ p'.error ≠ none

section Element

variable {input : Input} {p : ParseInfo} {text spaces tail : List UInt16}

/-- It is enough that the parser comes to the magnitude, with the right
sign. -/
theorem ReadsInteger.of_magnitude (isNeg : Bool) (before : List UInt16) {body : List UInt16} {c : UInt16} {rest : List UInt16}
    (htext : ∀ c ∈ text, c ≠ unichar '<') (hspaces : ∀ c ∈ spaces, isXMLSpace c = true)
    (hrest : input.rest p.curr = text ++ (closeTag .integer spaces ++ tail)) (hsplit : text = before ++ body)
    (hcons : body ++ unichar '<' :: ((closeTag .integer spaces).tail ++ tail) = c :: rest)
    (hrun : (parseIntegerTag input p).result =
      (parseMagnitude input isNeg c { p with curr := p.curr + before.length }).result)
    (hvalue : ∀ v, IntegerText text v ↔ ∃ m, MagnitudeText body m ∧ v = if isNeg then -(m : Int) else m) :
    ReadsInteger input p text spaces := by
  have hbody : ∀ c ∈ body, c ≠ unichar '<' := fun c hc => htext c (by rw [hsplit]; exact List.mem_append_right _ hc)
  have hafter : input.rest (p.curr + before.length) = body ++ (closeTag .integer spaces ++ tail) := by
    refine Input.rest_add (hrest.trans ?_)
    rw [hsplit, List.append_assoc]
  have hcurr : p.curr + before.length + body.length = p.curr + text.length := by
    rw [hsplit, List.length_append, Nat.add_assoc]
  have hlimit : ∀ m : Nat, m ≤ magnitudeLimit isNeg ↔
      -2 ^ 63 ≤ (if isNeg then -(m : Int) else m) ∧ (if isNeg then -(m : Int) else m) < 2 ^ 64 := by
    intro m
    rw [magnitudeLimit]
    split <;> omega
  obtain ⟨hsome, hnone⟩ := parseMagnitude_result (p := { p with curr := p.curr + before.length }) isNeg hbody
    hspaces hafter hcons
  refine ⟨fun v hv hmin hmax => ?_, fun h => ?_⟩
  · obtain ⟨m, hm, rfl⟩ := (hvalue v).mp hv
    have hle := (hlimit m).mpr ⟨hmin, hmax⟩
    refine ⟨makeInteger isNeg m, makeInteger_value hle, ?_⟩
    rw [hrun, hsome m hm hle, hcurr]
  · rw [hrun]
    refine hnone fun m hm => Nat.lt_of_not_le fun hle => ?_
    exact h _ ((hvalue _).mpr ⟨m, hm, rfl⟩) ((hlimit m).mp hle)

/-- The text of an `<integer>` element is read as the integer it denotes, if
that is at least `-2 ^ 63` and less than `2 ^ 64`, and is an error otherwise. -/
theorem parseIntegerTag_reads (htext : ∀ c ∈ text, c ≠ unichar '<') (hspaces : ∀ c ∈ spaces, isXMLSpace c = true)
    (hrest : input.rest p.curr = text ++ (closeTag .integer spaces ++ tail)) :
    ReadsInteger input p text spaces := by
  have hopen : input.rest p.curr = text ++ unichar '<' :: ((closeTag .integer spaces).tail ++ tail) := hrest
  obtain ⟨hskip, hafter⟩ := skipSpaces_result hopen
  have hsplit := (List.takeWhile_append_dropWhile (p := cfIsWhitespace) (l := text)).symm
  obtain ⟨before, hbefore⟩ : ∃ before, before = text.takeWhile cfIsWhitespace := ⟨_, rfl⟩
  rw [← hbefore] at hskip hafter hsplit
  have hvalue := integerText_iff text
  cases hdrop : text.dropWhile cfIsWhitespace with
  | nil =>
    rw [hdrop] at hafter hvalue
    refine ⟨fun v hv => ?_, fun _ => ?_⟩
    · obtain ⟨c, rest, h, -⟩ := (hvalue v).mp hv
      cases h
    · have hch := getCh_result (p := { p with curr := p.curr + before.length }) hafter
      simp only [parseIntegerTag, result_bind, hskip, ok_bind, hch, if_true, setLineError_result, pure_result]
      exact ⟨_, rfl, Option.some_ne_none _⟩
  | cons c rest =>
    rw [hdrop] at hafter hvalue hsplit
    have hc : c ≠ unichar '<' := htext c (by rw [hsplit]; simp)
    have hch := getCh_result (p := { p with curr := p.curr + before.length }) hafter
    by_cases hsign : c = unichar '-' ∨ c = unichar '+'
    · obtain ⟨hskip', hafter'⟩ := skipSpaces_result (p := { p with curr := p.curr + before.length + 1 })
        (Input.rest_succ hafter)
      have hsplit' := (List.takeWhile_append_dropWhile (p := cfIsWhitespace) (l := rest)).symm
      obtain ⟨c', rest', hcons, hrest'⟩ := rest_closeTag
        (p := { p with curr := p.curr + before.length + 1 + (rest.takeWhile cfIsWhitespace).length }) hafter'
      refine .of_magnitude (decide (c = unichar '-')) (before ++ c :: rest.takeWhile cfIsWhitespace)
        htext hspaces hrest (by rw [hsplit, List.append_assoc, List.cons_append, ← hsplit']) hcons ?_ fun v => ?_
      · have hch' := getCh_result
          (p := { p with curr := p.curr + before.length + 1 + (rest.takeWhile cfIsWhitespace).length }) hrest'
        have hcurr : p.curr + before.length + 1 + (rest.takeWhile cfIsWhitespace).length =
            p.curr + (before ++ c :: rest.takeWhile cfIsWhitespace).length := by
          rw [List.length_append, List.length_cons]
          omega
        rw [← hcurr]
        simp only [parseIntegerTag, result_bind, hskip, ok_bind, hch, if_neg hc, if_pos hsign, advance_result, hskip',
          hch']
      · rw [hvalue]
        constructor
        · rintro ⟨d, r, heq, m, h⟩
          obtain ⟨rfl, rfl⟩ := List.cons.inj heq
          refine ⟨m, ?_⟩
          rcases hsign with rfl | rfl
          · simpa using h
          · simpa +decide using h
        · rintro ⟨m, h⟩
          refine ⟨c, rest, rfl, m, ?_⟩
          rcases hsign with rfl | rfl
          · simpa using h
          · simpa +decide using h
    · refine .of_magnitude false before (c := c) htext hspaces hrest hsplit rfl ?_ fun v => ?_
      · have hminus : decide (c = unichar '-') = false := decide_eq_false fun h => hsign (.inl h)
        simp only [parseIntegerTag, result_bind, hskip, ok_bind, hch, if_neg hc, if_neg hsign, hminus]
      · rw [hvalue]
        rw [not_or] at hsign
        constructor
        · rintro ⟨d, r, heq, m, h⟩
          obtain ⟨rfl, rfl⟩ := List.cons.inj heq
          rw [if_neg hsign.1, if_neg hsign.2] at h
          exact ⟨m, h⟩
        · rintro ⟨m, h⟩
          exact ⟨c, rest, rfl, m, by rw [if_neg hsign.1, if_neg hsign.2]; exact h⟩

end Element

/-- The most negative integer. -/
theorem parseIntegerTag_reads_min : ReadsInteger (plainInput (" - 0x8000000000000000</integer>".toList.map unichar))
    ⟨0, none⟩ (" - 0x8000000000000000".toList.map unichar) [] :=
  parseIntegerTag_reads (forall_mem_of_all (by decide)) (forall_mem_of_all (by decide)) rfl

end CFLite.TextPlist
