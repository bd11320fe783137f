import Mathlib.Data.Nat.Digits.Defs
import CFLite.Date.DoubleTimes
import CFLite.Framework.Wp
import CFLite.TextPlist.Results

/-!
# Dates in XML

What `parseDateTag` accepts between its tags, the time it makes of it, and what
the writer prints for that time.

* `readDate_form`, `parseDateTag_eq_some`: texts of the form of a date are
  read, whatever their fields are, and only these are accepted;
* `parseDateTag_tables`: the entry of the table of months that is read;
* `printsBack_of_isDouble`: a time that is not too far away is printed as a
  text of the same time;
* `parseDateTag_dates`: all of it for valid dates.
-/

namespace CFLite.TextPlist

open CFLite.Framework Run

/-! ## The form of a date -/

/-- A digit as a character. -/
def digitUnit (n : Nat) : UInt16 := UInt16.ofNat ('0'.toNat + n)

def twoDigits (n : Nat) : List UInt16 := [digitUnit (n / 10), digitUnit (n % 10)]

/-- Fields of two digits, each with the character after it. -/
def fieldsText : List Char → List Nat → List UInt16
  | terminator :: terminators, n :: ns => twoDigits n ++ unichar terminator :: fieldsText terminators ns
  | _, _ => []

/-- The number of decimal digits. -/
def decimalValue (digits : List UInt16) : Int :=
  digits.foldl (fun year ch => 10 * year + (ch.toNat - '0'.toNat : Int)) 0

/-- `YYYY '-' MM '-' DD 'T' hh ':' mm ':' ss 'Z'` -/
structure DateForm where
  isNegative : Bool
  /-- The digits of the year, which may be missing after a minus sign. -/
  yearDigits : List UInt16
  month : Nat
  day : Nat
  hour : Nat
  minute : Nat
  second : Nat

namespace DateForm

def fields (form : DateForm) : List Nat := [form.month, form.day, form.hour, form.minute, form.second]

def text (form : DateForm) : List UInt16 :=
  (if form.isNegative then [unichar '-'] else []) ++ (form.yearDigits ++
    unichar '-' :: fieldsText ['-', 'T', ':', ':', 'Z'] form.fields)

structure IsForm (form : DateForm) : Prop where
  digits : ∀ c ∈ form.yearDigits, isDigit c = true
  notEmpty : form.isNegative = false → form.yearDigits ≠ []
  fields_lt : ∀ n ∈ form.fields, n < 100

/-- The year, if it is written with digits. -/
def year (form : DateForm) : Int :=
  if form.isNegative then -decimalValue form.yearDigits else decimalValue form.yearDigits

/-- The date that the fields are, with a year of an `int32_t`. -/
def date (form : DateForm) : Calendar.GregorianDate :=
  ⟨int32 form.year, form.month, form.day, form.hour, form.minute, form.second⟩

end DateForm

/-! ## Digits -/

theorem digitUnit_toNat {n : Nat} (hn : n < 10) : (digitUnit n).toNat = 48 + n := by
  rw [digitUnit, UInt16.toNat_ofNat']
  have hzero : '0'.toNat = 48 := rfl
  omega

theorem isDigit_iff {c : UInt16} : isDigit c = true ↔ 48 ≤ c.toNat ∧ c.toNat ≤ 57 := by
  rw [isDigit, Bool.and_eq_true, decide_eq_true_eq, decide_eq_true_eq, UInt16.le_iff_toNat_le, UInt16.le_iff_toNat_le]
  rfl

theorem isDigit_digitUnit {n : Nat} (hn : n < 10) : isDigit (digitUnit n) = true := by
  rw [isDigit_iff, digitUnit_toNat hn]
  omega

/-- A digit is the character of its number. -/
theorem eq_digitUnit {c : UInt16} (hc : isDigit c = true) : c = digitUnit (c.toNat - 48) := by
  obtain ⟨hlow, hhigh⟩ := isDigit_iff.mp hc
  rw [← UInt16.toNat_inj, digitUnit_toNat (by omega)]
  omega

theorem length_twoDigits (n : Nat) : (twoDigits n).length = 2 := rfl

theorem int32_congr {m n : Int} (h : m % 2 ^ 32 = n % 2 ^ 32) : int32 m = int32 n := by
  rw [int32, int32, Int.bmod_def, Int.bmod_def]
  have h' : m % ((2 ^ 32 : ℕ) : ℤ) = n % ((2 ^ 32 : ℕ) : ℤ) := by exact_mod_cast h
  rw [h']

theorem int32_mod (n : Int) : int32 n % 2 ^ 32 = n % 2 ^ 32 := by
  have h := Int.bmod_emod (x := n) (m := 2 ^ 32)
  rw [int32]
  exact_mod_cast h

/-! ## Reading fields -/

section Reading

variable {input : Input} {p : ParseInfo}

theorem Input.rest_eq_cons {i : Nat} (h : i < input.length) : input.rest i = input.unit i :: input.rest (i + 1) := by
  have hlt : i < input.text.length := h
  have hget : input.unit i = input.text[i] := by
    rw [Input.unit, List.getD_eq_getElem?_getD, List.getElem?_eq_getElem hlt, Option.getD_some]
  rw [hget]
  exact List.drop_eq_getElem_cons hlt

theorem read2DigitNumber_digits {n : Nat} (hn : n < 100) {c : UInt16} {tail : List UInt16}
    (hrest : input.rest p.curr = twoDigits n ++ c :: tail) :
    (read2DigitNumber input p).result = .ok (some (n : Int), { p with curr := p.curr + 2 }) := by
  have hlen := congrArg List.length hrest
  rw [Input.length_rest, List.length_append, length_twoDigits, List.length_cons] at hlen
  have hfirst := isDigit_digitUnit (n := n / 10) (by omega)
  have hsecond := isDigit_digitUnit (n := n % 10) (by omega)
  rw [twoDigits] at hrest
  have hnext := Input.rest_succ hrest
  have hvalue : (((digitUnit (n / 10)).toNat : Int) - ('0'.toNat : Int)) * 10 +
      (((digitUnit (n % 10)).toNat : Int) - ('0'.toNat : Int)) = n := by
    rw [digitUnit_toNat (by omega), digitUnit_toNat (by omega), show '0'.toNat = 48 from rfl]
    omega
  rw [read2DigitNumber]
  simp only [result_bind, currentIndex_result, ok_bind]
  rw [if_neg (by omega)]
  simp only [result_bind, deref_result, ok_bind, Input.unit_eq hrest, Input.unit_eq hnext, advance_result, hfirst,
    hsecond, and_self, if_true, pure_result, hvalue]

theorem read2DigitNumber_eq_some {field : Int} {p' : ParseInfo}
    (h : (read2DigitNumber input p).result = .ok (some field, p')) :
    ∃ n : Nat, n < 100 ∧ field = n ∧ p' = { p with curr := p.curr + 2 } ∧
      input.rest p.curr = twoDigits n ++ input.rest (p.curr + 2) := by
  rw [read2DigitNumber] at h
  simp only [result_bind, currentIndex_result, ok_bind] at h
  split_ifs at h with hlen
  · simp at h
  · simp only [result_bind, deref_result, ok_bind, advance_result] at h
    split_ifs at h with hdigits
    · simp only [pure_result, Except.ok.injEq, Prod.mk.injEq, Option.some.injEq] at h
      obtain ⟨hfield, hp'⟩ := h
      obtain ⟨hfirst, hsecond⟩ := hdigits
      obtain ⟨hlow, hhigh⟩ := isDigit_iff.mp hfirst
      obtain ⟨hlow', hhigh'⟩ := isDigit_iff.mp hsecond
      have hfirst' := eq_digitUnit hfirst
      have hsecond' := eq_digitUnit hsecond
      refine ⟨((input.unit p.curr).toNat - 48) * 10 + ((input.unit (p.curr + 1)).toNat - 48), by omega, ?_, hp'.symm, ?_⟩
      · rw [← hfield, show '0'.toNat = 48 from rfl]
        push_cast
        omega
      · rw [Input.rest_eq_cons (by omega), Input.rest_eq_cons (i := p.curr + 1) (by omega), twoDigits]
        rw [show (((input.unit p.curr).toNat - 48) * 10 + ((input.unit (p.curr + 1)).toNat - 48)) / 10 =
          (input.unit p.curr).toNat - 48 by omega, ← hfirst',
          show (((input.unit p.curr).toNat - 48) * 10 + ((input.unit (p.curr + 1)).toNat - 48)) % 10 =
          (input.unit (p.curr + 1)).toNat - 48 by omega, ← hsecond']
        rfl
    · simp at h

theorem readFields_fieldsText {ts : List Char} {ns : List Nat} (hlen : ns.length = ts.length) (hns : ∀ n ∈ ns, n < 100)
    {tail : List UInt16} (hrest : input.rest p.curr = fieldsText ts ns ++ tail) :
    (readFields input ts p).result =
      .ok (some (ns.map Int.ofNat), { p with curr := p.curr + (fieldsText ts ns).length }) := by
  induction ts generalizing ns p with
  | nil =>
    rw [List.length_nil, List.length_eq_zero_iff] at hlen
    subst hlen
    rfl
  | cons t ts ih =>
    obtain _ | ⟨n, ns⟩ := ns
    · cases hlen
    rw [List.forall_mem_cons] at hns
    rw [fieldsText, List.append_assoc, List.cons_append] at hrest
    have hread := read2DigitNumber_digits hns.1 hrest
    have hterminator : input.rest (p.curr + 2) = unichar t :: (fieldsText ts ns ++ tail) := Input.rest_add hrest
    have hfields := ih (p := { p with curr := p.curr + 2 + 1 }) (Nat.succ.inj hlen) hns.2 (Input.rest_succ hterminator)
    simp only [readFields, result_bind, hread, ok_bind, currentIndex_result, if_pos (Input.lt_length hterminator),
      deref_result, Input.unit_eq hterminator, if_true, advance_result, hfields, pure_result]
    rw [fieldsText, List.length_append, length_twoDigits, List.length_cons]
    congr 3
    omega

theorem readFields_eq_some {ts : List Char} {fields : List Int} {p' : ParseInfo}
    (h : (readFields input ts p).result = .ok (some fields, p')) :
    ∃ ns : List Nat, ns.length = ts.length ∧ (∀ n ∈ ns, n < 100) ∧ fields = ns.map Int.ofNat ∧
      p' = { p with curr := p.curr + (fieldsText ts ns).length } ∧
      input.rest p.curr = fieldsText ts ns ++ input.rest p'.curr := by
  induction ts generalizing p fields p' with
  | nil =>
    simp only [readFields, pure_result, Except.ok.injEq, Prod.mk.injEq, Option.some.injEq] at h
    obtain ⟨rfl, rfl⟩ := h
    exact ⟨[], rfl, nofun, rfl, rfl, rfl⟩
  | cons t ts ih =>
    rw [readFields, result_bind] at h
    cases hread : (read2DigitNumber input p).result with
    | error e => rw [hread] at h; cases h
    | ok q =>
      obtain ⟨field | field, p₁⟩ := q
      · rw [hread] at h
        simp [ok_bind] at h
      obtain ⟨n, hn, rfl, rfl, hdigits⟩ := read2DigitNumber_eq_some hread
      simp only [hread, ok_bind, result_bind, currentIndex_result] at h
      split_ifs at h with hlt
      · simp only [result_bind, deref_result, ok_bind] at h
        split_ifs at h with hterminator
        · simp only [result_bind, advance_result, ok_bind] at h
          cases hfields : (readFields input ts { p with curr := p.curr + 2 + 1 }).result with
          | error e => rw [hfields] at h; cases h
          | ok q =>
            obtain ⟨rest | rest, p₂⟩ := q
            · rw [hfields] at h
              simp [ok_bind] at h
            obtain ⟨ns, hlen, hns, rfl, rfl, hrest⟩ := ih hfields
            rw [hfields] at h
            simp only [ok_bind, pure_result, Option.map_some, Except.ok.injEq, Prod.mk.injEq, Option.some.injEq] at h
            obtain ⟨rfl, rfl⟩ := h
            have hcurr : p.curr + (fieldsText (t :: ts) (n :: ns)).length =
                p.curr + 2 + 1 + (fieldsText ts ns).length := by
              rw [fieldsText, List.length_append, length_twoDigits, List.length_cons]
              omega
            refine ⟨n :: ns, congrArg (· + 1) hlen, ?_, rfl, by rw [hcurr], ?_⟩
            · rw [List.forall_mem_cons]
              exact ⟨hn, hns⟩
            · rw [hdigits, Input.rest_eq_cons hlt, hterminator, hrest, fieldsText, List.append_assoc, List.cons_append]
        · simp at h
      · simp at h

/-! ## The year -/

/-- The loop over the digits of the year. -/
theorem readYear_loop (n : Nat) (year : Int) (hn : (input.rest p.curr).length < n) :
    (Run.loop (fun year => do
      let curr ← currentIndex
      if curr < input.length then
        let ch ← deref input curr
        if isDigit ch then
          advance 1
          return .inl (int32 (10 * year + (ch.toNat - '0'.toNat : Int)))
        else return .inr year
      else return .inr year : Int → Parse (Int ⊕ Int)) n (int32 year) p).result =
      .ok (int32 (((input.rest p.curr).takeWhile isDigit).foldl
          (fun year ch => 10 * year + (ch.toNat - '0'.toNat : Int)) year),
        { p with curr := p.curr + ((input.rest p.curr).takeWhile isDigit).length }) := by
  induction n generalizing year p with
  | zero => omega
  | succ n ih =>
    rw [loop_result]
    by_cases hlt : p.curr < input.length
    · have hrest := Input.rest_eq_cons hlt
      rw [hrest, List.takeWhile_cons]
      cases hdigit : isDigit (input.unit p.curr) with
      | true =>
        have hstep : int32 (10 * int32 year + ((input.unit p.curr).toNat - '0'.toNat : Int)) =
            int32 (10 * year + ((input.unit p.curr).toNat - '0'.toNat : Int)) := by
          refine int32_congr ?_
          have hmod := int32_mod year
          omega
        rw [hrest, List.length_cons] at hn
        have hnext := ih (p := { p with curr := p.curr + 1 })
          (10 * year + ((input.unit p.curr).toNat - '0'.toNat : Int)) (show (input.rest (p.curr + 1)).length < n by omega)
        simp only [result_bind, currentIndex_result, ok_bind, if_pos hlt, deref_result, hdigit, if_true, advance_result,
          pure_result, hstep, hnext, List.foldl_cons, List.length_cons]
        rw [Nat.add_assoc, Nat.add_comm 1]
      | false =>
        simp only [result_bind, currentIndex_result, ok_bind, if_pos hlt, deref_result, hdigit, Bool.false_eq_true,
          if_false, pure_result, List.foldl_nil, List.length_nil, Nat.add_zero]
    · have hnil : input.rest p.curr = [] := by
        rw [← List.length_eq_zero_iff, Input.length_rest]
        omega
      simp only [result_bind, currentIndex_result, ok_bind, if_neg hlt, pure_result, hnil, List.takeWhile_nil,
        List.foldl_nil, List.length_nil, Nat.add_zero]

theorem readYear_result : (readYear input p).result =
    .ok (int32 (decimalValue ((input.rest p.curr).takeWhile isDigit)),
      { p with curr := p.curr + ((input.rest p.curr).takeWhile isDigit).length }) := by
  rw [readYear, whileAdvancing_result]
  refine readYear_loop _ 0 ?_
  rw [Input.length_rest]
  omega

/-! ## Dates -/

theorem followedBy_cons_result {c : UInt16} (i : Nat) :
    (followedBy input i [c] p).result = .ok (input.unit i = c, p) := by
  simp only [followedBy, result_bind, deref_result, ok_bind]
  split_ifs with h
  · simp [h]
  · simp [h]

/-- The part of `readDate` after the sign. -/
def readUnsigned (input : Input) (yearIsNegative : Bool) : Parse (Option Calendar.GregorianDate) := do
  let year ← readYear input
  let curr ← currentIndex
  if curr < input.length then
    if (← deref input curr) = unichar '-' then
      advance 1
      match ← readFields input ['-', 'T', ':', ':', 'Z'] with
      | some [month, day, hour, minute, second] =>
        return some ⟨if yearIsNegative then int32 (-year) else year, month, day, hour, minute, second⟩
      | _ => return none
    else return none
  else return none

theorem readDate_eq (input : Input) :
    readDate input = (do
      let curr ← currentIndex
      let yearIsNegative ← if curr < input.length then followedBy input curr [unichar '-'] else pure false
      if yearIsNegative then advance 1
      readUnsigned input yearIsNegative) := rfl

theorem readUnsigned_form {form : DateForm} (hform : form.IsForm) {tail : List UInt16}
    (hrest : input.rest p.curr =
      form.yearDigits ++ unichar '-' :: (fieldsText ['-', 'T', ':', ':', 'Z'] form.fields ++ tail)) :
    (readUnsigned input form.isNegative p).result = .ok (some form.date,
      { p with curr := p.curr + form.yearDigits.length + 1 +
        (fieldsText ['-', 'T', ':', ':', 'Z'] form.fields).length }) := by
  have hdigits : (input.rest p.curr).takeWhile isDigit = form.yearDigits := by
    rw [hrest, List.takeWhile_append_of_pos hform.digits, List.takeWhile_cons_of_neg (by decide), List.append_nil]
  have hdash := Input.rest_add hrest
  have hfields := readFields_fieldsText (p := { p with curr := p.curr + form.yearDigits.length + 1 })
    rfl hform.fields_lt (Input.rest_succ hdash)
  have hyear : (if form.isNegative = true then int32 (-int32 (decimalValue form.yearDigits))
      else int32 (decimalValue form.yearDigits)) = int32 form.year := by
    rw [DateForm.year]
    split_ifs
    · refine int32_congr ?_
      have hmod := int32_mod (decimalValue form.yearDigits)
      omega
    · rfl
  simp only [readUnsigned, result_bind, readYear_result, hdigits, ok_bind, currentIndex_result,
    if_pos (Input.lt_length hdash), deref_result, Input.unit_eq hdash, if_true, advance_result, hfields,
    DateForm.fields, List.map_cons, List.map_nil, pure_result, hyear]
  rfl

/-- A date of the right form is read, whatever its fields are. -/
theorem readDate_form {form : DateForm} (hform : form.IsForm) {tail : List UInt16}
    (hrest : input.rest p.curr = form.text ++ tail) :
    (readDate input p).result = .ok (some form.date, { p with curr := p.curr + form.text.length }) := by
  rw [readDate_eq]
  cases hsign : form.isNegative with
  | true =>
    simp only [DateForm.text, hsign, if_true, List.append_assoc, List.cons_append] at hrest
    have hunsigned := readUnsigned_form (p := { p with curr := p.curr + 1 }) hform (Input.rest_succ hrest)
    rw [hsign] at hunsigned
    simp only [result_bind, currentIndex_result, ok_bind, if_pos (Input.lt_length hrest), followedBy_cons_result,
      Input.unit_eq hrest, decide_true, if_true, advance_result, hunsigned]
    congr 3
    simp only [DateForm.text, hsign, if_true, List.length_append, List.length_cons, List.length_nil]
    omega
  | false =>
    obtain ⟨c, digits, hdigits⟩ := List.exists_cons_of_ne_nil (hform.notEmpty hsign)
    have hdigit := hform.digits c (by rw [hdigits]; exact List.mem_cons_self)
    have hne : c ≠ unichar '-' := by
      rintro rfl
      exact absurd hdigit (by decide)
    simp only [DateForm.text, hsign, Bool.false_eq_true, if_false, List.nil_append, List.append_assoc,
      List.cons_append] at hrest
    have hunsigned := readUnsigned_form hform hrest
    rw [hsign] at hunsigned
    rw [hdigits, List.cons_append] at hrest
    simp only [result_bind, currentIndex_result, ok_bind, if_pos (Input.lt_length hrest), followedBy_cons_result,
      Input.unit_eq hrest, hne, decide_false, Bool.false_eq_true, if_false, hunsigned]
    congr 3
    simp only [DateForm.text, hsign, Bool.false_eq_true, if_false, List.nil_append, List.length_append,
      List.length_cons]
    omega

theorem readUnsigned_eq_some {yearIsNegative : Bool} {date : Calendar.GregorianDate} {p' : ParseInfo}
    (h : (readUnsigned input yearIsNegative p).result = .ok (some date, p')) :
    ∃ form : DateForm, form.isNegative = yearIsNegative ∧ form.yearDigits = (input.rest p.curr).takeWhile isDigit ∧
      (∀ n ∈ form.fields, n < 100) ∧
      input.rest p.curr = form.yearDigits ++ unichar '-' ::
        (fieldsText ['-', 'T', ':', ':', 'Z'] form.fields ++ input.rest p'.curr) := by
  simp only [readUnsigned, result_bind, readYear_result, ok_bind, currentIndex_result] at h
  generalize hdigits : (input.rest p.curr).takeWhile isDigit = digits at h ⊢
  have hsplit : input.rest p.curr = digits ++ input.rest (p.curr + digits.length) := by
    have happend := List.takeWhile_append_dropWhile (p := isDigit) (l := input.rest p.curr)
    rw [hdigits] at happend
    rw [Input.rest_add happend.symm, happend]
  by_cases hlt : p.curr + digits.length < input.length
  · simp only [if_pos hlt, result_bind, deref_result, ok_bind] at h
    by_cases hdash : input.unit (p.curr + digits.length) = unichar '-'
    · simp only [if_pos hdash, result_bind, advance_result, ok_bind] at h
      cases hfields : (readFields input ['-', 'T', ':', ':', 'Z'] { p with
          curr := p.curr + digits.length + 1 }).result with
      | error e => rw [hfields] at h; cases h
      | ok q =>
        obtain ⟨fields | fields, p₁⟩ := q
        · rw [hfields] at h
          simp [ok_bind] at h
        obtain ⟨ns, hlen, hns, rfl, -, hrest⟩ := readFields_eq_some hfields
        obtain ⟨month, day, hour, minute, second, rfl⟩ :
            ∃ month day hour minute second, ns = [month, day, hour, minute, second] := by
          match ns, hlen with
          | [month, day, hour, minute, second], _ => exact ⟨month, day, hour, minute, second, rfl⟩
        rw [hfields] at h
        simp only [ok_bind, List.map_cons, List.map_nil, pure_result, Except.ok.injEq, Prod.mk.injEq] at h
        obtain ⟨-, rfl⟩ := h
        refine ⟨⟨yearIsNegative, digits, month, day, hour, minute, second⟩, rfl, rfl, hns, ?_⟩
        rw [hsplit, Input.rest_eq_cons hlt, hdash, hrest]
        rfl
    · rw [if_neg hdash, pure_result] at h
      cases h
  · rw [if_neg hlt, pure_result] at h
    cases h

theorem readDate_eq_some {date : Calendar.GregorianDate} {p' : ParseInfo}
    (h : (readDate input p).result = .ok (some date, p')) :
    ∃ form : DateForm, form.IsForm ∧ input.rest p.curr = form.text ++ input.rest p'.curr := by
  rw [readDate_eq] at h
  simp only [result_bind, currentIndex_result, ok_bind] at h
  have hdigits : ∀ digits l : List UInt16, digits = l.takeWhile isDigit → ∀ c ∈ digits, isDigit c = true := by
    rintro _ l rfl
    exact List.all_eq_true.mp List.all_takeWhile
  by_cases hlt : p.curr < input.length
  · rw [if_pos hlt, result_bind, followedBy_cons_result, ok_bind] at h
    have hrest := Input.rest_eq_cons hlt
    by_cases hsign : input.unit p.curr = unichar '-'
    · simp only [hsign, decide_true, if_true, result_bind, advance_result, ok_bind] at h
      obtain ⟨form, hnegative, hyear, hfields, hform⟩ := readUnsigned_eq_some h
      refine ⟨form, ⟨hdigits _ _ hyear, fun hfalse => ?_, hfields⟩, ?_⟩
      · cases hnegative.symm.trans hfalse
      · rw [hrest, hsign, hform]
        simp only [DateForm.text, hnegative, if_true, List.append_assoc, List.cons_append, List.nil_append]
    · simp only [hsign, decide_false, Bool.false_eq_true, if_false] at h
      obtain ⟨form, hnegative, hyear, hfields, hform⟩ := readUnsigned_eq_some h
      refine ⟨form, ⟨hdigits _ _ hyear, fun _ hnil => ?_, hfields⟩, ?_⟩
      · rw [hnil, List.nil_append, hrest, List.cons.injEq] at hform
        exact hsign hform.1
      · rw [hform]
        simp only [DateForm.text, hnegative, Bool.false_eq_true, if_false, List.append_assoc, List.cons_append,
          List.nil_append]
  · rw [if_neg hlt] at h
    obtain ⟨form, -, -, -, hform⟩ := readUnsigned_eq_some (p := p) h
    have hlen := congrArg List.length hform
    rw [Input.length_rest, List.length_append, List.length_cons] at hlen
    omega

/-! ## The element -/

theorem fieldsText_ne_open {ts : List Char} (hts : ∀ t ∈ ts, unichar t ≠ unichar '<') {ns : List Nat}
    (hns : ∀ n ∈ ns, n < 100) : ∀ c ∈ fieldsText ts ns, c ≠ unichar '<' := by
  induction ts generalizing ns with
  | nil => exact nofun
  | cons t ts ih =>
    obtain _ | ⟨n, ns⟩ := ns
    · exact nofun
    rw [List.forall_mem_cons] at hts hns
    have hdigit : ∀ m < 10, digitUnit m ≠ unichar '<' := by decide
    rw [fieldsText, List.forall_mem_append, List.forall_mem_cons, twoDigits]
    refine ⟨?_, hts.1, ih hts.2 hns.2⟩
    simp only [List.forall_mem_cons]
    exact ⟨hdigit _ (by omega), hdigit _ (by omega), nofun⟩

theorem DateForm.IsForm.ne_open {form : DateForm} (h : form.IsForm) : ∀ c ∈ form.text, c ≠ unichar '<' := by
  have hfields : ∀ c ∈ fieldsText ['-', 'T', ':', ':', 'Z'] form.fields, c ≠ unichar '<' :=
    fieldsText_ne_open (forall_mem_of_all (by decide)) h.fields_lt
  rw [DateForm.text, List.forall_mem_append, List.forall_mem_append, List.forall_mem_cons]
  refine ⟨?_, fun c hc => ?_, by decide, hfields⟩
  · split_ifs
    · exact forall_mem_of_all (by decide)
    · exact nofun
  · rintro rfl
    exact absurd (h.digits _ hc) (by decide)

theorem seq_false_result {x : Parse Unit} {q : ParseInfo} :
    ((x >>= fun _ => pure false) p).result ≠ .ok (true, q) := by
  rw [result_bind]
  cases (x p).result with
  | error e => exact nofun
  | ok r =>
    rw [ok_bind, pure_result]
    intro h
    cases h

/-- Where a closing tag is found there is an opening bracket. -/
theorem checkForCloseTag_open {tag : List UInt16} {q : ParseInfo} (h : (checkForCloseTag input tag p).result = .ok (true, q)) :
    ∃ tail, input.rest p.curr = unichar '<' :: tail := by
  rw [checkForCloseTag, result_bind, currentIndex_result, ok_bind] at h
  by_cases hlen : input.length - p.curr < tag.length + 3
  · rw [if_pos hlen] at h
    exact absurd h seq_false_result
  · rw [if_neg hlen, result_bind, deref_result, ok_bind] at h
    by_cases hopen : input.unit p.curr = unichar '<'
    · exact ⟨_, by rw [Input.rest_eq_cons (by omega), hopen]⟩
    · rw [if_pos hopen] at h
      exact absurd h seq_false_result

/-- Two texts up to the first opening bracket. -/
theorem eq_of_append_open {xs ys tail tail' : List UInt16} (hxs : ∀ c ∈ xs, c ≠ unichar '<')
    (hys : ∀ c ∈ ys, c ≠ unichar '<') (h : xs ++ unichar '<' :: tail = ys ++ unichar '<' :: tail') : xs = ys := by
  have hbefore : ∀ zs tail : List UInt16, (∀ c ∈ zs, c ≠ unichar '<') →
      (zs ++ unichar '<' :: tail).takeWhile (· ≠ unichar '<') = zs := fun zs tail hzs => by
    rw [List.takeWhile_append_of_pos (fun c hc => decide_eq_true (hzs c hc)), List.takeWhile_cons_of_neg (by decide),
      List.append_nil]
  rw [← hbefore xs tail hxs, h, hbefore ys tail' hys]

/-- The parser accepts only texts of the form of a date. -/
theorem parseDateTag_eq_some {text spaces tail : List UInt16} {object : Parsed} {p' : ParseInfo}
    (htext : ∀ c ∈ text, c ≠ unichar '<') (hrest : input.rest p.curr = text ++ (closeTag .date spaces ++ tail))
    (h : (parseDateTag input p).result = .ok (some object, p')) : ∃ form : DateForm, form.IsForm ∧ text = form.text := by
  rw [parseDateTag, result_bind] at h
  cases hdate : (readDate input p).result with
  | error e => rw [hdate] at h; cases h
  | ok q =>
    obtain ⟨date | date, q⟩ := q
    · rw [hdate, ok_bind] at h
      simp only [result_bind, setLineError_result, ok_bind, pure_result] at h
      cases h
    · rw [hdate, ok_bind] at h
      obtain ⟨form, hform, hsplit⟩ := readDate_eq_some hdate
      simp only [result_bind] at h
      cases hclose : (checkForCloseTag input Tag.date.chars q).result with
      | error e => rw [hclose] at h; cases h
      | ok r =>
        obtain ⟨found, r⟩ := r
        obtain rfl : found = true := by
          by_contra hfound
          rw [hclose] at h
          simp [ok_bind, hfound] at h
        obtain ⟨tail', htail⟩ := checkForCloseTag_open hclose
        rw [hrest, htail, closeTag, List.cons_append] at hsplit
        exact ⟨form, hform, eq_of_append_open htext hform.ne_open hsplit⟩

theorem parseDateTag_form {form : DateForm} (hform : form.IsForm) {spaces tail : List UInt16}
    (hspaces : ∀ c ∈ spaces, isXMLSpace c = true)
    (hrest : input.rest p.curr = form.text ++ (closeTag .date spaces ++ tail)) :
    (parseDateTag input p).result =
      .ok (some (.primitive false (.date (Calendar.gregorianDateGetAbsoluteTime input.beyondMonths form.date))),
        { p with curr := p.curr + form.text.length + (closeTag .date spaces).length }) := by
  have hdate := readDate_form hform hrest
  have hclose := checkForCloseTag_result (p := { p with curr := p.curr + form.text.length }) hspaces
    (Input.rest_add hrest)
  rw [parseDateTag, result_bind, hdate, ok_bind]
  simp only [result_bind, hclose, ok_bind, if_true, absoluteTime, visit_result, pure_result]
  rfl

end Reading

/-! ## Tables -/

def Event.isTable : Event → Bool
  | .table _ _ => true
  | _ => false

/-- The run looks nothing up in a table. -/
def ReadsNoTable {α : Type} (x : Parse α) : Prop := ∀ p, Wp False (fun e => Event.isTable e = false) x p fun _ _ => True

section Tables

variable {α β : Type}

theorem ReadsNoTable.pure (a : α) : ReadsNoTable (pure a : Parse α) := fun _ => wp_pure.mpr trivial

theorem ReadsNoTable.bind {x : Parse α} {f : α → Parse β} (hx : ReadsNoTable x) (hf : ∀ a, ReadsNoTable (f a)) :
    ReadsNoTable (x >>= f) :=
  fun p => wp_bind.mpr ((hx p).mono fun a s _ => hf a s)

theorem ReadsNoTable.ite {c : Prop} [Decidable c] {x y : Parse α} (hx : ReadsNoTable x) (hy : ReadsNoTable y) :
    ReadsNoTable (if c then x else y) :=
  fun p => wp_ite.mpr ⟨fun _ => hx p, fun _ => hy p⟩

theorem ReadsNoTable.modify (f : ParseInfo → ParseInfo) : ReadsNoTable (Run.modify f : Parse Unit) :=
  fun _ => wp_modify.mpr trivial

theorem ReadsNoTable.loop {body : α → Parse (α ⊕ β)} (h : ∀ a, ReadsNoTable (body a)) (n : Nat) (a : α) :
    ReadsNoTable (Run.loop body n a) := by
  intro p
  refine Wp.loop (fun _ => 0) (I := fun _ _ => True) (fun a s _ => (h a s).mono ?_) trivial False.elim
  rintro (a' | b) s' -
  · exact ⟨trivial, False.elim⟩
  · trivial

theorem ReadsNoTable.currentIndex : ReadsNoTable currentIndex := by
  intro p
  simp [TextPlist.currentIndex]

theorem ReadsNoTable.deref (input : Input) (i : Nat) : ReadsNoTable (deref input i) := by
  intro p
  simp [TextPlist.deref, TextPlist.currentIndex, Event.isTable]

theorem ReadsNoTable.visit (site : Site) : ReadsNoTable (visit site) := by
  intro p
  simp [TextPlist.visit, TextPlist.currentIndex, Event.isTable]

theorem ReadsNoTable.whileAdvancing {input : Input} {body : α → Parse (α ⊕ β)} (h : ∀ a, ReadsNoTable (body a)) (a : α) :
    ReadsNoTable (whileAdvancing input body a) :=
  .bind .currentIndex fun _ => .loop h _ a

variable (input : Input)

theorem ReadsNoTable.followedBy (i : Nat) (cs : List UInt16) : ReadsNoTable (followedBy input i cs) := by
  induction cs generalizing i with
  | nil => exact .pure true
  | cons c cs ih => exact .bind (.deref input i) fun _ => .ite (ih _) (.pure false)

theorem ReadsNoTable.compareUnits (buf : Nat) (units : List UInt16) :
    ReadsNoTable (matchString.compareUnits input buf units) := by
  induction units with
  | nil => exact .pure true
  | cons unit units ih => exact .bind (.deref input _) fun _ => .ite (.pure false) ih

theorem ReadsNoTable.countLines (curr : Nat) (q : Nat × Nat) : ReadsNoTable (countLines input curr q) := by
  refine .ite (.bind (.deref input _) fun ch => .ite (.bind (.deref input _) fun _ => .pure _) ?_) (.pure _)
  exact .ite (.pure _) (.pure _)

theorem ReadsNoTable.setLineError (debugString : String) (arguments : List ErrorArgument) :
    ReadsNoTable (setLineError input debugString arguments) := by
  refine .bind (.bind (.visit _) fun _ => .bind .currentIndex fun curr => ?_) fun _ => .modify _
  exact .bind (.loop (ReadsNoTable.countLines input curr) _ _) fun _ => .pure _

theorem ReadsNoTable.unlessError {x : Parse Unit} (hx : ReadsNoTable x) : ReadsNoTable (unlessError x) := by
  intro p
  simp only [TextPlist.unlessError, wp_bind, wp_get, wp_ite, wp_pure]
  exact ⟨fun _ => hx p, fun _ => trivial⟩

theorem ReadsNoTable.skipWhitespace : ReadsNoTable (skipWhitespace input) := by
  refine .whileAdvancing (fun _ => .bind .currentIndex fun curr => .ite (.bind (.deref input curr) fun _ => ?_) (.pure _)) _
  exact .ite (.bind (.modify _) fun _ => .pure _) (.pure _)

theorem ReadsNoTable.checkForCloseTag (tag : List UInt16) : ReadsNoTable (checkForCloseTag input tag) := by
  have hEOF : ReadsNoTable (do TextPlist.unlessError unexpectedEOF; Pure.pure false : Parse Bool) :=
    .bind (.unlessError (.modify _)) fun _ => .pure false
  have hunexpected : ReadsNoTable (do
      TextPlist.unlessError (unexpectedCharacter input "Encountered unexpected character %c on line %d")
      Pure.pure false : Parse Bool) :=
    .bind (.unlessError (.bind .currentIndex fun _ => .bind (.deref input _) fun _ => .setLineError input _ _))
      fun _ => .pure false
  refine .bind .currentIndex fun curr => .ite hEOF (.bind (.deref input _) fun _ => .ite hunexpected ?_)
  refine .bind (.modify _) fun _ => .bind (.deref input _) fun _ => .ite hunexpected ?_
  refine .bind (.modify _) fun _ => .bind (.compareUnits input _ _) fun _ => .ite ?_ ?_
  · refine .bind (.modify _) fun _ => .bind (.skipWhitespace input) fun _ => .bind .currentIndex fun curr => ?_
    exact .ite hEOF (.bind (.deref input _) fun _ => .ite hunexpected (.bind (.modify _) fun _ => .pure _))
  · refine .bind (.unlessError (.bind ?_ fun _ => .modify _)) fun _ => .pure _
    refine .bind (.visit _) fun _ => .bind .currentIndex fun curr => ?_
    exact .bind (.loop (ReadsNoTable.countLines input curr) _ _) fun _ => .pure _

theorem ReadsNoTable.read2DigitNumber : ReadsNoTable (read2DigitNumber input) := by
  refine .bind .currentIndex fun curr => .ite (.pure _) (.bind (.deref input _) fun _ => .bind (.deref input _) fun _ => ?_)
  exact .bind (.modify _) fun _ => .ite (.pure _) (.pure _)

theorem ReadsNoTable.readFields (ts : List Char) : ReadsNoTable (readFields input ts) := by
  induction ts with
  | nil => exact .pure _
  | cons t ts ih =>
    refine .bind (.read2DigitNumber input) fun field => ?_
    cases field with
    | none => exact .pure _
    | some field =>
      refine .bind .currentIndex fun curr => .ite (.bind (.deref input curr) fun _ => ?_) (.pure _)
      exact .ite (.bind (.modify _) fun _ => .bind ih fun _ => .pure _) (.pure _)

theorem ReadsNoTable.readYear : ReadsNoTable (readYear input) := by
  refine .whileAdvancing (fun _ => .bind .currentIndex fun curr => .ite (.bind (.deref input curr) fun _ => ?_) (.pure _)) _
  exact .ite (.bind (.modify _) fun _ => .pure _) (.pure _)

theorem ReadsNoTable.readUnsigned (yearIsNegative : Bool) : ReadsNoTable (readUnsigned input yearIsNegative) := by
  refine .bind (.readYear input) fun _ => .bind .currentIndex fun curr => .ite (.bind (.deref input curr) fun _ => ?_)
    (.pure _)
  refine .ite (.bind (.modify _) fun _ => .bind (.readFields input _) fun fields => ?_) (.pure _)
  split
  · exact .pure _
  · exact .pure _

theorem ReadsNoTable.readDate : ReadsNoTable (readDate input) := by
  rw [readDate_eq]
  refine .bind .currentIndex fun curr => .ite (.bind (.followedBy input _ _) fun _ => ?_) ?_
  · exact .ite (.bind (.modify _) fun _ => .readUnsigned input _) (.readUnsigned input _)
  · exact .bind (.pure _) fun _ => .ite (.bind (.modify _) fun _ => .readUnsigned input _) (.readUnsigned input _)

end Tables

section Element

variable {input : Input} {p : ParseInfo} {form : DateForm} {spaces tail : List UInt16}

/-- The only entry of a table that is read is the month's. -/
theorem parseDateTag_tables (hform : form.IsForm) (hspaces : ∀ c ∈ spaces, isXMLSpace c = true)
    (hrest : input.rest p.curr = form.text ++ (closeTag .date spaces ++ tail)) :
    Wp True (fun e => Event.isTable e = true → e = .table 16 form.month) (parseDateTag input) p fun object p' =>
      object = some (.primitive false (.date (Calendar.gregorianDateGetAbsoluteTime input.beyondMonths form.date))) ∧
        p' = { p with curr := p.curr + form.text.length + (closeTag .date spaces).length } := by
  have hquiet : ∀ e : Event, e.isTable = false → e.isTable = true → e = .table 16 form.month := fun e h h' => by
    rw [h] at h'
    cases h'
  have hevents : Wp False (fun e => Event.isTable e = true → e = .table 16 form.month) (parseDateTag input) p
      fun _ _ => True := by
    rw [parseDateTag, wp_bind]
    refine (((ReadsNoTable.readDate input p).weaken hquiet).returning (readDate_form hform hrest)).mono ?_
    rintro - p' ⟨rfl, -⟩
    refine wp_bind.mpr (((ReadsNoTable.checkForCloseTag input _ p').weaken hquiet).mono fun found p' _ => ?_)
    refine wp_ite.mpr ⟨fun _ => ?_, fun _ => wp_pure.mpr trivial⟩
    simp only [absoluteTime, wp_bind, wp_emit, wp_pure]
    refine ((ReadsNoTable.visit _ p').weaken hquiet).mono fun _ _ _ => ⟨fun _ => ?_, trivial⟩
    rfl
  exact hevents.returning (parseDateTag_form hform hspaces hrest)

/-- The month's entry is read, whatever the month is. -/
theorem mem_parseDateTag_events (hform : form.IsForm) (hspaces : ∀ c ∈ spaces, isXMLSpace c = true)
    (hrest : input.rest p.curr = form.text ++ (closeTag .date spaces ++ tail)) :
    .table 16 form.month ∈ (parseDateTag input p).events := by
  have hclose := checkForCloseTag_result (p := { p with curr := p.curr + form.text.length }) hspaces
    (Input.rest_add hrest)
  rw [parseDateTag]
  refine mem_events_bind_right (readDate_form hform hrest) (mem_events_bind_right hclose ?_)
  rw [if_pos rfl]
  refine mem_events_bind (mem_events_bind_right (visit_result _ _) (mem_events_bind ?_))
  exact List.mem_singleton_self _

end Element

/-! ## Printing -/

/-- `%0…d`, with a width of at least two. -/
def zeroPadded (width : Nat) (n : Int) : List UInt16 :=
  let digits := (Nat.digits 10 n.natAbs).reverse.map digitUnit
  if n < 0 then unichar '-' :: (List.replicate (width - 1 - digits.length) (unichar '0') ++ digits)
  else List.replicate (width - digits.length) (unichar '0') ++ digits

/-- What `_CFAppendXML0` appends for a date between its tags. -/
def printedDate (time : UInt64) : List UInt16 :=
  let date := Calendar.gregorianDateOfTime (Calendar.doubleValue time)
  zeroPadded 4 date.year ++ unichar '-' :: (zeroPadded 2 date.month ++ unichar '-' :: (zeroPadded 2 date.day ++
    unichar 'T' :: (zeroPadded 2 date.hour ++ unichar ':' :: (zeroPadded 2 date.minute ++
      unichar ':' :: (zeroPadded 2 date.second ++ [unichar 'Z'])))))

theorem zeroPadded_two {n : Nat} (hn : n < 100) : zeroPadded 2 n = twoDigits n := by
  have h : ∀ n < 100, zeroPadded 2 (n : Nat) = twoDigits n := by decide +kernel
  exact h n hn

theorem decimalValue_digits {l : List Nat} (hl : ∀ d ∈ l, d < 10) :
    decimalValue (l.reverse.map digitUnit) = (Nat.ofDigits 10 l : ℕ) := by
  induction l with
  | nil => rfl
  | cons d l ih =>
    rw [List.forall_mem_cons] at hl
    have hvalue := ih hl.2
    rw [decimalValue] at hvalue ⊢
    rw [List.reverse_cons, List.map_append, List.foldl_append, hvalue, Nat.ofDigits_cons]
    simp only [List.map_cons, List.map_nil, List.foldl_cons, List.foldl_nil, digitUnit_toNat hl.1]
    rw [show '0'.toNat = 48 from rfl]
    push_cast
    omega

theorem decimalValue_zeros (k : Nat) (digits : List UInt16) :
    decimalValue (List.replicate k (unichar '0') ++ digits) = decimalValue digits := by
  induction k with
  | zero => rfl
  | succ k ih => exact ih

/-- A padded number has a sign if it is negative, and digits of its value. -/
theorem zeroPadded_eq (width : Nat) (n : Int) : ∃ digits,
    zeroPadded width n = (if decide (n < 0) = true then [unichar '-'] else []) ++ digits ∧
      (∀ c ∈ digits, isDigit c = true) ∧ decimalValue digits = n.natAbs ∧ width ≤ digits.length + 1 := by
  have hdigits : ∀ k, (∀ c ∈ List.replicate k (unichar '0') ++ (Nat.digits 10 n.natAbs).reverse.map digitUnit,
      isDigit c = true) ∧
      decimalValue (List.replicate k (unichar '0') ++ (Nat.digits 10 n.natAbs).reverse.map digitUnit) = n.natAbs := by
    intro k
    have hlt : ∀ d ∈ Nat.digits 10 n.natAbs, d < 10 := fun d hd => Nat.digits_lt_base (by decide) hd
    refine ⟨?_, by rw [decimalValue_zeros, decimalValue_digits hlt, Nat.ofDigits_digits]⟩
    rw [List.forall_mem_append]
    refine ⟨fun c hc => by rw [List.eq_of_mem_replicate hc]; decide, fun c hc => ?_⟩
    obtain ⟨d, hd, rfl⟩ := List.mem_map.mp hc
    exact isDigit_digitUnit (hlt d (List.mem_reverse.mp hd))
  by_cases hneg : n < 0
  · refine ⟨_, by simp only [zeroPadded, if_pos hneg, decide_eq_true hneg, if_true]; rfl, (hdigits _).1, (hdigits _).2, ?_⟩
    rw [List.length_append, List.length_replicate]
    omega
  · refine ⟨_, by simp only [zeroPadded, if_neg hneg, decide_eq_false hneg]; rfl, (hdigits _).1, (hdigits _).2, ?_⟩
    rw [List.length_append, List.length_replicate]
    omega

section Printing

variable {time : UInt64}

/-- The form of the text that is printed. -/
theorem printedDate_form {date : Calendar.GregorianDate}
    (hdate : Calendar.gregorianDateOfTime (Calendar.doubleValue time) = date) {month day hour minute second : Nat}
    (hfields : date.month = month ∧ date.day = day ∧ date.hour = hour ∧ date.minute = minute ∧ date.second = second)
    (hlt : ∀ n ∈ [month, day, hour, minute, second], n < 100) :
    ∃ form : DateForm, form.IsForm ∧ printedDate time = form.text ∧ form.year = date.year ∧
      form.fields = [month, day, hour, minute, second] := by
  obtain ⟨digits, hyear, hdigits, hvalue, hwidth⟩ := zeroPadded_eq 4 date.year
  refine ⟨⟨decide (date.year < 0), digits, month, day, hour, minute, second⟩, ⟨hdigits, fun hsign hnil => ?_, hlt⟩,
    ?_, ?_, rfl⟩
  · rw [show digits = [] from hnil] at hwidth
    exact absurd hwidth (by decide)
  · simp only [List.forall_mem_cons] at hlt
    obtain ⟨hmonth, hday, hhour, hminute, hsecond⟩ := hfields
    simp only [printedDate, hdate, hmonth, hday, hhour, hminute, hsecond, hyear, zeroPadded_two hlt.1,
      zeroPadded_two hlt.2.1, zeroPadded_two hlt.2.2.1, zeroPadded_two hlt.2.2.2.1, zeroPadded_two hlt.2.2.2.2.1]
    simp only [DateForm.text, DateForm.fields, fieldsText, List.append_assoc]
  · simp only [DateForm.year, hvalue]
    split_ifs with hneg
    · rw [decide_eq_true_eq] at hneg
      omega
    · rw [decide_eq_true_eq] at hneg
      omega

end Printing

/-! ## Valid dates -/

namespace DateForm

/-- The days of a year before a month. -/
def daysBefore (month : Nat) (leap : Bool) : Nat :=
  ((List.range (month - 1)).map fun i => Calendar.daysInMonth (i + 1 : Nat) leap).sum

/-- The seconds of a date since the beginning of 2001. -/
def seconds (form : DateForm) : Int :=
  86400 * (Calendar.daysBeforeYear (form.year - 2001) + daysBefore form.month (Calendar.isleap (form.year - 2001)) +
    form.day - 1) + 3600 * form.hour + 60 * form.minute + form.second

/-- A date of the Gregorian calendar and a time of day, with a year that fits 32
bits. -/
structure IsValid (form : DateForm) : Prop extends form.IsForm where
  hasYear : form.yearDigits ≠ []
  le_year : -2 ^ 31 ≤ form.year
  year_lt : form.year < 2 ^ 31
  isDate : Calendar.IsDate (form.year - 2001) form.month form.day
  hour_lt : form.hour < 24
  minute_lt : form.minute < 60
  second_lt : form.second < 60

variable {form : DateForm}

theorem daysBefore_eq (beyond : Nat → UInt16) {month : Nat} (h1 : 1 ≤ month) (h12 : month ≤ 12) (leap : Bool) :
    Calendar.daysBeforeMonth beyond month leap = daysBefore month leap := by
  rw [Calendar.daysBeforeMonth_congr beyond leap (by omega) (by omega)]
  have h : ∀ leap, ∀ month < 13, 1 ≤ month →
      Calendar.daysBeforeMonth (fun _ => 0) (month : Nat) leap = daysBefore month leap := by decide +kernel
  exact h leap month (by omega) h1

theorem IsValid.secondsFromDate_eq (h : form.IsValid) (beyond : Nat → UInt16) (hyear : -2 ^ 31 + 2001 ≤ form.year) :
    Calendar.secondsFromDate beyond form.date = form.seconds := by
  have hlow := h.le_year
  have hhigh := h.year_lt
  have hmonth := h.isDate.one_le_month
  have hmonth' := h.isDate.month_le
  rw [Calendar.secondsFromDate, date, int32_of_fits hlow hhigh]
  dsimp only
  rw [int32_of_fits (by omega) (by omega), Calendar.absoluteFromYMD_eq,
    daysBefore_eq beyond (by omega) (by omega), seconds]
  omega

theorem daysBefore_le (h1 : 1 ≤ form.month) (h12 : form.month ≤ 12) (leap : Bool) : daysBefore form.month leap ≤ 366 := by
  have h : ∀ leap, ∀ month < 13, daysBefore month leap ≤ 366 := by decide +kernel
  exact h leap form.month (by omega)

theorem IsValid.abs_seconds_lt (h : form.IsValid) : |form.seconds| < 2 ^ 63 := by
  have hlow := h.le_year
  have hhigh := h.year_lt
  have hmonth := h.isDate.one_le_month
  have hmonth' := h.isDate.month_le
  have hdays : daysBefore form.month (Calendar.isleap (form.year - 2001)) ≤ 366 := daysBefore_le (by omega) (by omega) _
  have hfields := h.fields_lt
  simp only [fields, List.forall_mem_cons] at hfields
  rw [abs_lt, seconds, Calendar.daysBeforeYear]
  omega

end DateForm

/-! ## Printing and parsing -/

/-- The text that is printed for a time is parsed to the same time. -/
def PrintsBack (time : UInt64) : Prop :=
  ∀ (input : Input) (p : ParseInfo) (spaces tail : List UInt16), (∀ c ∈ spaces, isXMLSpace c = true) →
    input.rest p.curr = printedDate time ++ (closeTag .date spaces ++ tail) →
    ∃ time' p', (parseDateTag input p).result = .ok (some (.primitive false (.date time')), p') ∧
      Calendar.doubleValue time' = Calendar.doubleValue time

section PrintsBack

variable {time : UInt64} {x : ℤ}

/-- The year of a double that is not too far away. -/
theorem yearOf_bounds (hx : |x| < 2 ^ 55) : -2 ^ 31 + 2001 ≤ Calendar.yearOf x ∧ Calendar.yearOf x < 2 ^ 31 - 1 := by
  obtain ⟨hdate, heq⟩ := Calendar.ymdFromAbsolute_spec (fun _ => 0) (x / 86400)
  have hday := hdate.daysBeforeMonth_add_lt (fun _ => 0)
  have hone := hdate.one_le_day
  have hyear : (Calendar.daysOfYear (Calendar.ymdFromAbsolute (x / 86400)).1 : Int) ≤ 366 := by
    rw [Calendar.daysOfYear]
    split_ifs <;> decide
  rw [Calendar.absoluteFromYMD_eq, Calendar.daysBeforeYear] at heq
  rw [Calendar.yearOf]
  rw [abs_lt] at hx
  omega

/-- The fields of a date from seconds are natural numbers that two digits are
enough for. -/
theorem fields_of_seconds (hx : |x| < 2 ^ 55) : ∃ month day hour minute second : Nat,
    Calendar.gregorianDateFromSeconds x = ⟨Calendar.yearOf x, month, day, hour, minute, second⟩ ∧
      ∀ n ∈ [month, day, hour, minute, second], n < 100 := by
  obtain ⟨hlow, hhigh⟩ := yearOf_bounds hx
  obtain ⟨hdate, -⟩ := Calendar.ymdFromAbsolute_spec (fun _ => 0) (x / 86400)
  rw [Calendar.yearOf] at hlow hhigh
  simp only [Calendar.gregorianDateFromSeconds, Calendar.yearOf]
  generalize Calendar.ymdFromAbsolute (x / 86400) = date at hdate hlow hhigh ⊢
  obtain ⟨year, month, day⟩ := date
  obtain ⟨h1, h12, h1', hle⟩ := hdate
  have hdays : ∀ leap, ∀ m < 13, Calendar.daysInMonth (m : Nat) leap ≤ 31 := by decide +kernel
  have hday := hdays (Calendar.isleap year) month.toNat (by dsimp only at h1 h12; omega)
  dsimp only at h1 h12 h1' hle hlow hhigh ⊢
  rw [Int.toNat_of_nonneg (by omega)] at hday
  refine ⟨month.toNat, day.toNat, (x / 3600 % 24).toNat, (x / 60 % 60).toNat, (x % 60).toNat, ?_, ?_⟩
  · rw [if_neg (by omega), int32_of_fits (by omega) (by omega), Int.toNat_of_nonneg (by omega),
      Int.toNat_of_nonneg (by omega), Int.toNat_of_nonneg (by omega), Int.toNat_of_nonneg (by omega),
      Int.toNat_of_nonneg (by omega)]
  · simp only [List.forall_mem_cons]
    exact ⟨by omega, by omega, by omega, by omega, by omega, by simp⟩

theorem printsBack_of_isDouble (htime : Calendar.doubleValue time = x) (hdouble : Calendar.IsDouble x)
    (hx : |x| < 2 ^ 55 - 60) : PrintsBack time := by
  intro input p spaces tail hspaces hrest
  have hx' : |x| < 2 ^ 55 := by omega
  obtain ⟨hlow, hhigh⟩ := yearOf_bounds hx'
  obtain ⟨month, day, hour, minute, second, hfields, hlt⟩ := fields_of_seconds hx'
  have hdate : Calendar.gregorianDateOfTime (Calendar.doubleValue time) =
      ⟨Calendar.yearOf x, month, day, hour, minute, second⟩ := by
    rw [htime, Calendar.gregorianDateOfTime_of_isDouble hdouble hx, hfields]
  obtain ⟨form, hform, htext, hyear, hforms⟩ := printedDate_form hdate ⟨rfl, rfl, rfl, rfl, rfl⟩ hlt
  rw [htext] at hrest
  refine ⟨_, _, parseDateTag_form hform hspaces hrest, ?_⟩
  have hseconds : Calendar.secondsFromDate input.beyondMonths form.date = x := by
    have hsame : form.date = Calendar.gregorianDateFromSeconds x := by
      simp only [DateForm.fields, List.cons.injEq, and_true] at hforms
      obtain ⟨rfl, rfl, rfl, rfl, rfl⟩ := hforms
      rw [hfields, DateForm.date, hyear]
      dsimp only
      rw [int32_of_fits (by omega) (by omega)]
    rw [hsame, Calendar.secondsFromDate_gregorianDateFromSeconds_eq_iff _ (by omega) (by omega)]
    exact hlow
  rw [Calendar.gregorianDateGetAbsoluteTime, hseconds, Calendar.doubleValue_doubleOfInt (by omega), htime]
  exact hdouble.nearest_eq

end PrintsBack

/-! ## Texts of dates -/

/-- An entry of a table that is read is in the table. -/
def Event.tableInBounds (e : Event) : Prop := ∀ size index, e = .table size index → index < size

/-- What is parsed has the form of a date. A valid date, of a year whose
difference from 2001 fits 32 bits, is parsed to the double nearest to its
seconds, which is their number up to `2 ^ 53`; no entry after the tables is
read; and if that double is below `2 ^ 55 - 60` then it is printed as a text of
the same time. -/
theorem parseDateTag_dates {input : Input} {p : ParseInfo} {text spaces tail : List UInt16}
    (htext : ∀ c ∈ text, c ≠ unichar '<') (hspaces : ∀ c ∈ spaces, isXMLSpace c = true)
    (hrest : input.rest p.curr = text ++ (closeTag .date spaces ++ tail)) :
    (∀ object p', (parseDateTag input p).result = .ok (some object, p') →
      ∃ form : DateForm, form.IsForm ∧ text = form.text) ∧
    ∀ form : DateForm, form.IsValid → text = form.text → -2 ^ 31 + 2001 ≤ form.year → ∃ time,
      Wp True Event.tableInBounds (parseDateTag input) p (fun object p' => object = some (.primitive false (.date time)) ∧
        p' = { p with curr := p.curr + text.length + (closeTag .date spaces).length }) ∧
      Calendar.doubleValue time = Calendar.double form.seconds ∧
      (|form.seconds| < 2 ^ 53 → Calendar.doubleValue time = form.seconds) ∧
      (|Calendar.doubleValue time| < 2 ^ 55 - 60 → PrintsBack time) := by
  refine ⟨fun object p' h => parseDateTag_eq_some htext hrest h, ?_⟩
  rintro form hvalid rfl hyear
  have hmonth := hvalid.isDate.month_le
  have hvalue := Calendar.doubleValue_doubleOfInt hvalid.abs_seconds_lt
  refine ⟨Calendar.doubleOfInt form.seconds, ?_, hvalue, fun hsmall => ?_, fun hx => ?_⟩
  · rw [← hvalid.secondsFromDate_eq input.beyondMonths hyear]
    refine (parseDateTag_tables hvalid.toIsForm hspaces hrest).weaken ?_
    rintro e he size index rfl
    cases he rfl
    omega
  · rw [hvalue, Calendar.double_intCast hsmall]
  · obtain ⟨x, hround, hdouble⟩ := Calendar.isDouble_intCast form.seconds
    rw [hvalue, hround] at hx
    exact printsBack_of_isDouble (hvalue.trans hround) hdouble (by exact_mod_cast hx)

/-- A text with its closing tag. -/
def dateInput (form : DateForm) : Input := plainInput (form.text ++ (closeTag .date [] ++ []))

theorem no_spaces : ∀ c ∈ ([] : List UInt16), isXMLSpace c = true := nofun

/-- The start of 11 November 2011. -/
def singlesDay : DateForm := ⟨false, ['2', '0', '1', '1'].map unichar, 11, 11, 0, 0, 0⟩

/-- 11 November 2011 is parsed. -/
theorem parseDateTag_dates_singles_day : ∃ time,
    Wp True Event.tableInBounds (parseDateTag (dateInput singlesDay)) ⟨0, none⟩ (fun object p' =>
      object = some (.primitive false (.date time)) ∧
        p' = ⟨0 + singlesDay.text.length + (closeTag .date []).length, none⟩) ∧
      Calendar.doubleValue time = Calendar.double singlesDay.seconds ∧
      (|singlesDay.seconds| < 2 ^ 53 → Calendar.doubleValue time = singlesDay.seconds) ∧
      (|Calendar.doubleValue time| < 2 ^ 55 - 60 → PrintsBack time) := by
  have hvalid : singlesDay.IsValid := {
    digits := forall_mem_of_all (by decide)
    notEmpty := by decide
    fields_lt := by decide
    hasYear := by decide
    le_year := by decide
    year_lt := by decide
    isDate := ⟨by decide, by decide, by decide, by decide⟩
    hour_lt := by decide
    minute_lt := by decide
    second_lt := by decide }
  have hrest : (dateInput singlesDay).rest (⟨0, none⟩ : ParseInfo).curr = singlesDay.text ++ (closeTag .date [] ++ []) := rfl
  exact (parseDateTag_dates hvalid.ne_open no_spaces hrest).2 singlesDay hvalid rfl (by decide)

/-! ## Texts that break the rules -/

/-- A day in month 99. -/
def monthNinetyNine : DateForm := ⟨false, ['2', '0', '0', '0'].map unichar, 99, 1, 0, 0, 0⟩

/-- A time of the first day of the year 1200002001. -/
def farDate (minute second : Nat) : DateForm :=
  ⟨false, ['1', '2', '0', '0', '0', '0', '2', '0', '0', '1'].map unichar, 1, 1, 0, minute, second⟩

theorem year_farDate (minute second : Nat) : (farDate minute second).year = 1200002001 := by
  have hdigits : decimalValue (['1', '2', '0', '0', '0', '0', '2', '0', '0', '1'].map unichar) = 1200002001 := by decide
  exact hdigits

theorem isValid_farDate {minute second : Nat} (hminute : minute < 60) (hsecond : second < 60) :
    (farDate minute second).IsValid where
  digits := show ∀ c ∈ ['1', '2', '0', '0', '0', '0', '2', '0', '0', '1'].map unichar, isDigit c = true from
    forall_mem_of_all (by decide)
  notEmpty := fun _ => List.cons_ne_nil _ _
  fields_lt := by
    simp only [DateForm.fields, farDate, List.forall_mem_cons]
    exact ⟨by decide, by decide, by decide, by omega, by omega, nofun⟩
  hasYear := List.cons_ne_nil _ _
  le_year := by
    rw [year_farDate]
    decide
  year_lt := by
    rw [year_farDate]
    decide
  isDate := by
    rw [year_farDate]
    have hday : (1 : Int) ≤ Calendar.daysInMonth 1 (Calendar.isleap (1200002001 - 2001)) := by decide
    exact ⟨le_refl 1, show (1 : Int) ≤ 12 by decide, le_refl 1, hday⟩
  hour_lt := show 0 < 24 by decide
  minute_lt := hminute
  second_lt := hsecond

theorem seconds_farDate (minute second : Nat) :
    (farDate minute second).seconds = (37868342400000000 + 60 * minute + second : Nat) := by
  have hdays : DateForm.daysBefore 1 (Calendar.isleap (1200002001 - 2001)) = 0 := by decide
  rw [DateForm.seconds, year_farDate, show (farDate minute second).month = 1 from rfl, hdays]
  simp only [farDate, Calendar.daysBeforeYear]
  push_cast
  omega

/-- Doubles between `2 ^ 55` and `2 ^ 56` are multiples of eight. -/
theorem double_far {n : ℕ} (hlow : 2 ^ 55 ≤ n) (hhigh : n < 2 ^ 56) :
    Calendar.double n = (if 2 * (n % 8) < 8 ∨ (2 * (n % 8) = 8 ∧ n / 8 % 2 = 0) then n / 8 * 8 else (n / 8 + 1) * 8 : ℕ) := by
  have hulp : Rounding.ulp 53 (n : ℚ) = (8 : ℕ) := by
    rw [Rounding.ulp_eq (e := 55)]
    · norm_num
    · rw [Nat.abs_cast]
      exact_mod_cast hlow
    · rw [Nat.abs_cast]
      exact_mod_cast hhigh
  rw [Calendar.double, Rounding.nearest, hulp, Rounding.roundEven_div n (by decide)]
  split_ifs <;> push_cast <;> rfl

/-- What the parser makes of one of these dates. -/
theorem parseDateTag_farDate (minute second : Nat) (hminute : minute < 60) (hsecond : second < 60) :
    ∃ p', (parseDateTag (dateInput (farDate minute second)) ⟨0, none⟩).result =
      .ok (some (.primitive false (.date (Calendar.doubleOfInt (37868342400000000 + 60 * minute + second : Nat)))), p') := by
  have hvalid := isValid_farDate hminute hsecond
  have hrest : (dateInput (farDate minute second)).rest (⟨0, none⟩ : ParseInfo).curr =
      (farDate minute second).text ++ (closeTag .date [] ++ []) := rfl
  have hresult := parseDateTag_form hvalid.toIsForm no_spaces hrest
  rw [Calendar.gregorianDateGetAbsoluteTime, hvalid.secondsFromDate_eq _ (by rw [year_farDate]; decide),
    seconds_farDate] at hresult
  exact ⟨_, hresult⟩

theorem doubleValue_farDate {n : ℕ} (hlow : 2 ^ 55 ≤ n) (hhigh : n < 2 ^ 56) :
    Calendar.doubleValue (Calendar.doubleOfInt n) =
      (if 2 * (n % 8) < 8 ∨ (2 * (n % 8) = 8 ∧ n / 8 % 2 = 0) then n / 8 * 8 else (n / 8 + 1) * 8 : ℕ) := by
  rw [Calendar.doubleValue_doubleOfInt (by rw [Nat.abs_cast]; exact_mod_cast (by omega : n < 2 ^ 63)),
    ← double_far hlow hhigh]
  rfl

/-- The floor of the quotient for minutes, which is far enough from the
integers. -/
theorem minutes_farDate : ⌊Calendar.double ((37868342400000072 : ℚ) / 60)⌋ = 631139040000001 := by
  have hulp : Rounding.ulp 53 ((37868342400000072 : ℚ) / 60) = 1 / 8 := by
    rw [Rounding.ulp_eq (e := 49) (by norm_num) (by norm_num)]
    norm_num
  have herror := Rounding.abs_nearest_sub_le 53 ((37868342400000072 : ℚ) / 60)
  rw [hulp, abs_le] at herror
  refine Int.floor_eq_iff.mpr ⟨?_, ?_⟩
  · rw [Calendar.double]
    push_cast
    linarith [herror.1]
  · rw [Calendar.double]
    push_cast
    linarith [herror.2]

/-- The date that is printed for 72 seconds after midnight has 68 seconds. -/
theorem gregorianDateOfTime_farDate :
    Calendar.gregorianDateOfTime (37868342400000072 : ℕ) = ⟨1200002001, 1, 1, 0, 1, 8⟩ := by
  have hday : ⌊Calendar.double (((37868342400000072 : ℤ) : ℚ) / (86400 : ℕ))⌋ = 37868342400000072 / 86400 :=
    Rounding.floor_nearest_div (j := 3) (by decide) (by decide) (by decide) (by decide)
  have hhour : ⌊Calendar.double (((37868342400000072 : ℤ) : ℚ) / (3600 : ℕ))⌋ = 37868342400000072 / 3600 :=
    Rounding.floor_nearest_div (j := 3) (by decide) (by decide) (by decide) (by decide)
  have hhours := Calendar.doubleModToInt_eq (d := 37868342400000072 / 3600) (m := 24) (by decide) (by decide) (by decide)
  have hminutes := Calendar.doubleModToInt_eq (d := 631139040000001) (m := 60) (by decide) (by decide) (by decide)
  have hproduct : Calendar.double ((631139040000001 : ℤ) * (60 : ℕ)) = 37868342400000064 := by
    have h := double_far (n := 37868342400000060) (by decide) (by decide)
    rw [if_neg (by decide)] at h
    norm_num at h ⊢
    exact h
  have hrest : Calendar.double 8 = 8 := by
    have h := Calendar.double_intCast (n := 8) (by decide)
    exact_mod_cast h
  have hsecond : Calendar.doubleMod 37868342400000072 60 = 8 := by
    have hdifference : (37868342400000072 : ℚ) - 37868342400000064 = 8 := by norm_num
    have hminute := minutes_farDate
    simp only [Calendar.doubleMod]
    push_cast at hproduct ⊢
    rw [hminute]
    push_cast
    rw [hproduct, hdifference, hrest, if_neg (by norm_num)]
  have hblock : Calendar.ymdFromAbsolute 438291000000 = (1200000000, 1, 1) := Calendar.ymdFromAbsolute_block 3000000
  have hminute := minutes_farDate
  push_cast at hday hhour hhours hminutes ⊢
  simp only [Calendar.gregorianDateOfTime, hday, hhour, hminute, hsecond, hblock]
  push_cast
  rw [hhours, hminutes]
  rfl

/-- A text of that date is parsed to an earlier time. -/
theorem not_printsBack_farDate : ¬PrintsBack (Calendar.doubleOfInt (37868342400000072 : ℕ)) := by
  intro h
  have htime : Calendar.doubleValue (Calendar.doubleOfInt (37868342400000072 : ℕ)) = (37868342400000072 : ℕ) := by
    rw [doubleValue_farDate (by decide) (by decide)]
    rfl
  have hdate := gregorianDateOfTime_farDate
  rw [← htime] at hdate
  obtain ⟨form, hform, htext, hyear, hfields⟩ := printedDate_form hdate ⟨rfl, rfl, rfl, rfl, rfl⟩ (by decide)
  have hrest : (dateInput form).rest (⟨0, none⟩ : ParseInfo).curr = form.text ++ (closeTag .date [] ++ []) := rfl
  obtain ⟨time, p', hresult, hvalue⟩ := h (dateInput form) ⟨0, none⟩ [] [] no_spaces (by rw [htext]; exact hrest)
  have hsame : form.date = (farDate 1 8).date := by
    simp only [DateForm.fields, List.cons.injEq, and_true] at hfields
    obtain ⟨hmonth, hday, hhour, hminute, hsecond⟩ := hfields
    rw [DateForm.date, DateForm.date, hyear, hmonth, hday, hhour, hminute, hsecond, year_farDate]
    rfl
  rw [parseDateTag_form hform no_spaces hrest, hsame, Calendar.gregorianDateGetAbsoluteTime,
    (isValid_farDate (by decide) (by decide)).secondsFromDate_eq _ (by rw [year_farDate]; decide), seconds_farDate] at hresult
  simp only [Except.ok.injEq, Prod.mk.injEq, Option.some.injEq, Object.primitive.injEq, Primitive.date.injEq,
    true_and] at hresult
  rw [← hresult.1, htime, doubleValue_farDate (by decide) (by decide)] at hvalue
  exact absurd (Nat.cast_injective hvalue) (by decide)

/-- What does not hold of all texts: a date with month 99 is accepted, and an
entry far after the table of months is read; a second after midnight in the year
1200002001 is not parsed to the number of its seconds; and 72 seconds after
midnight, which are, are printed as another time. -/
theorem parseDateTag_breaks :
    ((∃ object p', (parseDateTag (dateInput monthNinetyNine) ⟨0, none⟩).result = .ok (some object, p')) ∧
      (∀ form : DateForm, form.IsValid → form.text ≠ monthNinetyNine.text) ∧
      .table 16 99 ∈ (parseDateTag (dateInput monthNinetyNine) ⟨0, none⟩).events) ∧
    ((farDate 0 1).IsValid ∧ ∃ time p',
      (parseDateTag (dateInput (farDate 0 1)) ⟨0, none⟩).result = .ok (some (.primitive false (.date time)), p') ∧
        Calendar.doubleValue time ≠ (farDate 0 1).seconds) ∧
    (farDate 1 12).IsValid ∧ ∃ time p',
      (parseDateTag (dateInput (farDate 1 12)) ⟨0, none⟩).result = .ok (some (.primitive false (.date time)), p') ∧
        Calendar.doubleValue time = (farDate 1 12).seconds ∧ ¬PrintsBack time := by
  refine ⟨?_, ⟨isValid_farDate (by decide) (by decide), ?_⟩, isValid_farDate (by decide) (by decide), ?_⟩
  · have hform : monthNinetyNine.IsForm := ⟨forall_mem_of_all (by decide), by decide, by decide⟩
    have hrest : (dateInput monthNinetyNine).rest (⟨0, none⟩ : ParseInfo).curr =
        monthNinetyNine.text ++ (closeTag .date [] ++ []) := rfl
    have hmem := mem_parseDateTag_events hform no_spaces hrest
    refine ⟨⟨_, _, parseDateTag_form hform no_spaces hrest⟩, fun form hvalid htext => ?_, hmem⟩
    rw [← htext] at hrest
    have hmonth := (parseDateTag_tables hvalid.toIsForm no_spaces hrest).1 _ hmem rfl
    have hle := hvalid.isDate.month_le
    rw [Event.table.injEq] at hmonth
    have hninety : monthNinetyNine.month = 99 := rfl
    omega
  · obtain ⟨p', hresult⟩ := parseDateTag_farDate 0 1 (by decide) (by decide)
    refine ⟨_, p', hresult, ?_⟩
    rw [doubleValue_farDate (by decide) (by decide), seconds_farDate]
    norm_num
  · obtain ⟨p', hresult⟩ := parseDateTag_farDate 1 12 (by decide) (by decide)
    refine ⟨_, p', hresult, ?_, not_printsBack_farDate⟩
    rw [doubleValue_farDate (by decide) (by decide), seconds_farDate]
    norm_num

end CFLite.TextPlist
