import CFLite.Framework.Utf16
import CFLite.TextPlist.Results

/-!
# Character references

A character is referred to by its number, `&#233;` or `&#xE9;`. The number is
kept in an `uint16_t`, and appended as one unit whatever it is.

* `referenceLoop_result`: the unit that a run of digits gives;
* `parseEntityReference_reads_iff`: a reference appends the UTF-16 units of the
  character it denotes, or is rejected where it denotes none, exactly if it
  denotes one of up to U+FFFF or has a character that is no digit.
-/

namespace CFLite.TextPlist

open CFLite.Framework

/-! ## What a reference denotes -/

/-- The base and the digits between the `&#` and the `;` of a reference, if
they are digits. -/
def referenceDigits : List UInt16 → Option (Nat × List Nat)
  | [] => some (10, [])
  | c :: body =>
    if c = unichar 'x' then (body.mapM (radixDigit true)).map (16, ·)
    else ((c :: body).mapM (radixDigit false)).map (10, ·)

/-- Digits denote a character if there are any and it has their number. -/
def DenotesChar (base : Nat) (digits : List Nat) (c : Char) : Prop := digits ≠ [] ∧ digitsValue base digits 0 = c.toNat

/-- The text between the `&#` and the `;` denotes a character. -/
def ReferenceTo (body : List UInt16) (c : Char) : Prop :=
  ∃ base digits, referenceDigits body = some (base, digits) ∧ DenotesChar base digits c

/-! ## The loop over the digits -/

section Loop

variable {input : Input} {p : ParseInfo} {isHex : Bool}

/-- A step on a digit. -/
theorem characterReferenceStep_digit {c : UInt16} {tail : List UInt16} {digit : Nat}
    (hrest : input.rest p.curr = c :: tail) (hend : c ≠ unichar ';') (hdigit : radixDigit isHex c = some digit)
    (num : Nat) : (characterReferenceStep input isHex num p).result =
      .ok (.inl ((num * radix isHex + digit) % 2 ^ 16), { p with curr := p.curr + 1 }) := by
  have hlt := Input.lt_length hrest
  simp only [characterReferenceStep, result_bind, currentIndex_result, ok_bind, if_pos hlt, deref_result,
    Input.unit_eq hrest, advance_result, if_neg hend]
  rw [radixDigit] at hdigit
  split at hdigit
  · rename_i hc
    rw [digitValue] at hdigit
    split at hdigit
    · rename_i hdec
      obtain rfl := Option.some.inj hdigit
      rw [if_pos hdec]
      cases isHex <;> rfl
    · rename_i hdec
      obtain rfl : isHex = true := hc.resolve_right hdec
      rw [if_neg hdec]
      split at hdigit
      · rename_i hlow
        obtain rfl := Option.some.inj hdigit
        rw [if_pos ⟨rfl, hlow.1, hlow.2⟩, Nat.add_comm 10]
        rfl
      · rename_i hlow
        rw [if_neg (fun h => hlow h.2)]
        split at hdigit
        · rename_i hup
          obtain rfl := Option.some.inj hdigit
          rw [if_pos ⟨rfl, hup.1, hup.2⟩, Nat.add_comm 10]
          rfl
        · cases hdigit
  · cases hdigit

/-- A step on another character. -/
theorem characterReferenceStep_other {c : UInt16} {tail : List UInt16} (hrest : input.rest p.curr = c :: tail)
    (hend : c ≠ unichar ';') (hdigit : radixDigit isHex c = none) (num : Nat) :
    ∃ p', (characterReferenceStep input isHex num p).result = .ok (.inr [], p') ∧ p'.error ≠ none := by
  have hlt := Input.lt_length hrest
  simp only [characterReferenceStep, result_bind, currentIndex_result, ok_bind, if_pos hlt, deref_result,
    Input.unit_eq hrest, advance_result, if_neg hend]
  have hno : ¬isDigit c = true ∧ ¬(isHex = true ∧ unichar 'a' ≤ c ∧ c ≤ unichar 'f') ∧
      ¬(isHex = true ∧ unichar 'A' ≤ c ∧ c ≤ unichar 'F') := by
    rw [radixDigit, digitValue] at hdigit
    refine ⟨fun h => ?_, fun h => ?_, fun h => ?_⟩
    · rw [if_pos (.inr h), if_pos h] at hdigit
      cases hdigit
    · rw [if_pos (.inl h.1), if_pos h.2] at hdigit
      split at hdigit <;> cases hdigit
    · rw [if_pos (.inl h.1), if_pos h.2] at hdigit
      split at hdigit
      · cases hdigit
      · split at hdigit <;> cases hdigit
  rw [if_neg hno.1, if_neg hno.2.1, if_neg hno.2.2]
  simp only [result_bind, setLineError_result, ok_bind, pure_result]
  exact ⟨_, rfl, Option.some_ne_none _⟩

/-- Only the low 16 bits of the number are kept. -/
theorem foldl_uint16 (base : Nat) (digits : List Nat) (num : Nat) :
    digits.foldl (fun num digit => (num * base + digit) % 2 ^ 16) (num % 2 ^ 16) =
      digitsValue base digits num % 2 ^ 16 := by
  induction digits generalizing num with
  | nil => rfl
  | cons digit digits ih =>
    have hstep : (num % 2 ^ 16 * base + digit) % 2 ^ 16 = (num * base + digit) % 2 ^ 16 := by
      rw [Nat.add_mod, Nat.mod_mul_mod, ← Nat.add_mod]
    rw [List.foldl_cons, hstep, ih]
    rfl

/-- The unit that a run of digits gives, or an error at the first character
that is none. -/
theorem referenceLoop_result (isHex : Bool) (n : Nat) (body tail : List UInt16) (hbody : ∀ c ∈ body, c ≠ unichar ';')
    (hrest : input.rest p.curr = body ++ unichar ';' :: tail) (hn : body.length < n) (num : Nat) :
    (∀ digits, body.mapM (radixDigit isHex) = some digits →
      (Run.loop (characterReferenceStep input isHex) n (num % 2 ^ 16) p).result =
        .ok ([UInt16.ofNat (digitsValue (radix isHex) digits num)],
          { p with curr := p.curr + body.length + 1 })) ∧
    (body.mapM (radixDigit isHex) = none →
      ∃ p', (Run.loop (characterReferenceStep input isHex) n (num % 2 ^ 16) p).result = .ok ([], p') ∧
        p'.error ≠ none) := by
  induction n generalizing body p num with
  | zero => omega
  | succ n ih =>
    cases body with
    | nil =>
      have hlt := Input.lt_length hrest
      refine ⟨fun digits hdigits => ?_, fun h => by cases h⟩
      obtain rfl : [] = digits := Option.some.inj hdigits
      rw [loop_result]
      simp only [characterReferenceStep, result_bind, currentIndex_result, ok_bind, if_pos hlt, deref_result,
        Input.unit_eq hrest, advance_result, if_true, pure_result, List.length_nil, Nat.add_zero, digitsValue,
        List.foldl_nil]
      congr 3
      exact UInt16.toNat_inj.mp (by simp)
    | cons c body =>
      have hc := hbody c (List.mem_cons_self ..)
      have hnext := Input.rest_succ hrest
      rw [List.length_cons] at hn
      rw [loop_result, List.mapM_cons]
      cases hdigit : radixDigit isHex c with
      | none =>
        obtain ⟨p', hp', herror⟩ := characterReferenceStep_other hrest hc hdigit (num % 2 ^ 16)
        refine ⟨fun digits h => (by cases h), fun _ => ⟨p', ?_, herror⟩⟩
        rw [hp', ok_bind]
      | some digit =>
        have hstep : (num % 2 ^ 16 * radix isHex + digit) % 2 ^ 16 =
            (num * radix isHex + digit) % 2 ^ 16 := by
          rw [Nat.add_mod, Nat.mod_mul_mod, ← Nat.add_mod]
        obtain ⟨hsome, hnone⟩ := ih (p := { p with curr := p.curr + 1 }) body
          (fun c hmem => hbody c (List.mem_cons_of_mem _ hmem)) hnext (by omega) (num * radix isHex + digit)
        rw [characterReferenceStep_digit hrest hc hdigit, ok_bind, hstep]
        dsimp only
        constructor
        · intro digits hdigits
          simp only [Option.bind_eq_bind, Option.bind_some] at hdigits
          obtain ⟨rest, hrest', hdigits⟩ := Option.bind_eq_some_iff.mp hdigits
          obtain rfl := Option.some.inj hdigits
          rw [hsome rest hrest']
          simp only [List.length_cons, digitsValue, List.foldl_cons]
          rw [Nat.add_assoc p.curr 1, Nat.add_comm 1]
        · intro h
          refine hnone ?_
          cases hrest' : body.mapM (radixDigit isHex) with
          | none => rfl
          | some rest =>
            rw [hrest'] at h
            cases h

end Loop

/-! ## References -/

section Reference

variable {input : Input} {p : ParseInfo} {body tail : List UInt16}

/-- `len` of `parseEntityReference_pl`: the units after the `&`. -/
def unitsLeft (input : Input) (p : ParseInfo) : Int := int32 (input.length - (p.curr + 1) : Nat)

/-- With less than four units, a reference is rejected. -/
theorem parseEntityReference_short (hrest : input.rest p.curr = unichar '&' :: unichar '#' :: tail)
    (hlen : unitsLeft input p < 4) :
    ∃ p', (parseEntityReference input p).result = .ok ([], p') ∧ p'.error ≠ none := by
  have hsharp := Input.rest_succ hrest
  have hcast : (input.length : Int) - (p.curr + 1 : Nat) = (input.length - (p.curr + 1) : Nat) := by
    have := Input.lt_length hrest
    omega
  simp only [parseEntityReference, result_bind, advance_result, currentIndex_result, ok_bind, hcast]
  rw [← unitsLeft]
  by_cases hone : unitsLeft input p < 1
  · simp only [if_pos hone, result_bind, unexpectedEOF_result, ok_bind, pure_result]
    exact ⟨_, rfl, Option.some_ne_none _⟩
  · simp +decide only [if_neg hone, result_bind, deref_result, ok_bind, Input.unit_eq hsharp, if_false, if_true,
      if_pos hlen, unexpectedEOF_result, pure_result]
    exact ⟨_, rfl, Option.some_ne_none _⟩

/-- Otherwise its digits are read. -/
theorem parseEntityReference_long (hrest : input.rest p.curr = unichar '&' :: unichar '#' :: tail)
    (hlen : 4 ≤ unitsLeft input p) : (parseEntityReference input p).result =
      (parseCharacterReference input { p with curr := p.curr + 1 }).result := by
  have hsharp := Input.rest_succ hrest
  have hcast : (input.length : Int) - (p.curr + 1 : Nat) = (input.length - (p.curr + 1) : Nat) := by
    have := Input.lt_length hrest
    omega
  simp only [parseEntityReference, result_bind, advance_result, currentIndex_result, ok_bind, hcast]
  have hone : ¬unitsLeft input p < 1 := by omega
  have hfour : ¬unitsLeft input p < 4 := by omega
  rw [← unitsLeft]
  simp +decide only [if_neg hone, result_bind, deref_result, ok_bind, Input.unit_eq hsharp, if_false, if_true,
    if_neg hfour]

/-- What the text between the `&#` and the `;` gives. -/
theorem parseCharacterReference_result (hbody : ∀ c ∈ body, c ≠ unichar ';')
    (hrest : input.rest p.curr = unichar '#' :: (body ++ unichar ';' :: tail)) :
    (∀ base digits, referenceDigits body = some (base, digits) →
      (parseCharacterReference input p).result =
        .ok ([UInt16.ofNat (digitsValue base digits 0)], { p with curr := p.curr + body.length + 2 })) ∧
    (referenceDigits body = none →
      ∃ p', (parseCharacterReference input p).result = .ok ([], p') ∧ p'.error ≠ none) := by
  have hnext := Input.rest_succ hrest
  have hlen := congrArg List.length hnext
  rw [Input.length_rest, List.length_append, List.length_cons] at hlen
  have hloop : ∀ (isHex : Bool) (digits : List UInt16) (p' : ParseInfo),
      (∀ c ∈ digits, c ≠ unichar ';') → input.rest p'.curr = digits ++ unichar ';' :: tail →
      digits.length < input.length - p'.curr + 1 := by
    intro isHex digits p' _ h
    have hlen := congrArg List.length h
    rw [Input.length_rest, List.length_append, List.length_cons] at hlen
    omega
  by_cases hx : ∃ digits, body = unichar 'x' :: digits
  · obtain ⟨digits, rfl⟩ := hx
    have hdigits : ∀ c ∈ digits, c ≠ unichar ';' := fun c hc => hbody c (List.mem_cons_of_mem _ hc)
    have hafter := Input.rest_succ hnext
    obtain ⟨hsome, hnone⟩ := referenceLoop_result (p := { p with curr := p.curr + 1 + 1 }) true _ digits tail
      hdigits hafter (hloop true digits { p with curr := p.curr + 1 + 1 } hdigits hafter) 0
    have hrun : (parseCharacterReference input p).result = (Run.loop (characterReferenceStep input true)
        (input.length - (p.curr + 1 + 1) + 1) 0 { p with curr := p.curr + 1 + 1 }).result := by
      simp only [parseCharacterReference, result_bind, advance_result, currentIndex_result, ok_bind, deref_result,
        Input.unit_eq hnext, if_true, whileAdvancing_result, decide_true]
    rw [hrun]
    simp only [referenceDigits, if_true, Option.map_eq_some_iff, Option.map_eq_none_iff]
    refine ⟨?_, hnone⟩
    rintro base digits' ⟨ds, hds, heq⟩
    obtain ⟨rfl, rfl⟩ := Prod.mk.inj heq
    have hcurr : p.curr + 1 + 1 + digits.length + 1 = p.curr + (digits.length + 1) + 2 := by omega
    exact (hsome ds hds).trans (by simp only [List.length_cons, hcurr]; rfl)
  · have hunit : input.unit (p.curr + 1) ≠ unichar 'x' := by
      cases body with
      | nil =>
        rw [Input.unit_eq hnext]
        decide
      | cons c digits =>
        rw [Input.unit_eq hnext]
        rintro rfl
        exact hx ⟨digits, rfl⟩
    have hdigits : referenceDigits body = (body.mapM (radixDigit false)).map (10, ·) := by
      cases body with
      | nil => rfl
      | cons c digits =>
        rw [referenceDigits, if_neg]
        rintro rfl
        exact hx ⟨digits, rfl⟩
    obtain ⟨hsome, hnone⟩ := referenceLoop_result (p := { p with curr := p.curr + 1 }) false _ body tail
      hbody hnext (hloop false body { p with curr := p.curr + 1 } hbody hnext) 0
    have hrun : (parseCharacterReference input p).result = (Run.loop (characterReferenceStep input false)
        (input.length - (p.curr + 1) + 1) 0 { p with curr := p.curr + 1 }).result := by
      simp only [parseCharacterReference, result_bind, advance_result, currentIndex_result, ok_bind, deref_result,
        if_neg hunit, whileAdvancing_result, decide_eq_false hunit]
    rw [hrun, hdigits]
    simp only [Option.map_eq_some_iff, Option.map_eq_none_iff]
    refine ⟨?_, hnone⟩
    rintro base digits' ⟨ds, hds, heq⟩
    obtain ⟨rfl, rfl⟩ := Prod.mk.inj heq
    have hcurr : p.curr + 1 + body.length + 1 = p.curr + body.length + 2 := by omega
    exact (hsome ds hds).trans (by simp only [hcurr]; rfl)

/-- The result of a reference `&#…;`, by its digits and the units left. -/
theorem parseEntityReference_cases (hbody : ∀ c ∈ body, c ≠ unichar ';')
    (hrest : input.rest p.curr = unichar '&' :: unichar '#' :: (body ++ unichar ';' :: tail)) :
    (∃ base digits, referenceDigits body = some (base, digits) ∧ 4 ≤ unitsLeft input p ∧
      (parseEntityReference input p).result =
        .ok ([UInt16.ofNat (digitsValue base digits 0)], { p with curr := p.curr + body.length + 3 })) ∨
    ((referenceDigits body = none ∨ unitsLeft input p < 4) ∧
      ∃ p', (parseEntityReference input p).result = .ok ([], p') ∧ p'.error ≠ none) := by
  by_cases hlen : unitsLeft input p < 4
  · exact .inr ⟨.inr hlen, parseEntityReference_short hrest hlen⟩
  · rw [parseEntityReference_long hrest (by omega)]
    obtain ⟨hsome, hnone⟩ := parseCharacterReference_result (p := { p with curr := p.curr + 1 }) hbody
      (Input.rest_succ hrest)
    cases hdigits : referenceDigits body with
    | none => exact .inr ⟨.inl rfl, hnone hdigits⟩
    | some q =>
      refine .inl ⟨q.1, q.2, rfl, by omega, (hsome q.1 q.2 hdigits).trans ?_⟩
      have hcurr : p.curr + 1 + body.length + 2 = p.curr + body.length + 3 := by omega
      simp only [hcurr]

/-- A step of `getString` at a reference. -/
theorem getStringStep_reference {units : List UInt16} (hrest : input.rest p.curr = unichar '&' :: units)
    (herror : p.error = none) (mark : Nat) (string : Option (List UInt16)) :
    (getStringStep input (mark, string) p).result = (parseEntityReference input p).result.bind fun q =>
      .ok (.inl (q.2.curr, some (string.getD [] ++ input.slice mark (p.curr - mark) ++ q.1)), q.2) := by
  have hlt := Input.lt_length hrest
  simp +decide only [getStringStep, result_bind, get_result, ok_bind, herror, Option.isNone_none, hlt, and_self,
    deref_result, Input.unit_eq hrest, if_true, if_false, copyUnits_result, currentIndex_result, pure_result]

end Reference

/-- A reference in a string is read as it should be: the characters from `mark`
on and the units of the character it denotes are appended, or there is an
error. -/
structure ReadsReference (input : Input) (p : ParseInfo) (body : List UInt16) (mark : Nat)
    (string : Option (List UInt16)) : Prop where
  appended : ∀ c, ReferenceTo body c → (getStringStep input (mark, string) p).result =
    .ok (.inl (p.curr + body.length + 3,
      some (string.getD [] ++ input.slice mark (p.curr - mark) ++ utf16EncodeChar c)),
      { p with curr := p.curr + body.length + 3 })
  rejected : (∀ c, ¬ReferenceTo body c) →
    ∃ r p', (getStringStep input (mark, string) p).result = .ok (r, p') ∧ p'.error ≠ none

/-- A reference in a string is read as it should be exactly if, when it has
digits only, they denote a character up to U+FFFF and four units follow the
`&`, or they denote none and fewer than four units follow. -/
theorem parseEntityReference_reads_iff {input : Input} {p : ParseInfo} {body tail : List UInt16} {mark : Nat}
    {string : Option (List UInt16)} (hbody : ∀ c ∈ body, c ≠ unichar ';')
    (hrest : input.rest p.curr = unichar '&' :: unichar '#' :: (body ++ unichar ';' :: tail))
    (herror : p.error = none) :
    ReadsReference input p body mark string ↔ ∀ base digits, referenceDigits body = some (base, digits) →
      (4 ≤ unitsLeft input p ∧ digitsValue base digits 0 ≤ 0xFFFF ∧ ∃ c, DenotesChar base digits c) ∨
      (unitsLeft input p < 4 ∧ ∀ c, ¬DenotesChar base digits c) := by
  have hstep := getStringStep_reference hrest herror mark string
  rcases parseEntityReference_cases hbody hrest with ⟨base, digits, hdigits, hlen, hresult⟩ | ⟨hcase, p', hresult, hp'⟩
  · rw [hresult, ok_bind] at hstep
    have hto : ∀ c, ReferenceTo body c ↔ DenotesChar base digits c := by
      refine fun c => ⟨?_, fun h => ⟨base, digits, hdigits, h⟩⟩
      rintro ⟨base', digits', h, hdenotes⟩
      obtain ⟨rfl, rfl⟩ := Prod.mk.inj (Option.some.inj (hdigits.symm.trans h))
      exact hdenotes
    constructor
    · intro hreads base' digits' h
      obtain ⟨rfl, rfl⟩ := Prod.mk.inj (Option.some.inj (hdigits.symm.trans h))
      by_cases hany : ∃ c, DenotesChar base digits c
      · obtain ⟨c, hc⟩ := hany
        have happ := hreads.appended c ((hto c).mpr hc)
        rw [hstep] at happ
        injection happ with happ
        have hunits := congrArg (fun q => q.1) happ
        simp only [Sum.inl.injEq, Prod.mk.injEq, true_and, Option.some.injEq] at hunits
        have hunits := List.append_cancel_left hunits
        refine .inl ⟨hlen, ?_, c, hc⟩
        rw [hc.2]
        by_contra hbig
        rw [utf16EncodeChar, if_neg hbig] at hunits
        exact absurd (congrArg List.length hunits) (by simp)
      · obtain ⟨r, p', hr, hp'⟩ := hreads.rejected fun c h => hany ⟨c, (hto c).mp h⟩
        rw [hstep] at hr
        injection hr with hr
        exact absurd ((congrArg (fun q => q.2.error) hr).symm.trans herror) hp'
    · intro h
      obtain ⟨-, hsmall, c₀, hc₀⟩ := (h base digits hdigits).resolve_right fun hlt => by omega
      refine ⟨fun c hc => ?_, fun hnone => absurd ((hto c₀).mpr hc₀) (hnone c₀)⟩
      have hvalue := ((hto c).mp hc).2
      rw [hstep, utf16EncodeChar, if_pos (by omega), hvalue]
  · rw [hresult, ok_bind] at hstep
    constructor
    · intro hreads base digits hdigits
      have hshort := hcase.resolve_left (by rw [hdigits]; exact Option.some_ne_none _)
      refine .inr ⟨hshort, fun c hc => ?_⟩
      have happ := hreads.appended c ⟨base, digits, hdigits, hc⟩
      rw [hstep] at happ
      injection happ with happ
      exact hp' ((congrArg (fun q => q.2.error) happ).trans herror)
    · intro h
      refine ⟨fun c hc => ?_, fun _ => ⟨_, p', hstep, hp'⟩⟩
      obtain ⟨base, digits, hdigits, hdenotes⟩ := hc
      have hshort := hcase.resolve_left (by rw [hdigits]; exact Option.some_ne_none _)
      rcases h base digits hdigits with ⟨hlen, -, -⟩ | ⟨-, hnot⟩
      · omega
      · exact absurd hdenotes (hnot c)

/-- `&#233;` in a string. -/
theorem reference_latin : ReadsReference (plainInput ("&#233;</string>".toList.map unichar)) ⟨0, none⟩
    ("233".toList.map unichar) 0 none := by
  have hrest : (plainInput ("&#233;</string>".toList.map unichar)).rest 0 = unichar '&' :: unichar '#' ::
      ("233".toList.map unichar ++ unichar ';' :: "</string>".toList.map unichar) := by decide
  refine (parseEntityReference_reads_iff (forall_mem_of_all (by decide)) hrest rfl).mpr fun base digits h => ?_
  obtain ⟨rfl, rfl⟩ : 10 = base ∧ [2, 3, 3] = digits := Prod.mk.inj (Option.some.inj h)
  exact .inl ⟨by decide, by decide, 'é', by decide, by decide⟩

/-- `&#x1F600;` in a string becomes the unit 0xF600. -/
theorem reference_beyond_uint16 :
    ReferenceTo ("x1F600".toList.map unichar) '😀' ∧
    (getStringStep (plainInput ("&#x1F600;</string>".toList.map unichar)) (0, none) ⟨0, none⟩).result =
      .ok (.inl (9, some [0xF600]), ⟨9, none⟩) ∧
    utf16EncodeChar '😀' = [0xD83D, 0xDE00] := by
  have hrest : (plainInput ("&#x1F600;</string>".toList.map unichar)).rest 0 = unichar '&' :: unichar '#' ::
      ("x1F600".toList.map unichar ++ unichar ';' :: "</string>".toList.map unichar) := by decide
  have hdigits : referenceDigits ("x1F600".toList.map unichar) = some (16, [1, 15, 6, 0, 0]) := by decide
  refine ⟨⟨16, [1, 15, 6, 0, 0], hdigits, by decide, by decide⟩, ?_, by decide⟩
  rw [getStringStep_reference hrest rfl]
  rcases parseEntityReference_cases (p := ⟨0, none⟩) (forall_mem_of_all (by decide)) hrest with ⟨_, _, h, -, hresult⟩ | ⟨h, -⟩
  · obtain ⟨rfl, rfl⟩ := Prod.mk.inj (Option.some.inj (hdigits.symm.trans h))
    rw [hresult]
    rfl
  · exact absurd h (by rw [hdigits]; decide)

end CFLite.TextPlist
