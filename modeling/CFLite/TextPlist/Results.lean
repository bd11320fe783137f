import CFLite.TextPlist.XML

/-!
# What steps of the parsers result in

The results of the primitive operations and of the loops that several elements
use, without the events. `Input.rest` is the text from the cursor on; a step
that reads a unit looks at the first one of it.

* `result_bind`: a sequence of two steps;
* `loop_result`: one round of a loop;
* `skipUnits_result`: the cursor moves past the units of a kind;
* `checkForCloseTag_result`: a closing tag is passed over.
-/

namespace CFLite.TextPlist

open CFLite.Framework

/-! ## The rest of the text -/

namespace Input

variable {input : Input}

/-- The text from the `i`th unit on. -/
def rest (input : Input) (i : Nat) : List UInt16 := input.text.drop i

theorem length_rest (input : Input) (i : Nat) : (input.rest i).length = input.length - i := List.length_drop

theorem lt_length {i : Nat} {c : UInt16} {tail : List UInt16} (h : input.rest i = c :: tail) : i < input.length := by
  have hlen := congrArg List.length h
  rw [length_rest, List.length_cons] at hlen
  omega

theorem unit_eq {i : Nat} {c : UInt16} {tail : List UInt16} (h : input.rest i = c :: tail) : input.unit i = c := by
  have hget : input.text[i]? = some c := by
    rw [← List.head?_drop]
    exact congrArg List.head? h
  rw [unit, List.getD_eq_getElem?_getD, hget, Option.getD_some]

theorem rest_add {i : Nat} {xs ys : List UInt16} (h : input.rest i = xs ++ ys) : input.rest (i + xs.length) = ys := by
  rw [rest, ← List.drop_drop, ← rest, h, List.drop_left]

theorem rest_succ {i : Nat} {c : UInt16} {tail : List UInt16} (h : input.rest i = c :: tail) :
    input.rest (i + 1) = tail :=
  rest_add (show input.rest i = [c] ++ tail from h)

theorem length_le_of_rest {i : Nat} (h : input.rest i = []) : input.length ≤ i := by
  have hlen := congrArg List.length h
  rw [length_rest, List.length_nil] at hlen
  omega

end Input

/-- What computes to true of every unit of a text holds of them. -/
theorem forall_mem_of_all {α : Type} {p : α → Prop} [DecidablePred p] {l : List α} (h : l.all (fun a => decide (p a)) = true) :
    ∀ a ∈ l, p a := fun a ha => of_decide_eq_true (List.all_eq_true.mp h a ha)

/-- A text that is parsed with no options, by itself in memory. -/
def plainInput (text : List UInt16) : Input where
  text := text
  beyond := fun _ => 0
  beyondDecodeTable := fun _ => 0
  beyondMonths := fun _ => 0
  mutabilityOption := .immutable
  allowNewTypes := true
  allowImmutableCollections := false
  library := ⟨fun _ => none, fun a b => a = b, fun _ => none, fun _ => 0⟩

/-! ## Numbers in the text -/

/-- The base of decimal and hexadecimal numbers. -/
def radix (isHex : Bool) : Nat := if isHex then 16 else 10

/-- A digit of a decimal or hexadecimal number. -/
def radixDigit (isHex : Bool) (ch : UInt16) : Option Nat := if isHex ∨ isDigit ch then digitValue ch else none

/-- The number that digits stand for, after those of `num`. -/
def digitsValue (base : Nat) (digits : List Nat) (num : Nat) : Nat :=
  digits.foldl (fun num digit => num * base + digit) num

/-! ## Sequences and primitive operations -/

section Primitive

variable {ε σ α β : Type}

theorem result_bind (x : Run ε σ α) (f : α → Run ε σ β) (s : σ) :
    ((x >>= f) s).result = (x s).result.bind fun q => (f q.1 q.2).result := by
  rw [Run.bind_apply]
  cases h : (x s).result with
  | ok q => rw [Outcome.andThen_of_ok h]; rfl
  | error e => rw [Outcome.andThen_of_error h]; rfl

theorem ok_bind {γ : Type} (a : α) (f : α → Except Abort γ) : (Except.ok a : Except Abort α).bind f = f a := rfl

theorem pure_result (a : α) (s : σ) : ((pure a : Run ε σ α) s).result = .ok (a, s) := rfl

/-- A round of a loop. -/
theorem loop_result (body : α → Run ε σ (α ⊕ β)) (n : Nat) (a : α) (s : σ) :
    (Run.loop body (n + 1) a s).result = (body a s).result.bind fun q =>
      match q.1 with
      | .inl a' => (Run.loop body n a' q.2).result
      | .inr b => .ok (b, q.2) := by
  rw [Run.loop_succ, result_bind]
  congr 1
  funext q
  obtain ⟨a' | b, s'⟩ := q <;> rfl

end Primitive

section Steps

variable (input : Input) (p : ParseInfo)

theorem get_result : ((Run.get : Parse ParseInfo) p).result = .ok (p, p) := rfl

theorem currentIndex_result : (currentIndex p).result = .ok (p.curr, p) := rfl

theorem setCurr_result (i : Nat) : (setCurr i p).result = .ok ((), { p with curr := i }) := rfl

theorem advance_result (n : Nat) : (advance n p).result = .ok ((), { p with curr := p.curr + n }) := rfl

theorem deref_result (i : Nat) : (deref input i p).result = .ok (input.unit i, p) := rfl

theorem visit_result (site : Site) : (visit site p).result = .ok ((), p) := rfl

theorem copyUnits_result (start stop : Nat) :
    (copyUnits input start stop p).result = .ok (input.slice start (stop - start), p) := rfl

theorem setError_result (debugString : String) (arguments : List ErrorArgument) :
    (setError debugString arguments p).result =
      .ok ((), { p with error := some ⟨kCFPropertyListReadCorruptError, debugString, arguments⟩ }) := rfl

theorem whileAdvancing_result {α β : Type} (body : α → Parse (α ⊕ β)) (a : α) :
    (whileAdvancing input body a p).result = (Run.loop body (input.length - p.curr + 1) a p).result := rfl

/-! ## Lines and errors -/

/-- A loop that does not move the cursor and goes on from a larger number each
time ends. -/
theorem countLines_ends (curr : Nat) (n : Nat) (q : Nat × Nat) (hn : curr - q.1 < n) :
    ∃ count, (Run.loop (countLines input curr) n q p).result = .ok (count, p) := by
  induction n generalizing q with
  | zero => omega
  | succ n ih =>
    rw [loop_result]
    by_cases hq : q.1 < curr
    · obtain ⟨q', hq', hlt⟩ : ∃ q', (countLines input curr q p).result = .ok (.inl q', p) ∧ q.1 < q'.1 := by
        simp only [countLines, if_pos hq, result_bind, deref_result, ok_bind]
        split
        · simp only [result_bind, deref_result, ok_bind]
          refine ⟨_, rfl, ?_⟩
          dsimp only
          split <;> omega
        · split
          · exact ⟨_, rfl, Nat.lt_succ_self _⟩
          · exact ⟨_, rfl, Nat.lt_succ_self _⟩
      rw [hq', ok_bind]
      exact ih q' (by omega)
    · refine ⟨q.2, ?_⟩
      simp only [countLines, if_neg hq]
      rfl

/-- The number that `lineNumber` returns. -/
def lineOf : Nat :=
  match (lineNumber input p).result with
  | .ok (line, _) => line
  | .error _ => 0

theorem lineNumber_result : (lineNumber input p).result = .ok (lineOf input p, p) := by
  obtain ⟨count, hcount⟩ := countLines_ends input p p.curr (p.curr + 1) (0, 1) (by omega)
  have hline : (lineNumber input p).result = .ok (count % 2 ^ 32, p) := by
    simp only [lineNumber, result_bind, visit_result, currentIndex_result, ok_bind, hcount, pure_result]
  rw [lineOf, hline]

theorem setLineError_result (debugString : String) (arguments : List ErrorArgument) :
    (setLineError input debugString arguments p).result =
      .ok ((), { p with error := some ⟨kCFPropertyListReadCorruptError, debugString,
        arguments ++ [.line (lineOf input p)]⟩ }) := by
  simp only [setLineError, result_bind, lineNumber_result, ok_bind, setError_result]

theorem unexpectedEOF_result : (unexpectedEOF p).result =
    .ok ((), { p with error := some ⟨kCFPropertyListReadCorruptError, "Encountered unexpected EOF", []⟩ }) := rfl

theorem unlessError_result (x : Parse Unit) :
    (unlessError x p).result = if p.error.isNone then (x p).result else .ok ((), p) := by
  rw [unlessError, result_bind, get_result, ok_bind]
  split <;> rfl

/-! ## Reading ahead -/

variable {input p}

theorem followedBy_result {i : Nat} {cs tail : List UInt16} (h : input.rest i = cs ++ tail) :
    (followedBy input i cs p).result = .ok (true, p) := by
  induction cs generalizing i with
  | nil => rfl
  | cons c cs ih =>
    simp only [followedBy, result_bind, deref_result, ok_bind, Input.unit_eq h, if_true]
    exact ih (Input.rest_succ h)

theorem compareUnits_result {buf : Nat} {units tail : List UInt16} (h : input.rest buf = units.reverse ++ tail) :
    (matchString.compareUnits input buf units p).result = .ok (true, p) := by
  induction units generalizing tail with
  | nil => rfl
  | cons unit units ih =>
    rw [List.reverse_cons, List.append_assoc, List.singleton_append] at h
    have hunit := Input.unit_eq (Input.rest_add h)
    rw [List.length_reverse] at hunit
    simp only [matchString.compareUnits, result_bind, deref_result, ok_bind, hunit, ne_eq, not_true, if_false]
    exact ih h

theorem matchString_result {buf : Nat} {units tail : List UInt16} (h : input.rest buf = units ++ tail) :
    (matchString input buf units p).result = .ok (true, p) :=
  compareUnits_result (by rwa [List.reverse_reverse])

/-- The loop of `skipUnits` over units of the kind. -/
theorem skipUnits_loop (kind : UInt16 → Bool) (n : Nat) (xs : List UInt16) (hrest : input.rest p.curr = xs)
    (hn : xs.length < n) :
    (Run.loop (fun () => do
      let curr ← currentIndex
      if curr < input.length then
        if kind (← deref input curr) then
          advance 1
          return .inl ()
        else return .inr ()
      else return .inr () : Unit → Parse (Unit ⊕ Unit)) n () p).result =
      .ok ((), { p with curr := p.curr + (xs.takeWhile kind).length }) := by
  induction n generalizing xs p with
  | zero => omega
  | succ n ih =>
    rw [loop_result]
    cases xs with
    | nil =>
      have hend := Input.length_le_of_rest hrest
      simp only [result_bind, currentIndex_result, ok_bind, if_neg (Nat.not_lt.mpr hend), pure_result,
        List.takeWhile_nil, List.length_nil, Nat.add_zero]
    | cons c xs =>
      have hlt := Input.lt_length hrest
      rw [List.takeWhile_cons]
      cases hkind : kind c with
      | true =>
        have hlen : xs.length < n := by
          rw [List.length_cons] at hn
          omega
        have hnext := ih (p := { p with curr := p.curr + 1 }) xs (Input.rest_succ hrest) hlen
        simp only [result_bind, currentIndex_result, ok_bind, if_pos hlt, deref_result, Input.unit_eq hrest, hkind,
          if_true, advance_result, pure_result, hnext, List.length_cons]
        rw [Nat.add_assoc, Nat.add_comm 1]
      | false =>
        simp only [result_bind, currentIndex_result, ok_bind, if_pos hlt, deref_result, Input.unit_eq hrest, hkind,
          Bool.false_eq_true, if_false, pure_result, List.length_nil, Nat.add_zero]

/-- The cursor moves past the units of a kind. -/
theorem skipUnits_result (kind : UInt16 → Bool) :
    (skipUnits input kind p).result =
      .ok ((), { p with curr := p.curr + ((input.rest p.curr).takeWhile kind).length }) := by
  rw [skipUnits, whileAdvancing_result]
  refine skipUnits_loop kind _ _ rfl ?_
  rw [Input.length_rest]
  omega

theorem skipWhitespace_eq (input : Input) : skipWhitespace input = skipUnits input isXMLSpace := rfl

/-! ## Closing tags -/

/-- A closing tag, with the white space it may have before its `>`. -/
def closeTag (tag : Tag) (spaces : List UInt16) : List UInt16 :=
  unichar '<' :: unichar '/' :: (tag.chars ++ (spaces ++ [unichar '>']))

theorem length_closeTag (tag : Tag) (spaces : List UInt16) :
    (closeTag tag spaces).length = tag.chars.length + spaces.length + 3 := by
  simp only [closeTag, List.length_cons, List.length_append, List.length_nil]
  omega

/-- A closing tag is passed over. -/
theorem checkForCloseTag_result {tag : Tag} {spaces tail : List UInt16} (hspaces : ∀ c ∈ spaces, isXMLSpace c = true)
    (h : input.rest p.curr = closeTag tag spaces ++ tail) :
    (checkForCloseTag input tag.chars p).result =
      .ok (true, { p with curr := p.curr + (closeTag tag spaces).length }) := by
  have hlen := congrArg List.length h
  rw [Input.length_rest, List.length_append, length_closeTag] at hlen
  rw [closeTag, List.cons_append, List.cons_append, List.append_assoc, List.append_assoc, List.singleton_append] at h
  have hopen := Input.unit_eq h
  have hslash := Input.rest_succ h
  have hname := Input.rest_succ hslash
  have hspace := Input.rest_add hname
  have hgt := Input.rest_add hspace
  have htake : (input.rest (p.curr + 1 + 1 + tag.chars.length)).takeWhile isXMLSpace = spaces := by
    rw [hspace, List.takeWhile_append_of_pos hspaces, List.takeWhile_cons_of_neg (by decide), List.append_nil]
  have hlt := Input.lt_length hgt
  rw [checkForCloseTag]
  simp only [result_bind, currentIndex_result, ok_bind]
  rw [if_neg (by omega)]
  simp only [result_bind, deref_result, ok_bind, hopen, ne_eq, not_true, if_false, advance_result, Input.unit_eq hslash,
    matchString_result hname, if_true, skipWhitespace_eq, skipUnits_result, htake, currentIndex_result]
  rw [if_neg (Nat.ne_of_lt hlt)]
  simp only [result_bind, deref_result, ok_bind, Input.unit_eq hgt, not_true, if_false, advance_result, pure_result]
  rw [length_closeTag]
  congr 3
  omega

theorem closing_result {tag : Tag} {spaces tail : List UInt16} (hspaces : ∀ c ∈ spaces, isXMLSpace c = true)
    (h : input.rest p.curr = closeTag tag spaces ++ tail) (object : Parsed) :
    (closing input tag object p).result =
      .ok (some object, { p with curr := p.curr + (closeTag tag spaces).length }) := by
  simp only [closing, result_bind, checkForCloseTag_result hspaces h, ok_bind, if_true, pure_result]

end Steps

end CFLite.TextPlist
