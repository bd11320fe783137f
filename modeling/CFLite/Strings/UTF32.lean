import CFLite.Strings.EncodingRoundTrip

/-!
# UTF-32

`CFUniCharToUTF32` and `CFUniCharFromUTF32` convert between UTF-16 units and
characters of 32 bits in either byte order.

* `fromUTF32_scalar`: a scalar value is read as its units, but for U+FFFF;
* `fromUTF32_strict`, `fromUTF32_lossy`: what becomes of a sequence of values;
* `toUTF32_characters`: the characters of well-formed units.
-/

namespace CFLite.Strings

open Framework

/-! ## The code -/

/-- `CFUniCharToUTF32`: whether it succeeds, and the words that it writes. -/
def toUTF32 (allowLossy isBigEndian : Bool) : List UniChar → Bool × List Nat
  | [] => (true, [])
  | [character] =>
    let put (character : Nat) (rest : Bool × List Nat) :=
      (rest.1, (if isBigEndian then swapInt32 character else character) :: rest.2)
    if IsHighSurrogate character.toNat ∨ IsLowSurrogate character.toNat then
      if allowLossy then put 0xFFFD (true, []) else (false, [])
    else put character.toNat (true, [])
  | character :: next :: src =>
    let put (character : Nat) (rest : Bool × List Nat) :=
      (rest.1, (if isBigEndian then swapInt32 character else character) :: rest.2)
    if IsHighSurrogate character.toNat then
      if IsLowSurrogate next.toNat then
        put (longCharacterForSurrogatePair character.toNat next.toNat) (toUTF32 allowLossy isBigEndian src)
      else if allowLossy then put 0xFFFD (toUTF32 allowLossy isBigEndian (next :: src))
      else (false, [])
    else if IsLowSurrogate character.toNat then
      if allowLossy then put 0xFFFD (toUTF32 allowLossy isBigEndian (next :: src)) else (false, [])
    else put character.toNat (toUTF32 allowLossy isBigEndian (next :: src))

/-- Words in the host's order, of words in the order that is told. -/
def hostWords (isBigEndian : Bool) (src : List Nat) : List Nat := if isBigEndian then src.map swapInt32 else src

/-! ## Values -/

/-- A Unicode scalar value. -/
def IsScalarValue (value : Nat) : Prop := value < 0xD800 ∨ (0xDFFF < value ∧ value < 0x110000)

instance (value : Nat) : Decidable (IsScalarValue value) := inferInstanceAs (Decidable (_ ∨ _))

/-- The units of a scalar value. -/
def scalarUnits (value : Nat) : List UniChar :=
  if value ≤ 0xFFFF then [UInt16.ofNat value]
  else [UInt16.ofNat (0xD800 + (value - 0x10000) / 1024), UInt16.ofNat (0xDC00 + (value - 0x10000) % 1024)]

/-- The units of a sequence of values, in which what is no scalar value is replaced;
a high surrogate and a low one after it are kept as the pair they are. -/
def replaceOffending : List Nat → List UniChar
  | [] => []
  | [value] => if IsScalarValue value then scalarUnits value else [0xFFFD]
  | value :: next :: values =>
    if IsHighSurrogate value ∧ IsLowSurrogate next then
      UInt16.ofNat value :: UInt16.ofNat next :: replaceOffending values
    else (if IsScalarValue value then scalarUnits value else [0xFFFD]) ++ replaceOffending (next :: values)

theorem isScalarValue_iff (value : Nat) :
    IsScalarValue value ↔ ¬IsHighSurrogate value ∧ ¬IsLowSurrogate value ∧ value < 0x110000 := by
  unfold IsScalarValue IsHighSurrogate IsLowSurrogate
  omega

/-- What a scalar value is read as: U+FFFF goes the way of the values past it. -/
def unitsRead (value : Nat) : List UniChar := if value = 0xFFFF then [0xD7FF, 0xDFFF] else scalarUnits value

theorem length_unitsRead (value : Nat) :
    (unitsRead value).length = (scalarUnits value).length + if value = 0xFFFF then 1 else 0 := by
  unfold unitsRead
  split
  · rename_i heq
    rw [heq]
    rfl
  · rfl

/-- A scalar value is read as its units, but for U+FFFF. -/
theorem fromUTF32_scalar (allowLossy : Bool) {value : Nat} (h : IsScalarValue value) (values : List Nat) :
    fromUTF32 allowLossy (value :: values) =
      ((fromUTF32 allowLossy values).1, unitsRead value ++ (fromUTF32 allowLossy values).2) := by
  obtain ⟨hhigh, hlow, hlt⟩ := (isScalarValue_iff value).mp h
  rw [fromUTF32]
  simp only [hhigh, hlow, or_self, ↓reduceIte, unitsRead]
  by_cases hbmp : value < 0xFFFF
  · have hne : value ≠ 0xFFFF := by omega
    have hle : value ≤ 0xFFFF := by omega
    rw [if_pos hbmp, if_neg hne, scalarUnits, if_pos hle, ite_self]
  · rw [if_neg hbmp, if_pos hlt]
    by_cases hlast : value = 0xFFFF
    · rw [if_pos hlast, hlast]
      rfl
    · have hpast : (value + 2 ^ 32 - 0x10000) % 2 ^ 32 = value - 0x10000 := by omega
      rw [if_neg hlast, scalarUnits, if_neg (by omega), hpast, Nat.shiftRight_eq_div_pow,
        show (0x3FF : Nat) = 2 ^ 10 - 1 from rfl, Nat.and_two_pow_sub_one_eq_mod, Nat.add_comm 0xD800,
        Nat.add_comm 0xDC00]

/-- Any other value is refused, where the conversion is strict. -/
theorem fromUTF32_refused {value : Nat} (h : ¬IsScalarValue value) (values : List Nat) :
    fromUTF32 false (value :: values) = (false, []) := by
  rw [fromUTF32]
  unfold IsScalarValue at h
  by_cases hbmp : value < 0xFFFF
  · have hsurrogate : IsHighSurrogate value ∨ IsLowSurrogate value := by
      unfold IsHighSurrogate IsLowSurrogate
      omega
    simp only [hbmp, hsurrogate, Bool.false_eq_true, ↓reduceIte]
  · rw [if_neg hbmp, if_neg (by omega)]
    rfl

/-- Any other value is replaced, unless it begins a pair. -/
theorem fromUTF32_replaced {value : Nat} (h : ¬IsScalarValue value) {values : List Nat}
    (hpair : IsHighSurrogate value → ∀ next ∈ values.head?, ¬IsLowSurrogate next) :
    fromUTF32 true (value :: values) = ((fromUTF32 true values).1, 0xFFFD :: (fromUTF32 true values).2) := by
  rw [fromUTF32]
  unfold IsScalarValue at h
  by_cases hbmp : value < 0xFFFF
  · rw [if_pos hbmp, if_pos rfl]
    by_cases hhigh : IsHighSurrogate value
    · rw [if_pos hhigh]
      cases values with
      | nil => rfl
      | cons next values =>
        have hnext : ¬(next < 0x10000 ∧ IsLowSurrogate next) := fun hlow => hpair hhigh next rfl hlow.2
        simp only [List.head?_cons, hnext, ↓reduceIte]
        rfl
    · have hlow : IsLowSurrogate value := by
        unfold IsHighSurrogate at hhigh
        unfold IsLowSurrogate
        omega
      rw [if_neg hhigh, if_pos hlow]
      rfl
  · rw [if_neg hbmp, if_neg (by omega), if_pos rfl]
    rfl

/-- A pair of surrogate values is kept. -/
theorem fromUTF32_pair {high low : Nat} (hhigh : IsHighSurrogate high) (hlow : IsLowSurrogate low) (values : List Nat) :
    fromUTF32 true (high :: low :: values) =
      ((fromUTF32 true values).1, UInt16.ofNat high :: UInt16.ofNat low :: (fromUTF32 true values).2) := by
  have hbmp : high < 0xFFFF := by
    unfold IsHighSurrogate at hhigh
    omega
  have hlow' : low < 0x10000 ∧ IsLowSurrogate low := ⟨by unfold IsLowSurrogate at hlow; omega, hlow⟩
  rw [fromUTF32]
  simp only [hbmp, hhigh, hlow', List.head?_cons, and_self, ↓reduceIte, List.tail_cons]
  rfl

/-! ## Sequences -/

/-- The strict conversion succeeds on scalar values only, of which U+FFFF gives a
unit more than it has. -/
theorem fromUTF32_strict (values : List Nat) :
    ((fromUTF32 false values).1 = true ↔ ∀ value ∈ values, IsScalarValue value) ∧
      ((∀ value ∈ values, IsScalarValue value) →
        (fromUTF32 false values).2.length = (values.flatMap scalarUnits).length + values.count 0xFFFF ∧
          (0xFFFF ∉ values → (fromUTF32 false values).2 = values.flatMap scalarUnits)) := by
  induction values with
  | nil =>
    rw [fromUTF32]
    exact ⟨iff_of_true rfl (by simp), fun _ => ⟨rfl, fun _ => rfl⟩⟩
  | cons value values ih =>
    by_cases hvalue : IsScalarValue value
    · rw [fromUTF32_scalar false hvalue, List.forall_mem_cons, List.flatMap_cons]
      refine ⟨ih.1.trans ⟨fun h => ⟨hvalue, h⟩, fun h => h.2⟩, fun hall => ?_⟩
      obtain ⟨hlength, hunits⟩ := ih.2 hall.2
      constructor
      · rw [List.length_append, List.length_append, hlength, length_unitsRead, List.count_cons]
        simp only [beq_iff_eq]
        omega
      · intro hmem
        have hne := List.ne_of_not_mem_cons hmem
        rw [hunits (List.not_mem_of_not_mem_cons hmem), unitsRead, if_neg (Ne.symm hne)]
    · rw [fromUTF32_refused hvalue, List.forall_mem_cons]
      exact ⟨iff_of_false (by simp) fun h => hvalue h.1, fun h => absurd h.1 hvalue⟩

/-- A value that is replaced, and the rest. -/
theorem replaceOffending_cons {value : Nat} {values : List Nat}
    (h : IsHighSurrogate value → ∀ next ∈ values.head?, ¬IsLowSurrogate next) :
    replaceOffending (value :: values) =
      (if IsScalarValue value then scalarUnits value else [0xFFFD]) ++ replaceOffending values := by
  cases values with
  | nil => rw [replaceOffending, replaceOffending, List.append_nil]
  | cons next values => rw [replaceOffending, if_neg fun hpair => h hpair.1 next rfl hpair.2]

/-- The lossy conversion always succeeds, and U+FFFF gives a unit more than it has. -/
theorem fromUTF32_lossy (values : List Nat) :
    (fromUTF32 true values).1 = true ∧
      (fromUTF32 true values).2.length = (replaceOffending values).length + values.count 0xFFFF ∧
        (0xFFFF ∉ values → (fromUTF32 true values).2 = replaceOffending values) := by
  induction hn : values.length using Nat.strong_induction_on generalizing values with
  | _ n ih =>
    cases values with
    | nil =>
      rw [fromUTF32]
      exact ⟨rfl, rfl, fun _ => rfl⟩
    | cons value values =>
      by_cases hpair : IsHighSurrogate value → ∀ next ∈ values.head?, ¬IsLowSurrogate next
      · obtain ⟨hok, hlength, hunits⟩ := ih values.length (hn ▸ Nat.lt_succ_self _) values rfl
        rw [replaceOffending_cons hpair]
        by_cases hvalue : IsScalarValue value
        · rw [fromUTF32_scalar true hvalue, if_pos hvalue]
          refine ⟨hok, ?_, fun hmem => ?_⟩
          · rw [List.length_append, List.length_append, hlength, length_unitsRead, List.count_cons]
            simp only [beq_iff_eq]
            omega
          · have hne := List.ne_of_not_mem_cons hmem
            rw [hunits (List.not_mem_of_not_mem_cons hmem), unitsRead, if_neg (Ne.symm hne)]
        · have hne : value ≠ 0xFFFF := by
            rintro rfl
            exact hvalue (by decide)
          rw [fromUTF32_replaced hvalue hpair, if_neg hvalue]
          refine ⟨hok, ?_, fun hmem => congrArg _ (hunits (List.not_mem_of_not_mem_cons hmem))⟩
          rw [List.length_append, List.length_cons, hlength, List.count_cons_of_ne hne, List.length_singleton]
          omega
      · obtain ⟨hhigh, hlow⟩ := Classical.not_imp.mp hpair
        cases values with
        | nil => exact absurd (fun next h => by cases h) hlow
        | cons low values =>
          have hlow : IsLowSurrogate low := by
            by_contra hnot
            refine hlow fun next hnext => ?_
            obtain rfl : low = next := Option.some.inj hnext
            exact hnot
          have hne : value ≠ 0xFFFF ∧ low ≠ 0xFFFF := by
            unfold IsHighSurrogate at hhigh
            unfold IsLowSurrogate at hlow
            omega
          obtain ⟨hok, hlength, hunits⟩ :=
            ih values.length (by rw [← hn, List.length_cons, List.length_cons]; omega) values rfl
          rw [fromUTF32_pair hhigh hlow, replaceOffending, if_pos ⟨hhigh, hlow⟩]
          refine ⟨hok, ?_, fun hmem => ?_⟩
          · rw [List.length_cons, List.length_cons, List.length_cons, List.length_cons, hlength,
              List.count_cons_of_ne hne.1, List.count_cons_of_ne hne.2]
            omega
          · rw [hunits (List.not_mem_of_not_mem_cons (List.not_mem_of_not_mem_cons hmem))]

/-- The characters of units that have only whole pairs. -/
theorem toUTF32_characters (allowLossy isBigEndian : Bool) (cs : List Char) :
    toUTF32 allowLossy isBigEndian (utf16Encode cs) = (true, cs.map (characterWord isBigEndian)) := by
  induction cs with
  | nil => rfl
  | cons c cs ih =>
    rw [utf16Encode_cons, List.map_cons]
    by_cases hc : c.toNat ≤ 0xFFFF
    · obtain ⟨unit, hunits, hunit, hhigh, hlow⟩ := utf16EncodeChar_one hc
      rw [hunits, List.singleton_append]
      cases hrest : utf16Encode cs with
      | nil =>
        rw [hrest] at ih
        obtain ⟨-, hnil⟩ := Prod.mk.inj ih
        rw [toUTF32, if_neg (not_or.mpr ⟨hhigh, hlow⟩), hunit, ← hnil]
        rfl
      | cons next units =>
        rw [toUTF32, if_neg hhigh, if_neg hlow, ← hrest, ih, hunit]
        rfl
    · obtain ⟨high, low, hunits, hhigh, hlow, hhv, hlv⟩ := utf16EncodeChar_two hc
      rw [hunits, List.cons_append, List.singleton_append, toUTF32, if_pos hhigh, if_pos hlow, ih,
        longCharacter_eq hc hhv hlv]
      rfl

theorem hostWords_characterWord (isBigEndian : Bool) (cs : List Char) :
    hostWords isBigEndian (cs.map (characterWord isBigEndian)) = cs.map Char.toNat := by
  cases isBigEndian with
  | false => rfl
  | true =>
    refine (List.map_map).trans (List.map_congr_left fun c _ => characterWord_back true c)

/-! ## The conversions -/

/-- What the conversion of a sequence of words is to do: strict, it succeeds on
scalar values only, and writes their units; lossy, it replaces what is no scalar
value. -/
def ConvertsRight (isBigEndian : Bool) (src : List UInt32) : Prop :=
  let values := hostWords isBigEndian (src.map UInt32.toNat)
  ((fromUTF32 false values).1 = true ↔ ∀ value ∈ values, IsScalarValue value) ∧
  ((fromUTF32 false values).1 = true → (fromUTF32 false values).2 = values.flatMap scalarUnits) ∧
  fromUTF32 true values = (true, replaceOffending values)

/-- Units come back from the characters they are converted to. -/
def RoundTrips (isBigEndian : Bool) (units : List UniChar) : Prop :=
  ∃ words, toUTF32 false isBigEndian units = (true, words) ∧
    fromUTF32 false (hostWords isBigEndian words) = (true, units)

theorem flatMap_scalarUnits (cs : List Char) : (cs.map Char.toNat).flatMap scalarUnits = utf16Encode cs :=
  List.flatMap_map _ _ _

theorem mem_utf16Encode_last (cs : List Char) : 0xFFFF ∈ utf16Encode cs ↔ 0xFFFF ∈ cs.map Char.toNat := by
  rw [utf16Encode, List.mem_flatMap, List.mem_map]
  refine exists_congr fun c => and_congr_right fun _ => ?_
  by_cases hc : c.toNat ≤ 0xFFFF
  · obtain ⟨unit, hunits, hunit, -⟩ := utf16EncodeChar_one hc
    rw [hunits, List.mem_singleton, ← hunit, eq_comm, ← UInt16.toNat_inj]
    rfl
  · obtain ⟨high, low, hunits, hhigh, hlow, -⟩ := utf16EncodeChar_two hc
    rw [hunits, List.mem_cons, List.mem_singleton]
    refine ⟨fun h => ?_, fun h => by omega⟩
    rcases h with rfl | rfl
    · exact absurd hhigh (by decide)
    · exact absurd hlow (by decide)

/-- The conversions are right on all sequences but those with U+FFFF. -/
theorem convertsRight_iff (isBigEndian : Bool) :
    (∀ src : List UInt32, ConvertsRight isBigEndian src ↔
      0xFFFF ∉ hostWords isBigEndian (src.map UInt32.toNat)) ∧
    ∀ units, WellFormedUtf16 units → (RoundTrips isBigEndian units ↔ 0xFFFF ∉ units) := by
  refine ⟨fun src => ?_, fun units hunits => ?_⟩
  · unfold ConvertsRight
    generalize hostWords isBigEndian (src.map UInt32.toNat) = values
    obtain ⟨hstrict, hscalars⟩ := fromUTF32_strict values
    obtain ⟨hok, hlength, hlossy⟩ := fromUTF32_lossy values
    constructor
    · rintro ⟨-, -, heq⟩ hmem
      rw [heq] at hlength
      have hcount := List.count_pos_iff.mpr hmem
      dsimp only at hlength
      omega
    · intro hmem
      exact ⟨hstrict, fun hsome => (hscalars (hstrict.mp hsome)).2 hmem, Prod.ext hok (hlossy hmem)⟩
  · obtain ⟨cs, rfl⟩ := (wellFormedUtf16_iff units).mp hunits
    have hscalar : ∀ value ∈ cs.map Char.toNat, IsScalarValue value := by
      intro value hvalue
      obtain ⟨c, -, rfl⟩ := List.mem_map.mp hvalue
      exact char_valid c
    obtain ⟨hstrict, hscalars⟩ := fromUTF32_strict (cs.map Char.toNat)
    obtain ⟨hlength, hback⟩ := hscalars hscalar
    have hmem := (mem_utf16Encode_last cs).symm
    rw [flatMap_scalarUnits] at hlength hback
    constructor
    · rintro ⟨words, hto, hfrom⟩ hunit
      rw [toUTF32_characters] at hto
      obtain ⟨-, rfl⟩ := Prod.mk.inj hto
      rw [hostWords_characterWord] at hfrom
      rw [hfrom] at hlength
      have hcount := List.count_pos_iff.mpr (hmem.mpr hunit)
      dsimp only at hlength
      omega
    · intro hunit
      refine ⟨_, toUTF32_characters false isBigEndian cs, ?_⟩
      rw [hostWords_characterWord]
      exact Prod.ext (hstrict.mpr hscalar) (hback fun h => hunit (hmem.mp h))

/-- "a" and a character beyond the first plane. -/
theorem convertsRight_iff_letters :
    (ConvertsRight true [0x61000000, 0x00F60100] ↔
      0xFFFF ∉ hostWords true ([0x61000000, 0x00F60100].map UInt32.toNat)) ∧
    (RoundTrips false [0x61, 0xD83D, 0xDE00] ↔ 0xFFFF ∉ ([0x61, 0xD83D, 0xDE00] : List UniChar)) :=
  ⟨(convertsRight_iff true).1 _, (convertsRight_iff false).2 [0x61, 0xD83D, 0xDE00]
    ((wellFormedUtf16_iff _).mpr ⟨['a', Char.ofNat 0x1F600], by decide⟩)⟩

theorem convertsRight_last : ¬ConvertsRight false [0xFFFF] := by
  rintro ⟨-, hunits, -⟩
  have hread : fromUTF32 false (hostWords false ([0xFFFF].map UInt32.toNat)) = (true, [0xD7FF, 0xDFFF]) := by
    show fromUTF32 false [0xFFFF] = _
    rw [fromUTF32, fromUTF32]
    decide
  rw [hread] at hunits
  exact absurd (hunits rfl) (by decide)

end CFLite.Strings
