import CFLite.Strings.Decompose

/-!
# Characters of a text

How the loop of `CFUniCharDecompose` reads characters, and where a text may be cut.

* `readCharacter_some`, `readCharacter_none`: what is read, of the characters of the text;
* `characters_take`: the characters on both sides of a cut between two of them;
* `not_splitsPair`: such a cut is not in the middle of a surrogate pair.
-/

namespace CFLite.Strings.Decomposing

open Framework CaseChange

/-! ## Reading -/

theorem charactersOf_cons {first : UniChar} {src : List UniChar}
    (h : IsHighSurrogate first.toNat → ∀ next ∈ src.head?, ¬ IsLowSurrogate next.toNat) :
    CaseChange.charactersOf (first :: src) = first.toNat :: CaseChange.charactersOf src := by
  cases src with
  | nil => rfl
  | cons next src =>
    rw [CaseChange.charactersOf, pieces, if_neg fun hpair => h hpair.1 next rfl hpair.2]
    rfl

theorem charactersOf_pair {high low : UniChar} {src : List UniChar} (hhigh : IsHighSurrogate high.toNat)
    (hlow : IsLowSurrogate low.toNat) :
    CaseChange.charactersOf (high :: low :: src) =
      longCharacterForSurrogatePair high.toNat low.toNat :: CaseChange.charactersOf src := by
  rw [CaseChange.charactersOf, pieces, if_pos ⟨hhigh, hlow⟩]
  rfl

theorem widthOf_unit (unit : UniChar) : widthOf unit.toNat = 1 := by
  have := unit.toNat_lt
  rw [widthOf, if_neg (by omega)]

variable {format : Format}

/-- A unit at which no pair begins is read as it is, where the format has a place for it. -/
theorem readCharacter_unit {first : UniChar} {src : List UniChar}
    (h : IsHighSurrogate first.toNat → ∀ next ∈ src.head?, ¬ IsLowSurrogate next.toNat) :
    readCharacter format first src = if Holds format first.toNat then some (first.toNat, src) else none := by
  unfold readCharacter
  by_cases hlow : IsLowSurrogate first.toNat
  · by_cases hformat : format = .utf16 <;> simp [Holds, hlow, hformat]
  · rw [if_neg hlow]
    by_cases hhigh : IsHighSurrogate first.toNat
    · rw [if_pos hhigh]
      cases src with
      | nil => by_cases hformat : format = .utf16 <;> simp [Holds, hhigh, hformat]
      | cons next src =>
        have hnext := h hhigh next rfl
        by_cases hformat : format = .utf16 <;> simp [Holds, hhigh, hformat, hnext]
    · simp [Holds, hlow, hhigh]

theorem readCharacter_pair {high low : UniChar} {src : List UniChar} (hhigh : IsHighSurrogate high.toNat)
    (hlow : IsLowSurrogate low.toNat) :
    readCharacter format high (low :: src) = some (longCharacterForSurrogatePair high.toNat low.toNat, src) := by
  have hnot : ¬ IsLowSurrogate high.toNat := by
    unfold IsLowSurrogate
    unfold IsHighSurrogate at hhigh
    omega
  rw [readCharacter, if_neg hnot, if_pos hhigh]
  exact if_pos hlow

/-- A character that is read is a unit at which no pair begins, or a pair. -/
theorem readCharacter_cases {first : UniChar} {src rest : List UniChar} {c : Nat}
    (h : readCharacter format first src = some (c, rest)) :
    (c = first.toNat ∧ src = rest ∧ Holds format c ∧
        (IsHighSurrogate first.toNat → ∀ next ∈ src.head?, ¬ IsLowSurrogate next.toNat)) ∨
      ∃ low, src = low :: rest ∧ IsHighSurrogate first.toNat ∧ IsLowSurrogate low.toNat ∧
        c = longCharacterForSurrogatePair first.toNat low.toNat := by
  by_cases hpair : IsHighSurrogate first.toNat ∧ ∃ next ∈ src.head?, IsLowSurrogate next.toNat
  · obtain ⟨hhigh, low, hlow, hlowSurrogate⟩ := hpair
    obtain ⟨tail, rfl⟩ : ∃ tail, src = low :: tail := List.head?_eq_some_iff.mp hlow
    rw [readCharacter_pair hhigh hlowSurrogate] at h
    cases h
    exact .inr ⟨low, rfl, hhigh, hlowSurrogate, rfl⟩
  · have halone : IsHighSurrogate first.toNat → ∀ next ∈ src.head?, ¬ IsLowSurrogate next.toNat :=
      fun hhigh next hnext hlow => hpair ⟨hhigh, next, hnext, hlow⟩
    rw [readCharacter_unit halone] at h
    split at h <;> cases h
    next hholds => exact .inl ⟨rfl, rfl, hholds, halone⟩

theorem not_surrogate_of_gt {c : Nat} (h : c > 0xFFFF) : ¬ IsHighSurrogate c ∧ ¬ IsLowSurrogate c := by
  unfold IsHighSurrogate IsLowSurrogate
  omega

/-- A character that is read is the first of the units, and has a place in the format. -/
theorem readCharacter_some {first : UniChar} {src rest : List UniChar} {c : Nat}
    (h : readCharacter format first src = some (c, rest)) :
    CaseChange.charactersOf (first :: src) = c :: CaseChange.charactersOf rest ∧ Holds format c ∧
      widthOf c + rest.length = src.length + 1 ∧ (c = first.toNat ∨ c > 0xFFFF) := by
  obtain ⟨rfl, rfl, hholds, halone⟩ | ⟨low, rfl, hhigh, hlow, rfl⟩ := readCharacter_cases h
  · refine ⟨charactersOf_cons halone, hholds, ?_, .inl rfl⟩
    rw [widthOf_unit, Nat.add_comm]
  · refine ⟨charactersOf_pair hhigh hlow, .inr (not_surrogate_of_gt longCharacter_gt), ?_, .inr longCharacter_gt⟩
    rw [widthOf, if_pos longCharacter_gt, List.length_cons]
    omega

/-- Units that begin with a stray surrogate have no character for the format. -/
theorem readCharacter_none {first : UniChar} {src : List UniChar} (h : readCharacter format first src = none) :
    characters format (first :: src) = [] := by
  by_cases hpair : IsHighSurrogate first.toNat ∧ ∃ next ∈ src.head?, IsLowSurrogate next.toNat
  · obtain ⟨hhigh, low, hlow, hlowSurrogate⟩ := hpair
    obtain ⟨tail, rfl⟩ : ∃ tail, src = low :: tail := List.head?_eq_some_iff.mp hlow
    rw [readCharacter_pair hhigh hlowSurrogate] at h
    cases h
  · have halone : IsHighSurrogate first.toNat → ∀ next ∈ src.head?, ¬ IsLowSurrogate next.toNat :=
      fun hhigh next hnext hlow => hpair ⟨hhigh, next, hnext, hlow⟩
    rw [readCharacter_unit halone] at h
    split at h <;> cases h
    next hholds => rw [characters, charactersOf_cons halone, List.takeWhile_cons_of_neg (by simpa using hholds)]

theorem characters_cons {first : UniChar} {src rest : List UniChar} {c : Nat}
    (h : readCharacter format first src = some (c, rest)) :
    characters format (first :: src) = c :: characters format rest := by
  obtain ⟨hchars, hholds, -⟩ := readCharacter_some h
  rw [characters, hchars, List.takeWhile_cons_of_pos (by simpa using hholds), characters]

theorem readCharacter_ascii {first : UniChar} (h : first.toNat < 0x80) (src : List UniChar) :
    readCharacter format first src = some (first.toNat, src) := by
  have hhigh : ¬ IsHighSurrogate first.toNat := by
    unfold IsHighSurrogate
    omega
  have hlow : ¬ IsLowSurrogate first.toNat := by
    unfold IsLowSurrogate
    omega
  rw [readCharacter_unit fun hs => absurd hs hhigh, if_pos (.inr ⟨hhigh, hlow⟩)]

/-! ## Where a text is cut -/

theorem characters_eq_cons {units : List UniChar} {c : Nat} {cs : List Nat} (h : characters format units = c :: cs) :
    ∃ first src rest, units = first :: src ∧ readCharacter format first src = some (c, rest) ∧
      characters format rest = cs := by
  cases units with
  | nil => exact absurd h (by simp [characters, CaseChange.charactersOf, pieces])
  | cons first src =>
    cases hread : readCharacter format first src with
    | none => exact absurd (h.symm.trans (readCharacter_none hread)) (List.cons_ne_nil _ _)
    | some r =>
      obtain ⟨d, rest⟩ := r
      rw [characters_cons hread] at h
      obtain ⟨rfl, rfl⟩ := List.cons.inj h
      exact ⟨first, src, rest, rfl, hread, rfl⟩

/-- The units of a text that is cut behind its first character or later. -/
theorem readCharacter_take {first : UniChar} {src rest : List UniChar} {c : Nat}
    (h : readCharacter format first src = some (c, rest)) (n : Nat) :
    characters format ((first :: src).take (widthOf c + n)) = c :: characters format (rest.take n) ∧
      (first :: src).drop (widthOf c + n) = rest.drop n := by
  obtain ⟨rfl, rfl, hholds, halone⟩ | ⟨low, rfl, hhigh, hlow, rfl⟩ := readCharacter_cases h
  · rw [widthOf_unit, Nat.add_comm, List.take_succ_cons, List.drop_succ_cons]
    refine ⟨characters_cons ?_, rfl⟩
    rw [readCharacter_unit fun hhigh next hnext => ?_, if_pos hholds]
    refine halone hhigh next ?_
    cases src with
    | nil => simp at hnext
    | cons d src =>
      cases n with
      | zero => simp at hnext
      | succ n => exact hnext
  · have hwidth : widthOf (longCharacterForSurrogatePair first.toNat low.toNat) = 2 := if_pos longCharacter_gt
    rw [hwidth, Nat.add_comm, List.take_succ_cons, List.take_succ_cons, List.drop_succ_cons, List.drop_succ_cons]
    exact ⟨characters_cons (readCharacter_pair hhigh hlow), rfl⟩

/-- A text that is cut between two characters. -/
theorem characters_take {units : List UniChar} {before after : List Nat}
    (h : characters format units = before ++ after) :
    characters format (units.take (widths before)) = before ∧
      characters format (units.drop (widths before)) = after ∧ widths before ≤ units.length := by
  induction before generalizing units with
  | nil =>
    rw [widths_nil, List.take_zero, List.drop_zero]
    exact ⟨rfl, h, Nat.zero_le _⟩
  | cons c before ih =>
    obtain ⟨first, src, rest, rfl, hread, hrest⟩ := characters_eq_cons h
    obtain ⟨htake, hdrop, hlength⟩ := ih hrest
    obtain ⟨htakeC, hdropC⟩ := readCharacter_take hread (widths before)
    obtain ⟨-, -, hwidth, -⟩ := readCharacter_some hread
    rw [widths_cons, htakeC, hdropC, htake, List.length_cons]
    exact ⟨rfl, hdrop, by omega⟩

/-- The units are cut in the middle of a surrogate pair. -/
def SplitsPair (units : List UniChar) (n : Nat) : Prop :=
  (∃ high ∈ (units.take n).getLast?, IsHighSurrogate high.toNat) ∧
    ∃ low ∈ (units.drop n).head?, IsLowSurrogate low.toNat

/-- The units of the first character, and that they begin no pair with what follows. -/
theorem readCharacter_units {first : UniChar} {src rest : List UniChar} {c : Nat}
    (h : readCharacter format first src = some (c, rest)) (n : Nat) :
    ∃ units : List UniChar, (first :: src).take (widthOf c + n) = units ++ rest.take n ∧
      ∀ high ∈ units.getLast?, IsHighSurrogate high.toNat → ∀ next ∈ rest.head?, ¬ IsLowSurrogate next.toNat := by
  obtain ⟨rfl, rfl, hholds, halone⟩ | ⟨low, rfl, hhigh, hlow, rfl⟩ := readCharacter_cases h
  · rw [widthOf_unit, Nat.add_comm]
    refine ⟨[first], rfl, fun high hlast => ?_⟩
    cases hlast
    exact halone
  · have hwidth : widthOf (longCharacterForSurrogatePair first.toNat low.toNat) = 2 := if_pos longCharacter_gt
    rw [hwidth, Nat.add_comm]
    refine ⟨[first, low], rfl, fun high hlast hhighS => ?_⟩
    obtain rfl : low = high := by simpa using hlast
    unfold IsLowSurrogate at hlow
    unfold IsHighSurrogate at hhighS
    omega

/-- A text that is cut between two characters is not cut in the middle of a pair. -/
theorem not_splitsPair {units : List UniChar} {before after : List Nat}
    (h : characters format units = before ++ after) :
    ¬ SplitsPair units (widths before) := by
  induction before generalizing units with
  | nil =>
    rintro ⟨⟨high, hhigh, -⟩, -⟩
    simp at hhigh
  | cons c before ih =>
    obtain ⟨first, src, rest, rfl, hread, hrest⟩ := characters_eq_cons h
    obtain ⟨units, hunits, hlast⟩ := readCharacter_units hread (widths before)
    rintro ⟨⟨high, hhigh, hhighS⟩, low, hlow, hlowS⟩
    rw [widths_cons] at hhigh hlow
    rw [(readCharacter_take hread _).2] at hlow
    rw [hunits, List.getLast?_append] at hhigh
    cases hends : (rest.take (widths before)).getLast? with
    | some d =>
      rw [hends] at hhigh
      exact ih hrest ⟨⟨high, hends.trans hhigh, hhighS⟩, low, hlow, hlowS⟩
    | none =>
      rw [hends] at hhigh
      rw [List.getLast?_eq_none_iff, List.take_eq_nil_iff] at hends
      refine hlast high hhigh hhighS low ?_ hlowS
      rcases hends with hzero | hnil
      · rwa [hzero, List.drop_zero] at hlow
      · rw [hnil] at hlow
        simp at hlow

end CFLite.Strings.Decomposing
