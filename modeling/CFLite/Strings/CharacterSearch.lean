import CFLite.Base.Number
import CFLite.Framework.Budget
import CFLite.Strings.LiteralSearch

/-!
# The search for a character of a set

`CFStringFindCharacterFromSet` goes through a range in either direction. At a
surrogate it looks at the unit beyond as well, and goes on past both.

* `charactersOf`: the characters of a range, in either direction;
* `looked`: those of them that the loop looks at;
* `looked_sublist`: they are in the order of the characters;
* `findCharacterFromSet_looked`: the first one looked at that is a member is found.
-/

namespace CFLite.Strings

open Framework

/-! ## The code -/

/-- What the loop of `CFStringFindCharacterFromSet` works with. -/
structure CharacterScan where
  isMember : Nat → Bool
  get : Int → UniChar
  location : Int
  fromLoc : Int
  toLoc : Int

namespace CharacterScan

variable (s : CharacterScan)

def step : Int := if s.fromLoc ≤ s.toLoc then 1 else -1

/-- A round of the loop: what is found, or the next index. `int otherCharIndex` is
in 32 bits. -/
def round (cnt : Int) : Option SearchRange ⊕ Int :=
  let ch := s.get (cnt - s.location)
  if ch ≥ 0xD800 ∧ ch ≤ 0xDFFF then
    let otherCharIndex := int32 (cnt + s.step)
    if (s.step < 0 ∧ otherCharIndex < s.toLoc) ∨ (s.step > 0 ∧ otherCharIndex > s.toLoc) then .inl none
    else
      let lowChar := s.get (otherCharIndex - s.location)
      let (highChar, lowChar) := if cnt < otherCharIndex then (ch, lowChar) else (lowChar, ch)
      if IsHighSurrogate highChar.toNat ∧ IsLowSurrogate lowChar.toNat ∧
          s.isMember (longCharacterForSurrogatePair highChar.toNat lowChar.toNat) = true then
        .inl (some ⟨if cnt < otherCharIndex then cnt else otherCharIndex, 2⟩)
      else if otherCharIndex = s.toLoc then .inl none
      else .inr (otherCharIndex + s.step)
  else if s.isMember ch.toNat then .inl (some ⟨cnt, 1⟩)
  else if cnt = s.toLoc then .inl none
  else .inr (cnt + s.step)

end CharacterScan

/-- What `CFStringFindCharacterFromSet` sets up. -/
def characterScanOf (isMember : Nat → Bool) (map : CharToUniChar) (theString : CFString) (location length : Nat)
    (backwards anchored : Bool) (junk : List UniChar) : CharacterScan where
  isMember := isMember
  get := (initInlineBuffer theString location length junk).getAt map
  location := location
  fromLoc := if backwards then (location : Int) + length - 1 else location
  toLoc := if anchored then (if backwards then (location : Int) + length - 1 else location)
    else if backwards then location else (location : Int) + length - 1

/-- `CFStringFindCharacterFromSet`: the range found, or none in it; none at all where
the rounds do not suffice. -/
def findCharacterFromSet (isMember : Nat → Bool) (map : CharToUniChar) (theString : CFString) (location length : Nat)
    (backwards anchored : Bool) (junk : List UniChar) (rounds : Nat) : Option (Option SearchRange) :=
  if location + length > theString.getLength ∨ length = 0 then some none
  else
    let s := characterScanOf isMember map theString location length backwards anchored junk
    roundsLoop s.round rounds s.fromLoc

/-! ## Characters -/

/-- `SURROGATE_START` to `SURROGATE_END` -/
def IsSurrogate (unit : UniChar) : Prop := unit ≥ 0xD800 ∧ unit ≤ 0xDFFF

instance (unit : UniChar) : Decidable (IsSurrogate unit) := inferInstanceAs (Decidable (_ ∧ _))

theorem isSurrogate_iff (unit : UniChar) :
    IsSurrogate unit ↔ IsHighSurrogate unit.toNat ∨ IsLowSurrogate unit.toNat := by
  have hlow : unit ≥ 0xD800 ↔ 0xD800 ≤ unit.toNat := UInt16.le_iff_toNat_le
  have hhigh : unit ≤ 0xDFFF ↔ unit.toNat ≤ 0xDFFF := UInt16.le_iff_toNat_le
  unfold IsSurrogate IsHighSurrogate IsLowSurrogate
  rw [hlow, hhigh]
  omega

/-- The next index of a direction. -/
def ahead (backwards : Bool) : Int := if backwards then -1 else 1

/-- A high surrogate and a low one, one after the other in a direction. -/
def IsPair (backwards : Bool) (unit next : UniChar) : Prop :=
  if backwards then IsHighSurrogate next.toNat ∧ IsLowSurrogate unit.toNat
  else IsHighSurrogate unit.toNat ∧ IsLowSurrogate next.toNat

instance (backwards : Bool) (unit next : UniChar) : Decidable (IsPair backwards unit next) := by
  unfold IsPair
  exact inferInstance

/-- A character of one unit. -/
def single (index : Int) (unit : UniChar) : SearchRange × Nat := (⟨index, 1⟩, unit.toNat)

/-- A character of two units. -/
def paired (backwards : Bool) (index : Int) (unit next : UniChar) : SearchRange × Nat :=
  if backwards then (⟨index - 1, 2⟩, longCharacterForSurrogatePair next.toNat unit.toNat)
  else (⟨index, 2⟩, longCharacterForSurrogatePair unit.toNat next.toNat)

/-- The characters of units that follow one another in a direction: a pair of
surrogates is one, and any other unit is one by itself. -/
def charactersOf (backwards : Bool) : List UniChar → (index : Int) → List (SearchRange × Nat)
  | [], _ => []
  | [unit], index => [single index unit]
  | unit :: next :: units, index =>
    if IsPair backwards unit next then
      paired backwards index unit next :: charactersOf backwards units (index + ahead backwards + ahead backwards)
    else single index unit :: charactersOf backwards (next :: units) (index + ahead backwards)

/-- The characters that the loop looks at: at a surrogate, the pair that it may be
of, and nothing of the unit beyond otherwise. -/
def looked (backwards : Bool) : List UniChar → (index : Int) → List (SearchRange × Nat)
  | [], _ => []
  | [unit], index => if IsSurrogate unit then [] else [single index unit]
  | unit :: next :: units, index =>
    if IsSurrogate unit then
      (if IsPair backwards unit next then [paired backwards index unit next] else []) ++
        looked backwards units (index + ahead backwards + ahead backwards)
    else single index unit :: looked backwards (next :: units) (index + ahead backwards)

theorem IsPair.isSurrogate {backwards : Bool} {unit next : UniChar} (h : IsPair backwards unit next) :
    IsSurrogate unit := by
  rw [isSurrogate_iff]
  unfold IsPair at h
  split at h
  · exact .inr h.2
  · exact .inl h.1

/-- Pairs do not overlap. -/
theorem IsPair.not_overlap {backwards : Bool} {unit next last : UniChar} (h : IsPair backwards unit next) :
    ¬IsPair backwards next last := by
  unfold IsPair IsHighSurrogate IsLowSurrogate at *
  split at h
  · rw [if_pos ‹_›]
    omega
  · rw [if_neg ‹_›]
    omega

theorem charactersOf_pair {backwards : Bool} {unit next : UniChar} (h : IsPair backwards unit next)
    (units : List UniChar) (index : Int) :
    charactersOf backwards (unit :: next :: units) index =
      paired backwards index unit next :: charactersOf backwards units (index + ahead backwards + ahead backwards) := by
  rw [charactersOf, if_pos h]

theorem charactersOf_apart {backwards : Bool} {unit next : UniChar} (h : ¬IsPair backwards unit next)
    (units : List UniChar) (index : Int) :
    charactersOf backwards (unit :: next :: units) index =
      single index unit :: charactersOf backwards (next :: units) (index + ahead backwards) := by
  rw [charactersOf, if_neg h]

/-- What is looked at is in the order of the characters, whatever unit is before. -/
theorem looked_sublist (backwards : Bool) (units : List UniChar) (index : Int) :
    (looked backwards units index).Sublist (charactersOf backwards units index) ∧
      ∀ unit, (looked backwards units index).Sublist
        (charactersOf backwards (unit :: units) (index - ahead backwards)) := by
  induction hn : units.length using Nat.strong_induction_on generalizing units index with
  | _ n ih =>
    have hfirst : (looked backwards units index).Sublist (charactersOf backwards units index) := by
      match units with
      | [] => exact List.Sublist.refl _
      | [unit] =>
        rw [looked, charactersOf]
        split
        · exact List.nil_sublist _
        · exact List.Sublist.refl _
      | unit :: next :: units =>
        rw [List.length_cons, List.length_cons] at hn
        have hrest := ih units.length (by omega) units (index + ahead backwards + ahead backwards) rfl
        rw [looked]
        by_cases hpair : IsPair backwards unit next
        · rw [charactersOf_pair hpair, if_pos hpair.isSurrogate, if_pos hpair]
          exact hrest.1.cons_cons _
        · rw [charactersOf_apart hpair, if_neg hpair]
          split
          · have hskip := hrest.2 next
            rw [Int.add_sub_cancel] at hskip
            exact hskip.cons _
          · exact (ih (next :: units).length (by rw [List.length_cons]; omega) _ _ rfl).1.cons_cons _
    refine ⟨hfirst, fun unit => ?_⟩
    match units with
    | [] => exact List.nil_sublist _
    | next :: units =>
      by_cases hpair : IsPair backwards unit next
      · rw [charactersOf_pair hpair, Int.sub_add_cancel]
        refine List.Sublist.cons _ ?_
        have hnext : IsSurrogate next := by
          rw [isSurrogate_iff]
          unfold IsPair at hpair
          split at hpair
          · exact .inl hpair.1
          · exact .inr hpair.2
        match units with
        | [] =>
          rw [looked, if_pos hnext]
          exact List.nil_sublist _
        | last :: units =>
          rw [List.length_cons, List.length_cons] at hn
          have hrest := (ih units.length (by omega) units (index + ahead backwards + ahead backwards) rfl).2 last
          rw [looked, if_pos hnext, if_neg hpair.not_overlap, List.nil_append]
          rwa [Int.add_sub_cancel] at hrest
      · rw [charactersOf_apart hpair, Int.sub_add_cancel]
        exact hfirst.cons _

/-! ## The two directions -/

/-- Where no pair lies across the place where units are put together, the characters
are put together. -/
theorem charactersOf_append (backwards : Bool) (units : List UniChar) (unit : UniChar) (units' : List UniChar)
    (index : Int) (h : ∀ last ∈ units.getLast?, ¬IsPair backwards last unit) :
    charactersOf backwards (units ++ unit :: units') index =
      charactersOf backwards units index ++
        charactersOf backwards (unit :: units') (index + units.length * ahead backwards) := by
  induction units, index using charactersOf.induct backwards with
  | case1 index => simp [charactersOf]
  | case2 first index =>
    have hne : ¬IsPair backwards first unit := h first rfl
    rw [List.singleton_append, charactersOf_apart hne, charactersOf, List.singleton_append, List.length_singleton,
      Nat.cast_one, Int.one_mul]
  | case3 first next units index hpair ih =>
    have hrest : ∀ last ∈ units.getLast?, ¬IsPair backwards last unit := by
      intro last hlast
      refine h last ?_
      rw [List.getLast?_cons_cons]
      cases units with
      | nil => cases hlast
      | cons a units => rwa [List.getLast?_cons_cons]
    rw [List.cons_append, List.cons_append, charactersOf_pair hpair, ih hrest, charactersOf_pair hpair,
      List.cons_append, List.length_cons, List.length_cons]
    congr 3
    push_cast
    ring
  | case4 first next units index hpair ih =>
    have hrest : ∀ last ∈ (next :: units).getLast?, ¬IsPair backwards last unit := fun last hlast =>
      h last (by rwa [List.getLast?_cons_cons])
    rw [List.cons_append, List.cons_append, charactersOf_apart hpair, ← List.cons_append, ih hrest,
      charactersOf_apart hpair, List.cons_append, List.length_cons, List.length_cons, List.length_cons]
    congr 3
    push_cast
    ring

theorem isPair_true_iff (unit next : UniChar) : IsPair true unit next ↔ IsPair false next unit := Iff.rfl

theorem paired_true (index : Int) (unit next : UniChar) :
    paired true (index + 1) unit next = paired false index next unit := by
  unfold paired
  rw [if_pos rfl, if_neg Bool.false_ne_true, Int.add_sub_cancel]

/-- The characters are the same in both directions. -/
theorem charactersOf_reverse (units : List UniChar) (index : Int) :
    charactersOf true units.reverse (index + units.length - 1) = (charactersOf false units index).reverse := by
  induction units, index using charactersOf.induct false with
  | case1 index => rfl
  | case2 unit index =>
    rw [List.length_singleton, Nat.cast_one, Int.add_sub_cancel]
    rfl
  | case3 unit next units index hpair ih =>
    have hsplit : ∀ last ∈ units.reverse.getLast?, ¬IsPair true last next := fun last _ =>
      ((isPair_true_iff next unit).mpr hpair).elim fun hhigh hlow hlast => by
        unfold IsPair at hlast
        rw [if_pos rfl] at hlast
        unfold IsHighSurrogate at *
        unfold IsLowSurrogate at *
        omega
    have hreverse : (unit :: next :: units).reverse = units.reverse ++ next :: [unit] := by
      rw [List.reverse_cons, List.reverse_cons, List.append_assoc]
      rfl
    rw [hreverse, charactersOf_append true _ _ _ _ hsplit, charactersOf_pair hpair, List.reverse_cons, ← ih,
      charactersOf_pair ((isPair_true_iff next unit).mpr hpair), charactersOf, List.length_cons, List.length_cons,
      List.length_reverse]
    unfold ahead
    rw [if_neg Bool.false_ne_true, if_pos rfl]
    congr 2
    · push_cast
      ring
    · rw [← paired_true]
      congr 1
      push_cast
      ring
  | case4 unit next units index hpair ih =>
    have hsplit : ∀ last ∈ (next :: units).reverse.getLast?, ¬IsPair true last unit := by
      intro last hlast
      rw [List.getLast?_reverse] at hlast
      obtain rfl : next = last := Option.some.inj hlast
      exact hpair
    rw [List.reverse_cons, charactersOf_append true _ _ _ _ hsplit, charactersOf_apart hpair,
      List.reverse_cons (a := single index unit), ← ih, charactersOf, List.length_cons, List.length_reverse]
    unfold ahead
    rw [if_neg Bool.false_ne_true, if_pos rfl]
    congr 2
    · push_cast
      ring
    · congr 1
      push_cast
      ring

/-! ## The loop -/

theorem CharacterScan.step_eq (s : CharacterScan) : s.step = 1 ∨ s.step = -1 := by
  unfold CharacterScan.step
  split
  · exact .inl rfl
  · exact .inr rfl

theorem ahead_eq (backwards : Bool) :
    backwards = false ∧ ahead backwards = 1 ∨ backwards = true ∧ ahead backwards = -1 := by
  cases backwards
  · exact .inl ⟨rfl, rfl⟩
  · exact .inr ⟨rfl, rfl⟩

/-- What the loop reads from an index on: units up to the last index. -/
structure CharacterScan.Reads (s : CharacterScan) (backwards : Bool) (units : List UniChar) (index : Int) : Prop where
  get : ∀ j : Nat, j < units.length → s.get (index + j * ahead backwards - s.location) = units.getD j 0
  last : s.toLoc = index + (units.length - 1 : Int) * ahead backwards
  step : 1 < units.length → s.step = ahead backwards
  fits : ∀ j : Nat, j < units.length → IsSurrogate (units.getD j 0) →
    int32 (index + j * ahead backwards + s.step) = index + j * ahead backwards + s.step

namespace CharacterScan.Reads

variable {s : CharacterScan} {backwards : Bool} {unit : UniChar} {units : List UniChar} {index : Int}

theorem tail (h : s.Reads backwards (unit :: units) index) : s.Reads backwards units (index + ahead backwards) := by
  have hshift : ∀ j : Nat, index + ((j + 1 : Nat) : Int) * ahead backwards =
      index + ahead backwards + j * ahead backwards := by
    intro j
    push_cast
    ring
  refine ⟨fun j hj => ?_, ?_, fun hlen => h.step (Nat.lt_succ_of_lt hlen), fun j hj hsurrogate => ?_⟩
  · rw [← hshift]
    exact h.get (j + 1) (Nat.succ_lt_succ hj)
  · rw [h.last, List.length_cons]
    push_cast
    ring
  · rw [← hshift]
    exact h.fits (j + 1) (Nat.succ_lt_succ hj) hsurrogate

theorem first (h : s.Reads backwards (unit :: units) index) : s.get (index - s.location) = unit := by
  have hget := h.get 0 (Nat.zero_lt_succ _)
  rwa [Nat.cast_zero, Int.zero_mul, Int.add_zero] at hget

theorem fits_first (h : s.Reads backwards (unit :: units) index) (hsurrogate : IsSurrogate unit) :
    int32 (index + s.step) = index + s.step := by
  have hfits := h.fits 0 (Nat.zero_lt_succ _) hsurrogate
  rwa [Nat.cast_zero, Int.zero_mul, Int.add_zero] at hfits

/-- A unit by itself. -/
theorem round_single (h : s.Reads backwards (unit :: units) index) (hplain : ¬IsSurrogate unit) :
    s.round index =
      if s.isMember unit.toNat = true then .inl (some ⟨index, 1⟩)
      else if units = [] then .inl none else .inr (index + ahead backwards) := by
  unfold CharacterScan.round
  rw [h.first]
  have hlast : index = s.toLoc ↔ units = [] := by
    rw [h.last, List.length_cons]
    rcases ahead_eq backwards with ⟨-, hd⟩ | ⟨-, hd⟩ <;> rw [hd] <;> constructor
    · intro heq
      exact List.length_eq_zero_iff.mp (by push_cast at heq; omega)
    · rintro rfl
      simp
    · intro heq
      exact List.length_eq_zero_iff.mp (by push_cast at heq; omega)
    · rintro rfl
      simp
  refine (if_neg hplain).trans ?_
  by_cases hmember : s.isMember unit.toNat = true
  · rw [if_pos hmember, if_pos hmember]
  · rw [if_neg hmember, if_neg hmember]
    by_cases hnil : units = []
    · rw [if_pos hnil, if_pos (hlast.mpr hnil)]
    · rw [if_neg hnil, if_neg fun heq => hnil (hlast.mp heq),
        h.step (by rw [List.length_cons]; have := List.length_pos_iff.mpr hnil; omega)]

/-- A surrogate with nothing beyond. -/
theorem round_last (h : s.Reads backwards [unit] index) (hsurrogate : IsSurrogate unit) :
    s.round index = .inl none := by
  unfold CharacterScan.round
  rw [h.first, h.fits_first hsurrogate, h.last]
  refine (if_pos hsurrogate).trans (if_pos ?_)
  rw [List.length_singleton, Nat.cast_one, Int.sub_self, Int.zero_mul, Int.add_zero]
  rcases s.step_eq with hstep | hstep <;> rw [hstep] <;> omega

/-- A surrogate and the unit beyond. -/
theorem round_pair {next : UniChar} (h : s.Reads backwards (unit :: next :: units) index)
    (hsurrogate : IsSurrogate unit) :
    s.round index =
      if IsPair backwards unit next ∧ s.isMember (paired backwards index unit next).2 = true then
        .inl (some (paired backwards index unit next).1)
      else if units = [] then .inl none else .inr (index + ahead backwards + ahead backwards) := by
  have hstep : s.step = ahead backwards := h.step (by rw [List.length_cons, List.length_cons]; omega)
  have hnext := h.tail.first
  have hfits := h.fits_first hsurrogate
  have hlast := h.last
  have hnil : units = [] ↔ units.length = 0 := List.length_eq_zero_iff.symm
  rw [hstep] at hfits
  rw [List.length_cons, List.length_cons] at hlast
  push_cast at hlast
  unfold CharacterScan.round
  rw [h.first, hstep, hfits]
  dsimp only
  rw [hnext]
  refine (if_pos hsurrogate).trans ?_
  rcases ahead_eq backwards with ⟨rfl, hd⟩ | ⟨rfl, hd⟩
  · rw [hd] at hlast ⊢
    have hin : ¬(((1 : Int) < 0 ∧ index + 1 < s.toLoc) ∨ (1 : Int) > 0 ∧ index + 1 > s.toLoc) := by omega
    have hless : index < index + 1 := by omega
    rw [if_neg hin, if_pos hless, if_pos hless]
    dsimp only
    have hfound : IsPair false unit next ∧ s.isMember (paired false index unit next).2 = true ↔
        IsHighSurrogate unit.toNat ∧ IsLowSurrogate next.toNat ∧
          s.isMember (longCharacterForSurrogatePair unit.toNat next.toNat) = true := and_assoc
    have heq : index + 1 = s.toLoc ↔ units = [] := by rw [hnil]; omega
    by_cases hmember : IsPair false unit next ∧ s.isMember (paired false index unit next).2 = true
    · rw [if_pos hmember, if_pos (hfound.mp hmember)]
      rfl
    · rw [if_neg hmember, if_neg fun hmember' => hmember (hfound.mpr hmember')]
      simp only [heq]
  · rw [hd] at hlast ⊢
    have hin : ¬(((-1 : Int) < 0 ∧ index + -1 < s.toLoc) ∨ (-1 : Int) > 0 ∧ index + -1 > s.toLoc) := by omega
    have hless : ¬index < index + -1 := by omega
    rw [if_neg hin, if_neg hless, if_neg hless]
    dsimp only
    have hfound : IsPair true unit next ∧ s.isMember (paired true index unit next).2 = true ↔
        IsHighSurrogate next.toNat ∧ IsLowSurrogate unit.toNat ∧
          s.isMember (longCharacterForSurrogatePair next.toNat unit.toNat) = true := and_assoc
    have heq : index + -1 = s.toLoc ↔ units = [] := by rw [hnil]; omega
    by_cases hmember : IsPair true unit next ∧ s.isMember (paired true index unit next).2 = true
    · rw [if_pos hmember, if_pos (hfound.mp hmember)]
      rfl
    · rw [if_neg hmember, if_neg fun hmember' => hmember (hfound.mpr hmember')]
      simp only [heq]

/-- The loop finds the first member of what it looks at. -/
theorem settles (h : s.Reads backwards units index) (hne : units ≠ []) :
    Settles (fun rounds => roundsLoop s.round rounds index)
      (((looked backwards units index).find? fun c => s.isMember c.2).map (·.1)) := by
  induction units, index using looked.induct backwards with
  | case1 index => exact absurd rfl hne
  | case2 unit index hsurrogate =>
    rw [looked, if_pos hsurrogate]
    exact roundsLoop_end (h.round_last hsurrogate)
  | case3 unit index hplain =>
    have hround := h.round_single hplain
    rw [looked, if_neg hplain, List.find?_cons]
    cases hmember : s.isMember unit.toNat with
    | true =>
      rw [if_pos hmember] at hround
      exact (show s.isMember (single index unit).2 = true from hmember) ▸ roundsLoop_end hround
    | false =>
      rw [if_neg (by rw [hmember]; exact Bool.false_ne_true), if_pos rfl] at hround
      exact (show s.isMember (single index unit).2 = false from hmember) ▸ roundsLoop_end hround
  | case4 unit next units index hsurrogate ih =>
    have hround := h.round_pair hsurrogate
    rw [looked, if_pos hsurrogate, List.find?_append]
    by_cases hfound : IsPair backwards unit next ∧ s.isMember (paired backwards index unit next).2 = true
    · rw [if_pos hfound] at hround
      rw [if_pos hfound.1, List.find?_cons, hfound.2]
      exact roundsLoop_end hround
    · rw [if_neg hfound] at hround
      have hnone : (if IsPair backwards unit next then [paired backwards index unit next] else []).find?
          (fun c => s.isMember c.2) = none := by
        split
        · rename_i hpair
          rw [List.find?_cons, Bool.eq_false_iff.mpr fun hmember => hfound ⟨hpair, hmember⟩]
          rfl
        · rfl
      rw [hnone, Option.none_or]
      by_cases hnil : units = []
      · subst hnil
        rw [if_pos rfl] at hround
        exact roundsLoop_end hround
      · rw [if_neg hnil] at hround
        exact roundsLoop_next hround (ih h.tail.tail hnil)
  | case5 unit next units index hplain ih =>
    have hround := h.round_single hplain
    rw [looked, if_neg hplain, List.find?_cons]
    cases hmember : s.isMember unit.toNat with
    | true =>
      rw [if_pos hmember] at hround
      exact (show s.isMember (single index unit).2 = true from hmember) ▸ roundsLoop_end hround
    | false =>
      rw [if_neg (by rw [hmember]; exact Bool.false_ne_true), if_neg (List.cons_ne_nil _ _)] at hround
      exact (show s.isMember (single index unit).2 = false from hmember) ▸
        roundsLoop_next hround (ih h.tail (List.cons_ne_nil _ _))

end CharacterScan.Reads

/-! ## The first member -/

/-- The characters of a range in the order of a search, of which an anchored one
tries only the first. -/
def charactersToTry (backwards anchored : Bool) (units : List UniChar) (location : Int) : List (SearchRange × Nat) :=
  let characters := charactersOf false units location
  let inOrder := if backwards then characters.reverse else characters
  if anchored then inOrder.take 1 else inOrder

/-- The characters of a range that the search looks at. -/
def charactersLookedAt (backwards anchored : Bool) (units : List UniChar) (location : Int) : List (SearchRange × Nat) :=
  let inOrder := if backwards then units.reverse else units
  looked backwards (if anchored then inOrder.take 1 else inOrder)
    (if backwards then location + units.length - 1 else location)

/-- The first element with a property, of a list that leaves out some before it. -/
theorem find?_of_sublist {α : Type} {p : α → Bool} {l l' : List α} {a : α} (h : l.Sublist l') (hnodup : l'.Nodup)
    (hfind : l'.find? p = some a) (ha : a ∈ l) : l.find? p = some a := by
  induction h with
  | slnil => cases ha
  | @cons l l' b h ih =>
    obtain ⟨hb, hnodup⟩ := List.nodup_cons.mp hnodup
    rw [List.find?_cons] at hfind
    split at hfind
    · obtain rfl := Option.some.inj hfind
      exact absurd (h.subset ha) hb
    · exact ih hnodup hfind ha
  | @cons_cons l l' b h ih =>
    obtain ⟨-, hnodup⟩ := List.nodup_cons.mp hnodup
    rw [List.find?_cons] at hfind ⊢
    split at hfind
    · exact hfind
    · rename_i hb
      rcases List.mem_cons.mp ha with rfl | ha
      · exact absurd (List.find?_some hfind) (by rw [hb]; exact Bool.false_ne_true)
      · exact ih hnodup hfind ha

/-- The characters lie one after the other. -/
theorem charactersOf_nodup (units : List UniChar) (index : Int) :
    (∀ c ∈ charactersOf false units index, index ≤ c.1.location) ∧
      ((charactersOf false units index).map (·.1.location)).Nodup := by
  have hcons : ∀ (index next : Int) (c : SearchRange × Nat) (cs : List (SearchRange × Nat)), c.1.location = index →
      index < next → ((∀ c ∈ cs, next ≤ c.1.location) ∧ (cs.map (·.1.location)).Nodup) →
        (∀ c' ∈ c :: cs, index ≤ c'.1.location) ∧ ((c :: cs).map (·.1.location)).Nodup := by
    intro index next c cs hc hnext hcs
    refine ⟨fun c' hc' => ?_, List.nodup_cons.mpr ⟨fun hmem => ?_, hcs.2⟩⟩
    · rcases List.mem_cons.mp hc' with rfl | hc'
      · exact Int.le_of_eq hc.symm
      · have := hcs.1 c' hc'
        omega
    · obtain ⟨c', hc', heq⟩ := List.mem_map.mp hmem
      have := hcs.1 c' hc'
      dsimp only at heq
      omega
  have hahead : ahead false = 1 := rfl
  induction units, index using charactersOf.induct false with
  | case1 index => exact ⟨nofun, List.nodup_nil⟩
  | case2 unit index => exact hcons index (index + 1) _ [] rfl (by omega) ⟨nofun, List.nodup_nil⟩
  | case3 unit next units index hpair ih =>
    rw [charactersOf_pair hpair]
    exact hcons _ _ _ _ rfl (by omega) ih
  | case4 unit next units index hpair ih =>
    rw [charactersOf_apart hpair]
    exact hcons _ _ _ _ rfl (by omega) ih

theorem charactersToTry_nodup (backwards anchored : Bool) (units : List UniChar) (location : Int) :
    ((charactersToTry backwards anchored units location).map (·.1.location)).Nodup := by
  have hnodup := (charactersOf_nodup units location).2
  have horder : ((if backwards then (charactersOf false units location).reverse
      else charactersOf false units location).map (·.1.location)).Nodup := by
    split
    · rw [List.map_reverse]
      exact List.nodup_reverse.mpr hnodup
    · exact hnodup
  unfold charactersToTry
  dsimp only
  split
  · exact horder.sublist ((List.take_sublist 1 _).map _)
  · exact horder

/-- A single unit that is looked at is the first character. -/
theorem looked_take_one (backwards : Bool) (units : List UniChar) (index : Int) :
    (looked backwards (units.take 1) index).Sublist ((charactersOf backwards units index).take 1) := by
  match units with
  | [] => exact List.Sublist.refl _
  | [unit] => exact (looked_sublist backwards [unit] index).1.trans (List.Sublist.refl _)
  | unit :: next :: units =>
    show (looked backwards [unit] index).Sublist _
    rw [looked]
    split
    · exact List.nil_sublist _
    · rename_i hplain
      rw [charactersOf_apart fun hpair => hplain hpair.isSurrogate]
      exact List.Sublist.refl _

/-- What is looked at is in the order of the search. -/
theorem charactersLookedAt_sublist (backwards anchored : Bool) (units : List UniChar) (location : Int) :
    (charactersLookedAt backwards anchored units location).Sublist
      (charactersToTry backwards anchored units location) := by
  unfold charactersLookedAt charactersToTry
  dsimp only
  cases backwards with
  | false =>
    rw [if_neg Bool.false_ne_true, if_neg Bool.false_ne_true, if_neg Bool.false_ne_true]
    cases anchored with
    | false => exact (looked_sublist false units location).1
    | true => exact looked_take_one false units location
  | true =>
    rw [if_pos rfl, if_pos rfl, if_pos rfl, ← charactersOf_reverse]
    cases anchored with
    | false => exact (looked_sublist true units.reverse _).1
    | true => exact looked_take_one true units.reverse _

section Search

variable (isMember : Nat → Bool) (map : CharToUniChar) (string : CFStringRef) (location length : Nat)
  (backwards anchored : Bool) (junk : List UniChar)

/-- The units of the range. -/
def unitsInRange (map : CharToUniChar) (string : CFString) (location length : Nat) : List UniChar :=
  ((string.characters map).drop location).take length

/-- The first character of the range, in the order of the search, that is a member is
what the search finds. -/
def FindsFirstMember : Prop :=
  Settles (findCharacterFromSet isMember map string.val location length backwards anchored junk)
    (((charactersToTry backwards anchored (unitsInRange map string.val location length) location).find? fun c =>
      isMember c.2).map (·.1))

variable {isMember map string location length backwards anchored junk}

theorem length_unitsInRange (hrange : location + length ≤ string.val.getLength) :
    (unitsInRange map string.val location length).length = length := by
  have hlen := string.property.length_characters map
  rw [unitsInRange, List.length_take, List.length_drop]
  omega

/-- The units that the loop goes through, in its order. -/
theorem reads_characterScanOf (hrange : location + length ≤ string.val.getLength) (hlength : 0 < length)
    (hindex : location + length < 2 ^ 31 ∨ ∀ unit ∈ unitsInRange map string.val location length, ¬IsSurrogate unit) :
    let units := unitsInRange map string.val location length
    let inOrder := if backwards then units.reverse else units
    (characterScanOf isMember map string.val location length backwards anchored junk).Reads backwards
      (if anchored then inOrder.take 1 else inOrder)
      (if backwards then (location : Int) + units.length - 1 else location) := by
  intro units inOrder
  have hunits : units.length = length := length_unitsInRange hrange
  have horder : inOrder.length = length := by
    show (if backwards then units.reverse else units).length = length
    cases backwards
    · exact hunits
    · exact (List.length_reverse).trans hunits
  have htaken : ∀ j, j < (if anchored then inOrder.take 1 else inOrder).length →
      j < length ∧ (anchored = true → j = 0) ∧
        (if anchored then inOrder.take 1 else inOrder).getD j 0 = inOrder.getD j 0 := by
    intro j hj
    cases anchored with
    | false => exact ⟨horder ▸ hj, nofun, rfl⟩
    | true =>
      have hj : j < (inOrder.take 1).length := hj
      rw [List.length_take, horder] at hj
      obtain rfl : j = 0 := by omega
      refine ⟨hlength, fun _ => rfl, ?_⟩
      show (inOrder.take 1).getD 0 0 = inOrder.getD 0 0
      rw [List.getD_eq_getElem?_getD, List.getElem?_take_of_lt Nat.one_pos, ← List.getD_eq_getElem?_getD]
  have hget : ∀ i, i < length →
      (initInlineBuffer string.val location length junk).getAt map ((i : Nat) : Int) = units.getD i 0 := by
    intro i hi
    rw [InlineBuffer.getAt, if_neg (by omega), Int.toNat_natCast]
    exact get_initInlineBuffer map string hrange junk hi
  have hlast : ∀ j, j < length → inOrder.getD j 0 = units.getD (if backwards then length - 1 - j else j) 0 := by
    intro j hj
    show (if backwards then units.reverse else units).getD j 0 = _
    cases backwards with
    | false => rfl
    | true =>
      rw [if_pos rfl, if_pos rfl, List.getD_eq_getElem?_getD, List.getElem?_reverse (by omega), hunits,
        ← List.getD_eq_getElem?_getD]
  have hplace : ∀ j : Nat, j < length →
      (if backwards then (location : Int) + units.length - 1 else location) + j * ahead backwards - location =
        ((if backwards then length - 1 - j else j : Nat) : Int) := by
    intro j hj
    cases backwards with
    | false =>
      show (location : Int) + j * 1 - location = j
      omega
    | true =>
      show (location : Int) + units.length - 1 + j * -1 - location = ((length - 1 - j : Nat) : Int)
      omega
  refine ⟨fun j hj => ?_, ?_, fun hlen => ?_, fun j hj hsurrogate => ?_⟩
  · obtain ⟨hj', -, htake⟩ := htaken j hj
    rw [htake, hlast j hj']
    refine (congrArg _ (hplace j hj')).trans (hget _ ?_)
    split <;> omega
  · cases anchored with
    | false =>
      show (if backwards then (location : Int) else location + length - 1) = _
      rw [if_neg Bool.false_ne_true, horder]
      cases backwards with
      | false =>
        show (location : Int) + length - 1 = location + (length - 1) * 1
        omega
      | true =>
        show (location : Int) = location + units.length - 1 + (length - 1) * -1
        omega
    | true =>
      show (if backwards then (location : Int) + length - 1 else location) = _
      rw [if_pos rfl, List.length_take, horder, Nat.min_eq_left hlength, hunits, Nat.cast_one, Int.sub_self,
        Int.zero_mul, Int.add_zero]
  · cases anchored with
    | true =>
      rw [if_pos rfl, List.length_take] at hlen
      omega
    | false =>
      rw [if_neg Bool.false_ne_true, horder] at hlen
      cases backwards with
      | false =>
        refine if_pos ?_
        show (location : Int) ≤ location + length - 1
        omega
      | true =>
        refine if_neg ?_
        show ¬(location : Int) + length - 1 ≤ location
        omega
  · obtain ⟨hj', -, htake⟩ := htaken j hj
    rw [htake, hlast j hj'] at hsurrogate
    have hin : (if backwards then length - 1 - j else j) < length := by split <;> omega
    rcases hindex with hindex | hplain
    · have hplace := hplace j hj'
      have hstep := (characterScanOf isMember map string.val location length backwards anchored junk).step_eq
      exact int32_of_fits (by omega) (by omega)
    · refine absurd hsurrogate (hplain _ ?_)
      rw [List.getD_eq_getElem _ _ (by omega)]
      exact List.getElem_mem _

/-- The search finds the first member of what it looks at. -/
theorem findCharacterFromSet_looked (hrange : location + length ≤ string.val.getLength)
    (hindex : location + length < 2 ^ 31 ∨ ∀ unit ∈ unitsInRange map string.val location length, ¬IsSurrogate unit) :
    Settles (findCharacterFromSet isMember map string.val location length backwards anchored junk)
      (((charactersLookedAt backwards anchored (unitsInRange map string.val location length) location).find? fun c =>
        isMember c.2).map (·.1)) := by
  have hunits := @length_unitsInRange map string location length hrange
  rcases Nat.eq_zero_or_pos length with rfl | hlength
  · refine (Settles.const _).congr fun rounds => ?_
    have hnil := List.length_eq_zero_iff.mp hunits
    rw [findCharacterFromSet, if_pos (.inr rfl), hnil]
    cases backwards <;> cases anchored <;> rfl
  · have hreads :=
      @reads_characterScanOf isMember map string location length backwards anchored junk hrange hlength hindex
    refine (hreads.settles fun hnil => ?_).congr fun rounds => ?_
    · have hlen := congrArg List.length hnil
      cases backwards <;> cases anchored <;>
        simp only [Bool.false_eq_true, if_false, if_true, List.length_take, List.length_reverse, List.length_nil,
          hunits] at hlen <;> omega
    · rw [findCharacterFromSet, if_neg (by omega)]
      dsimp only
      congr 1
      cases backwards
      · rfl
      · rw [if_pos rfl, hunits]
        rfl

end Search

end CFLite.Strings
