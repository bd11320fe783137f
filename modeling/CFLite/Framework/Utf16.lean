import Mathlib.Data.List.Induction

/-!
# Code units of Unicode characters

A sequence of UTF-16 code units is well formed when its surrogates come in
pairs, a high one before a low one; `utf16Encode` gives the units of a sequence
of characters, and `String.utf8EncodeChar` the bytes of one.

* `wellFormed_iff`: the well-formed sequences are those of characters;
* `utf16EncodeChar_one`, `utf16EncodeChar_two`: the units by the character's
  value.
-/

namespace CFLite.Framework

/-- A unit of 0xD800 to 0xDBFF. -/
def IsHighSurrogate (n : Nat) : Prop := 0xD800 ≤ n ∧ n ≤ 0xDBFF

/-- A unit of 0xDC00 to 0xDFFF. -/
def IsLowSurrogate (n : Nat) : Prop := 0xDC00 ≤ n ∧ n ≤ 0xDFFF

instance (n : Nat) : Decidable (IsHighSurrogate n) := inferInstanceAs (Decidable (_ ∧ _))
instance (n : Nat) : Decidable (IsLowSurrogate n) := inferInstanceAs (Decidable (_ ∧ _))

/-- Every surrogate of the sequence belongs to a pair. -/
def WellFormedUtf16 : List UInt16 → Prop
  | [] => True
  | [unit] => ¬ IsHighSurrogate unit.toNat ∧ ¬ IsLowSurrogate unit.toNat
  | unit :: next :: units =>
    if IsHighSurrogate unit.toNat then IsLowSurrogate next.toNat ∧ WellFormedUtf16 units
    else ¬ IsLowSurrogate unit.toNat ∧ WellFormedUtf16 (next :: units)

/-- The units of a character. -/
def utf16EncodeChar (c : Char) : List UInt16 :=
  if c.toNat ≤ 0xFFFF then [UInt16.ofNat c.toNat]
  else [UInt16.ofNat (0xD800 + (c.toNat - 0x10000) / 1024), UInt16.ofNat (0xDC00 + (c.toNat - 0x10000) % 1024)]

/-- The units of a sequence of characters. -/
def utf16Encode (cs : List Char) : List UInt16 := cs.flatMap utf16EncodeChar

/-- The bytes of a sequence of characters in UTF-8. -/
def utf8Encode (cs : List Char) : List UInt8 := cs.flatMap String.utf8EncodeChar

theorem char_valid (c : Char) : c.toNat < 0xD800 ∨ (0xDFFF < c.toNat ∧ c.toNat < 0x110000) := c.valid

theorem utf16EncodeChar_one {c : Char} (h : c.toNat ≤ 0xFFFF) :
    ∃ unit : UInt16, utf16EncodeChar c = [unit] ∧ unit.toNat = c.toNat ∧
      ¬ IsHighSurrogate unit.toNat ∧ ¬ IsLowSurrogate unit.toNat := by
  have hunit : (UInt16.ofNat c.toNat).toNat = c.toNat := by
    rw [UInt16.toNat_ofNat', Nat.mod_eq_of_lt (by omega)]
  refine ⟨UInt16.ofNat c.toNat, if_pos h, hunit, ?_, ?_⟩ <;> rw [hunit]
  · exact fun hs => by have := char_valid c; unfold IsHighSurrogate at hs; omega
  · exact fun hs => by have := char_valid c; unfold IsLowSurrogate at hs; omega

theorem utf16EncodeChar_two {c : Char} (h : ¬ c.toNat ≤ 0xFFFF) :
    ∃ high low : UInt16, utf16EncodeChar c = [high, low] ∧ IsHighSurrogate high.toNat ∧ IsLowSurrogate low.toNat ∧
      high.toNat = 0xD800 + (c.toNat - 0x10000) / 1024 ∧ low.toNat = 0xDC00 + (c.toNat - 0x10000) % 1024 := by
  have hvalid := char_valid c
  have hhigh : (UInt16.ofNat (0xD800 + (c.toNat - 0x10000) / 1024)).toNat = 0xD800 + (c.toNat - 0x10000) / 1024 := by
    rw [UInt16.toNat_ofNat', Nat.mod_eq_of_lt (by omega)]
  have hlow : (UInt16.ofNat (0xDC00 + (c.toNat - 0x10000) % 1024)).toNat = 0xDC00 + (c.toNat - 0x10000) % 1024 := by
    rw [UInt16.toNat_ofNat', Nat.mod_eq_of_lt (by omega)]
  refine ⟨_, _, if_neg h, ?_, ?_, hhigh, hlow⟩
  · rw [IsHighSurrogate, hhigh]
    omega
  · rw [IsLowSurrogate, hlow]
    omega

/-- The character of a value that is not a surrogate. -/
theorem exists_char {n : Nat} (h : n < 0xD800 ∨ (0xDFFF < n ∧ n < 0x110000)) : ∃ c : Char, c.toNat = n :=
  ⟨Char.ofNat n, by rw [Char.ofNat, dif_pos h]; rfl⟩

theorem utf16Encode_cons (c : Char) (cs : List Char) : utf16Encode (c :: cs) = utf16EncodeChar c ++ utf16Encode cs :=
  List.flatMap_cons

theorem utf8Encode_cons (c : Char) (cs : List Char) : utf8Encode (c :: cs) = String.utf8EncodeChar c ++ utf8Encode cs :=
  List.flatMap_cons

theorem exists_char_of_unit {unit : UInt16} (hhigh : ¬ IsHighSurrogate unit.toNat) (hlow : ¬ IsLowSurrogate unit.toNat) :
    ∃ c : Char, utf16EncodeChar c = [unit] := by
  have hlt := unit.toNat_lt
  unfold IsHighSurrogate at hhigh
  unfold IsLowSurrogate at hlow
  obtain ⟨c, hc⟩ := exists_char (n := unit.toNat) (by omega)
  refine ⟨c, ?_⟩
  rw [utf16EncodeChar, if_pos (by omega), hc, UInt16.ofNat_toNat]

theorem exists_char_of_pair {high low : UInt16} (hhigh : IsHighSurrogate high.toNat) (hlow : IsLowSurrogate low.toNat) :
    ∃ c : Char, utf16EncodeChar c = [high, low] := by
  obtain ⟨c, hc⟩ := exists_char (n := 0x10000 + (high.toNat - 0xD800) * 1024 + (low.toNat - 0xDC00))
    (by unfold IsHighSurrogate at hhigh; unfold IsLowSurrogate at hlow; omega)
  unfold IsHighSurrogate at hhigh
  unfold IsLowSurrogate at hlow
  have hh : UInt16.ofNat (0xD800 + (c.toNat - 0x10000) / 1024) = high :=
    UInt16.toNat_inj.mp (by rw [UInt16.toNat_ofNat', Nat.mod_eq_of_lt (by omega)]; omega)
  have hl : UInt16.ofNat (0xDC00 + (c.toNat - 0x10000) % 1024) = low :=
    UInt16.toNat_inj.mp (by rw [UInt16.toNat_ofNat', Nat.mod_eq_of_lt (by omega)]; omega)
  refine ⟨c, ?_⟩
  rw [utf16EncodeChar, if_neg (by omega), hh, hl]

/-- The well-formed sequences are those of characters. -/
theorem wellFormedUtf16_iff (units : List UInt16) : WellFormedUtf16 units ↔ ∃ cs, units = utf16Encode cs := by
  constructor
  · intro h
    induction units using WellFormedUtf16.induct with
    | case1 => exact ⟨[], rfl⟩
    | case2 unit =>
      obtain ⟨c, hc⟩ := exists_char_of_unit h.1 h.2
      exact ⟨[c], by rw [utf16Encode_cons, hc]; rfl⟩
    | case3 unit next units hhigh ih =>
      rw [WellFormedUtf16, if_pos hhigh] at h
      obtain ⟨c, hc⟩ := exists_char_of_pair hhigh h.1
      obtain ⟨cs, rfl⟩ := ih h.2
      exact ⟨c :: cs, by rw [utf16Encode_cons, hc]; rfl⟩
    | case4 unit next units hhigh ih =>
      rw [WellFormedUtf16, if_neg hhigh] at h
      obtain ⟨c, hc⟩ := exists_char_of_unit hhigh h.1
      obtain ⟨cs, hcs⟩ := ih h.2
      exact ⟨c :: cs, by rw [utf16Encode_cons, hc, hcs]; rfl⟩
  · rintro ⟨cs, rfl⟩
    induction cs with
    | nil => trivial
    | cons c cs ih =>
      rw [utf16Encode_cons]
      by_cases h : c.toNat ≤ 0xFFFF
      · obtain ⟨unit, hc, -, hhigh, hlow⟩ := utf16EncodeChar_one h
        rw [hc, List.singleton_append]
        cases hrest : utf16Encode cs with
        | nil => exact ⟨hhigh, hlow⟩
        | cons next units =>
          rw [WellFormedUtf16, if_neg hhigh, ← hrest]
          exact ⟨hlow, ih⟩
      · obtain ⟨high, low, hc, hhigh, hlow, -⟩ := utf16EncodeChar_two h
        rw [hc]
        show WellFormedUtf16 (high :: low :: utf16Encode cs)
        rw [WellFormedUtf16, if_pos hhigh]
        exact ⟨hlow, ih⟩

end CFLite.Framework
