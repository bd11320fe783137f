import Mathlib.Data.List.Basic

/-!
# Shifts of a pattern along a text

A pattern is compared with a text from its end. Where they differ it can be
shifted as far as no occurrence is passed over.

* `SuffixLength`: how many characters up to an index are a suffix of the pattern;
* `Consistent.of_occursAt`: at an occurrence the shift is consistent with what has
  been compared;
* `safeShift_of_suffixLengths`: what the lengths of the suffixes say about a shift;
* `SafeShift.not_occursAt`, `not_occursAt_of_bound`: no occurrence is passed over.
-/

namespace CFLite.Framework

variable {α : Type*} {needle hay : List α}

/-! ## Occurrences -/

/-- The pattern occurs at an index of the text. -/
def OccursAt (hay needle : List α) (a : Nat) : Prop := ∀ y < needle.length, hay[a + y]? = needle[y]?

/-- The pattern matches the text at `a` after its character `x`. -/
def MatchesAfter (hay needle : List α) (a : Nat) (x : Int) : Prop :=
  ∀ y : Nat, x < y → y < needle.length → hay[a + y]? = needle[y]?

theorem OccursAt.le (h : OccursAt hay needle a) (hne : needle ≠ []) : a + needle.length ≤ hay.length := by
  have hpos := List.length_pos_of_ne_nil hne
  have hlast := h (needle.length - 1) (by omega)
  rw [List.getElem?_eq_getElem (show needle.length - 1 < needle.length by omega)] at hlast
  have hlt := (List.getElem?_eq_some_iff.mp hlast).1
  omega

theorem matchesAfter_neg_one {a : Nat} : MatchesAfter hay needle a (-1) ↔ OccursAt hay needle a :=
  ⟨fun h y hy => h y (by omega) hy, fun h y _ hy => h y hy⟩

theorem matchesAfter_last (hay : List α) (a : Nat) : MatchesAfter hay needle a (needle.length - 1) :=
  fun y hlt hy => absurd hlt (by omega)

theorem MatchesAfter.pred {a x : Nat} (h : MatchesAfter hay needle a x) (hx : hay[a + x]? = needle[x]?) :
    MatchesAfter hay needle a (x - 1) := by
  intro y hlt hy
  rcases Nat.lt_or_ge x y with hafter | hle
  · exact h y (by omega) hy
  · obtain rfl : y = x := by omega
    exact hx

/-! ## Shifts -/

/-- A pattern that is shifted by `d` does not contradict a text that matches it
after `x` and differs from it at `x`. -/
structure Consistent (needle : List α) (x d : Nat) : Prop where
  same : ∀ y, x < y → y < needle.length → d ≤ y → needle[y - d]? = needle[y]?
  differ : d ≤ x → needle[x - d]? ≠ needle[x]?

/-- At an occurrence the shift is consistent. -/
theorem Consistent.of_occursAt {a x d : Nat} (hx : x < needle.length) (hafter : MatchesAfter hay needle a x)
    (hdiffer : hay[a + x]? ≠ needle[x]?) (h : OccursAt hay needle (a + d)) : Consistent needle x d where
  same y hlt hy hd := by
    rw [← hafter y (by omega) hy, ← h (y - d) (by omega), Nat.add_assoc, Nat.add_sub_cancel' hd]
  differ hd := by
    rw [← h (x - d) (by omega), Nat.add_assoc, Nat.add_sub_cancel' hd]
    exact hdiffer

/-- A shift that passes over no consistent one. -/
structure SafeShift (needle : List α) (x d : Nat) : Prop where
  pos : 1 ≤ d
  least : ∀ e, 1 ≤ e → Consistent needle x e → d ≤ e

/-- A safe shift passes over no occurrence. -/
theorem SafeShift.not_occursAt {a b x d : Nat} (h : SafeShift needle x d) (hx : x < needle.length)
    (hafter : MatchesAfter hay needle a x) (hdiffer : hay[a + x]? ≠ needle[x]?) (hab : a < b) (hb : b < a + d) :
    ¬ OccursAt hay needle b := by
  intro hoccurs
  obtain ⟨e, rfl⟩ := Nat.exists_eq_add_of_lt hab
  have hle := h.least (e + 1) (Nat.succ_pos e) (.of_occursAt hx hafter hdiffer hoccurs)
  omega

/-- A shift of the end of the pattern from `a + x` that is at most the distance of
each of its characters `c` from the end passes over no occurrence. -/
theorem not_occursAt_of_bound {a b x v : Nat} {c : α} (hx : x < needle.length) (hc : hay[a + x]? = some c)
    (hv : v ≤ needle.length) (hbound : ∀ y, needle[y]? = some c → v + y + 1 ≤ needle.length) (hab : a < b)
    (hb : b + needle.length < a + x + v + 1) : ¬ OccursAt hay needle b := by
  intro hoccurs
  rcases Nat.lt_or_ge (a + x) b with hpast | hwithin
  · omega
  · have hget := hoccurs (a + x - b) (by omega)
    rw [Nat.add_sub_cancel' hwithin, hc] at hget
    have hle := hbound _ hget.symm
    omega

/-! ## Suffixes -/

/-- `k` is the number of characters up to `i` that are the end of the pattern. -/
structure SuffixLength (needle : List α) (i k : Nat) : Prop where
  le : k ≤ i + 1
  same : ∀ t < k, needle[i - t]? = needle[needle.length - 1 - t]?
  differ : k ≤ i → needle[i - k]? ≠ needle[needle.length - 1 - k]?

theorem SuffixLength.unique {i k k' : Nat} (h : SuffixLength needle i k) (h' : SuffixLength needle i k') : k = k' := by
  rcases Nat.lt_trichotomy k k' with hlt | heq | hlt
  · have hle := h'.le
    exact absurd (h'.same k hlt) (h.differ (by omega))
  · exact heq
  · have hle := h.le
    exact absurd (h.same k' hlt) (h'.differ (by omega))

theorem suffixLength_last (h : needle ≠ []) : SuffixLength needle (needle.length - 1) needle.length where
  le := by
    have hpos := List.length_pos_of_ne_nil h
    omega
  same _ _ := rfl
  differ hle := by
    have hpos := List.length_pos_of_ne_nil h
    omega

/-- What the lengths of the suffixes bound is a safe shift. -/
theorem safeShift_of_suffixLengths {x d : Nat} (hx : x < needle.length) (hpos : 1 ≤ d) (hd : d ≤ needle.length)
    (hsuffix : ∀ i, i + 1 < needle.length → SuffixLength needle i (needle.length - 1 - x) → d ≤ needle.length - 1 - i)
    (hborder : ∀ e, x < e → e < needle.length →
      SuffixLength needle (needle.length - 1 - e) (needle.length - e) → d ≤ e) : SafeShift needle x d where
  pos := hpos
  least e he hconsistent := by
    rcases Nat.lt_or_ge e needle.length with hlt | hge
    · rcases Nat.lt_or_ge x e with hborder' | hle
      · -- a prefix of the pattern is its end
        refine hborder e hborder' hlt ⟨by omega, fun t ht => ?_, fun h => absurd h (by omega)⟩
        have hsame := hconsistent.same (needle.length - 1 - t) (by omega) (by omega) (by omega)
        rwa [show needle.length - 1 - t - e = needle.length - 1 - e - t by omega] at hsame
      · have hi : needle.length - 1 - (needle.length - 1 - e) = e := by omega
        rw [← hi]
        refine hsuffix _ (by omega) ⟨by omega, fun t ht => ?_, fun h => ?_⟩
        · have hsame := hconsistent.same (needle.length - 1 - t) (by omega) (by omega) (by omega)
          rwa [show needle.length - 1 - t - e = needle.length - 1 - e - t by omega] at hsame
        · have hdiffer := hconsistent.differ hle
          rwa [show needle.length - 1 - e - (needle.length - 1 - x) = x - e by omega,
            show needle.length - 1 - (needle.length - 1 - x) = x by omega]
    · omega

end CFLite.Framework
