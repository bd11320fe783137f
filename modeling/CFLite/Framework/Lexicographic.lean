import Mathlib.Order.Lattice
import Mathlib.Data.List.TakeDrop
import Mathlib.Order.Defs.LinearOrder

/-!
# The lexicographic order of lists, found by a scan

A scan over two lists passes the elements that are equal and decides at the
first ones that differ, or by the lengths where it comes to an end.

* `lexCompare_drop`: what both lists begin with does not count;
* `lexCompare_of_take_eq`: where one list begins the other, the lengths decide;
* `lexCompare_of_take_ne`: else what the scan passes over decides;
* `lexCompare_swap`, `lexCompare_trans`, `lexCompare_eq_iff`: the order is total.
-/

namespace CFLite.Framework

variable {α : Type*} [LinearOrder α]

/-- The lexicographic order, where a list comes after what it begins with. -/
def lexCompare : List α → List α → Ordering
  | [], [] => .eq
  | [], _ :: _ => .lt
  | _ :: _, [] => .gt
  | x :: xs, y :: ys => if x < y then .lt else if y < x then .gt else lexCompare xs ys

theorem lexCompare_cons_self (x : α) (as bs : List α) : lexCompare (x :: as) (x :: bs) = lexCompare as bs := by
  rw [lexCompare, if_neg (lt_irrefl x), if_neg (lt_irrefl x)]

theorem lexCompare_cons_of_ne {x y : α} (h : x ≠ y) (as bs : List α) :
    lexCompare (x :: as) (y :: bs) = if x < y then .lt else .gt := by
  rw [lexCompare]
  split
  · rfl
  · rename_i hlt
    rw [if_pos (lt_of_le_of_ne (not_lt.mp hlt) h.symm)]

theorem lexCompare_append_left (common as bs : List α) :
    lexCompare (common ++ as) (common ++ bs) = lexCompare as bs := by
  induction common with
  | nil => rfl
  | cons x common ih => rw [List.cons_append, List.cons_append, lexCompare_cons_self, ih]

/-- What both lists begin with does not count. -/
theorem lexCompare_drop {as bs : List α} {n : Nat} (h : as.take n = bs.take n) :
    lexCompare as bs = lexCompare (as.drop n) (bs.drop n) := by
  conv_lhs => rw [← List.take_append_drop n as, ← List.take_append_drop n bs, h]
  exact lexCompare_append_left _ _ _

/-- One list begins the other: the lengths decide. -/
theorem lexCompare_of_take_eq {as bs : List α} (h : as.take (min as.length bs.length) = bs.take (min as.length bs.length)) :
    lexCompare as bs = if as.length < bs.length then .lt else if bs.length < as.length then .gt else .eq := by
  rw [lexCompare_drop h]
  rcases Nat.lt_trichotomy as.length bs.length with hlt | heq | hgt
  · rw [if_pos hlt, Nat.min_eq_left (Nat.le_of_lt hlt), List.drop_length, ← List.getElem_cons_drop hlt]
    rfl
  · rw [if_neg (by omega), if_neg (by omega), heq, Nat.min_self, List.drop_length, ← heq, List.drop_length]
    rfl
  · rw [if_neg (by omega), if_pos hgt, Nat.min_eq_right (Nat.le_of_lt hgt), List.drop_length,
      ← List.getElem_cons_drop hgt]
    rfl

/-- Two lists of one length that differ decide for all lists that they begin. -/
theorem lexCompare_append {as bs : List α} (hlen : as.length = bs.length) (h : as ≠ bs) (as' bs' : List α) :
    lexCompare (as ++ as') (bs ++ bs') = lexCompare as bs := by
  induction as generalizing bs with
  | nil => exact absurd (List.length_eq_zero_iff.mp hlen.symm).symm h
  | cons x as ih =>
    cases bs with
    | nil => cases hlen
    | cons y bs =>
      rw [List.cons_append, List.cons_append]
      by_cases hxy : x = y
      · subst hxy
        rw [lexCompare_cons_self, lexCompare_cons_self]
        exact ih (Nat.succ.inj hlen) fun heq => h (heq ▸ rfl)
      · rw [lexCompare_cons_of_ne hxy, lexCompare_cons_of_ne hxy]

/-- Two lists that differ before the end of either. -/
theorem lexCompare_of_take_ne {as bs : List α} {n : Nat} (ha : n ≤ as.length) (hb : n ≤ bs.length)
    (h : as.take n ≠ bs.take n) : lexCompare as bs = lexCompare (as.take n) (bs.take n) := by
  conv_lhs => rw [← List.take_append_drop n as, ← List.take_append_drop n bs]
  exact lexCompare_append (by rw [List.length_take_of_le ha, List.length_take_of_le hb]) h _ _

theorem lexCompare_swap (as bs : List α) : lexCompare as bs = (lexCompare bs as).swap := by
  induction as generalizing bs with
  | nil => cases bs <;> rfl
  | cons x as ih =>
    cases bs with
    | nil => rfl
    | cons y bs =>
      rw [lexCompare, lexCompare, ih bs]
      rcases lt_trichotomy x y with hlt | heq | hgt
      · rw [if_pos hlt, if_neg (not_lt_of_gt hlt), if_pos hlt]
        rfl
      · subst heq
        rw [if_neg (lt_irrefl x), if_neg (lt_irrefl x), if_neg (lt_irrefl x), if_neg (lt_irrefl x)]
      · rw [if_neg (not_lt_of_gt hgt), if_pos hgt, if_pos hgt]
        rfl

/-- Of two lists, the one that does not come after the other. -/
theorem lexCompare_cons_ne_gt {x y : α} {as bs : List α} :
    lexCompare (x :: as) (y :: bs) ≠ .gt ↔ x < y ∨ (x = y ∧ lexCompare as bs ≠ .gt) := by
  rw [lexCompare]
  split_ifs with hlt hgt
  · exact ⟨fun _ => .inl hlt, fun _ => nofun⟩
  · refine ⟨fun h => absurd rfl h, ?_⟩
    rintro (h | ⟨h, -⟩)
    · exact absurd h hlt
    · exact absurd h (ne_of_lt hgt).symm
  · refine ⟨fun h => .inr ⟨le_antisymm (not_lt.mp hgt) (not_lt.mp hlt), h⟩, ?_⟩
    rintro (h | ⟨-, h⟩)
    · exact absurd h hlt
    · exact h

theorem lexCompare_trans {as bs cs : List α} (hab : lexCompare as bs ≠ .gt) (hbc : lexCompare bs cs ≠ .gt) :
    lexCompare as cs ≠ .gt := by
  induction as generalizing bs cs with
  | nil => cases cs <;> exact nofun
  | cons x as ih =>
    cases bs with
    | nil => exact absurd rfl hab
    | cons y bs =>
      cases cs with
      | nil => exact absurd rfl hbc
      | cons z cs =>
        rw [lexCompare_cons_ne_gt] at hab hbc ⊢
        rcases hab with hab | ⟨rfl, hab⟩
        · rcases hbc with hbc | ⟨rfl, -⟩
          · exact .inl (lt_trans hab hbc)
          · exact .inl hab
        · rcases hbc with hbc | ⟨rfl, hbc⟩
          · exact .inl hbc
          · exact .inr ⟨rfl, ih hab hbc⟩

theorem lexCompare_eq_iff (as bs : List α) : lexCompare as bs = .eq ↔ as = bs := by
  induction as generalizing bs with
  | nil => cases bs <;> simp [lexCompare]
  | cons x as ih =>
    cases bs with
    | nil => simp [lexCompare]
    | cons y bs =>
      by_cases hxy : x = y
      · subst hxy
        rw [lexCompare_cons_self, ih, List.cons.injEq, and_iff_right rfl]
      · rw [lexCompare_cons_of_ne hxy, List.cons.injEq]
        refine ⟨fun h => ?_, fun h => absurd h.1 hxy⟩
        split at h <;> cases h

end CFLite.Framework
