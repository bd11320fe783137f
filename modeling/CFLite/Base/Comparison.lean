import Mathlib.Logic.Basic

/-!
# Comparators
-/

namespace CFLite

/-- What a comparator answers: `kCFCompareLessThan`, `kCFCompareEqualTo` or
`kCFCompareGreaterThan`. -/
abbrev CFComparisonResult := Ordering

/-- A comparator that is a total preorder. -/
structure TotalPreorder {α : Type*} (compare : α → α → CFComparisonResult) : Prop where
  swap : ∀ a b, compare a b = (compare b a).swap
  trans : ∀ a b c, compare a b ≠ .gt → compare b c ≠ .gt → compare a c ≠ .gt

/-- `a` may stand before `b`. -/
def NotAfter {α : Type*} (compare : α → α → CFComparisonResult) (a b : α) : Prop := compare a b ≠ .gt

section TotalPreorder

variable {α : Type*} {compare : α → α → CFComparisonResult}

instance (a b : α) : Decidable (NotAfter compare a b) := inferInstanceAs (Decidable (_ ≠ _))

theorem TotalPreorder.lt_iff (h : TotalPreorder compare) (a b : α) : compare b a = .lt ↔ ¬ NotAfter compare a b := by
  rw [NotAfter, not_not, h.swap a b]
  cases compare b a <;> decide

theorem TotalPreorder.total (h : TotalPreorder compare) (a b : α) :
    NotAfter compare a b ∨ NotAfter compare b a := by
  rw [NotAfter, NotAfter, h.swap a b]
  cases compare b a <;> decide

theorem TotalPreorder.refl (h : TotalPreorder compare) (a : α) : NotAfter compare a a :=
  (h.total a a).elim id id

theorem TotalPreorder.of_not (h : TotalPreorder compare) {a b : α} (hab : ¬ NotAfter compare a b) :
    NotAfter compare b a :=
  (h.total a b).resolve_left hab

end TotalPreorder

end CFLite
