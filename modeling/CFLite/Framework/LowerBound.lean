import Mathlib.Order.Basic
import Mathlib.Data.Nat.Find

/-!
# Lower bounds

* `IsLowerBound`: the first index of a range at which a property fails, or the
  end of the range;
* `exists_isLowerBound`, `IsLowerBound.unique`: there is exactly one;
* `IsLowerBound.of_not`, `IsLowerBound.of_holds`: the two steps of a binary
  search;
* `IsLowerBound.iff`: where the property holds before every index at which it
  holds, it holds below the lower bound only.
-/

namespace CFLite.Framework

variable {p : Nat → Prop} {low high k j : Nat}

/-- `k` is the first of the indexes from `low` up to `high` at which `p` fails,
or `high` if it holds at all of them. -/
structure IsLowerBound (p : Nat → Prop) (low high k : Nat) : Prop where
  low_le : low ≤ k
  le_high : k ≤ high
  below : ∀ j, low ≤ j → j < k → p j
  stop : k < high → ¬ p k

/-- `p` holds at every index of the range before one at which it holds. -/
def HoldsBefore (p : Nat → Prop) (low high : Nat) : Prop := ∀ i j, low ≤ i → i ≤ j → j < high → p j → p i

theorem exists_isLowerBound (p : Nat → Prop) (h : low ≤ high) : ∃ k, IsLowerBound p low high k := by
  classical
  have hex : ∃ k, low ≤ k ∧ (k < high → ¬ p k) := ⟨high, h, fun hlt => absurd hlt (lt_irrefl high)⟩
  obtain ⟨hlow, hstop⟩ := Nat.find_spec hex
  refine ⟨Nat.find hex, hlow, Nat.find_min' hex ⟨h, fun hlt => absurd hlt (lt_irrefl high)⟩, fun j hj hlt => ?_, hstop⟩
  by_contra hp
  exact Nat.find_min hex hlt ⟨hj, fun _ => hp⟩

theorem IsLowerBound.unique {k' : Nat} (h : IsLowerBound p low high k) (h' : IsLowerBound p low high k') : k = k' := by
  rcases lt_trichotomy k k' with hlt | heq | hlt
  · exact absurd (h'.below k h.low_le hlt) (h.stop (hlt.trans_le h'.le_high))
  · exact heq
  · exact absurd (h.below k' h'.low_le hlt) (h'.stop (hlt.trans_le h.le_high))

theorem IsLowerBound.iff (h : IsLowerBound p low high k) (hp : HoldsBefore p low high) (hlow : low ≤ j)
    (hhigh : j < high) : p j ↔ j < k := by
  refine ⟨fun hj => ?_, h.below j hlow⟩
  by_contra hk
  exact h.stop ((not_lt.mp hk).trans_lt hhigh) (hp k j h.low_le (not_lt.mp hk) hhigh hj)

/-- The range can be cut at an index at which the property fails. -/
theorem IsLowerBound.of_not {mid : Nat} (h : IsLowerBound p low mid k) (hmid : mid ≤ high) (hp : ¬ p mid) :
    IsLowerBound p low high k := by
  refine ⟨h.low_le, h.le_high.trans hmid, h.below, fun _ => ?_⟩
  rcases h.le_high.lt_or_eq with hlt | rfl
  · exact h.stop hlt
  · exact hp

/-- The range can be cut after an index at which the property holds. -/
theorem IsLowerBound.of_holds {mid : Nat} (h : IsLowerBound p (mid + 1) high k) (hp : HoldsBefore p low high)
    (hlow : low ≤ mid) (hmid : mid < high) (hmidp : p mid) : IsLowerBound p low high k := by
  refine ⟨(hlow.trans (Nat.le_succ mid)).trans h.low_le, h.le_high, fun j hj hlt => ?_, h.stop⟩
  rcases Nat.lt_or_ge mid j with hafter | hbefore
  · exact h.below j hafter hlt
  · exact hp j mid hj hbefore hmid hmidp

end CFLite.Framework
