import Mathlib.Algebra.GroupWithZero.Nat
import Mathlib.Data.List.Perm.Basic
import Mathlib.Algebra.BigOperators.Group.List.Basic
import Mathlib.Algebra.Order.BigOperators.Group.List
import Mathlib.Algebra.Order.Group.Nat

/-!
# Lists up to a relation

Lists that are compared by whether every element of one has a related element in
the other, without regard to the order.

* `SameUpTo.equivalence`: up to an equivalence this is one;
* `Contained.exists_rest`: what a list has besides a list of unrelated elements that
  is contained in it;
* `Contained.same`: lists of one weight are the same as soon as one of them is
  contained in the other.
-/

namespace CFLite.Framework

variable {α : Type*} {r : α → α → Prop} {l l' l'' : List α} {weight : α → Nat}

/-- Every element of `l` has a related one in `l'`. -/
def Contained (r : α → α → Prop) (l l' : List α) : Prop := ∀ a ∈ l, ∃ b ∈ l', r a b

/-- Each list is contained in the other. -/
def SameUpTo (r : α → α → Prop) (l l' : List α) : Prop := Contained r l l' ∧ Contained r l' l

theorem Contained.refl (hr : Equivalence r) (l : List α) : Contained r l l := fun a ha => ⟨a, ha, hr.refl a⟩

theorem Contained.trans (hr : Equivalence r) (h : Contained r l l') (h' : Contained r l' l'') : Contained r l l'' := by
  intro a ha
  obtain ⟨b, hb, hab⟩ := h a ha
  obtain ⟨c, hc, hbc⟩ := h' b hb
  exact ⟨c, hc, hr.trans hab hbc⟩

theorem SameUpTo.equivalence (hr : Equivalence r) : Equivalence (SameUpTo r) where
  refl l := ⟨Contained.refl hr l, Contained.refl hr l⟩
  symm h := ⟨h.2, h.1⟩
  trans h h' := ⟨h.1.trans hr h'.1, h'.2.trans hr h.2⟩

/-- Different elements of `l` have different related ones; the others are `rest`. -/
theorem Contained.exists_rest (hr : Equivalence r) (hweight : ∀ {a b}, r a b → weight a = weight b)
    (hdistinct : l.Pairwise fun a a' => ¬ r a a') (h : Contained r l l') :
    ∃ rest : List α, (∀ b ∈ rest, b ∈ l') ∧ (∀ b ∈ l', b ∈ rest ∨ ∃ a ∈ l, r a b) ∧
      (l'.map weight).sum = (l.map weight).sum + (rest.map weight).sum := by
  induction l generalizing l' with
  | nil => exact ⟨l', fun _ hb => hb, fun _ hb => .inl hb, (Nat.zero_add _).symm⟩
  | cons a l ih =>
    obtain ⟨hhead, htail⟩ := List.pairwise_cons.mp hdistinct
    obtain ⟨b, hb, hab⟩ := h a List.mem_cons_self
    obtain ⟨front, back, rfl⟩ := List.append_of_mem hb
    have hperm : (front ++ b :: back).Perm (b :: (front ++ back)) := List.perm_middle
    have hothers : Contained r l (front ++ back) := by
      intro a' ha'
      obtain ⟨b', hb', hab'⟩ := h a' (List.mem_cons_of_mem a ha')
      rcases List.mem_cons.mp (hperm.mem_iff.mp hb') with rfl | hmem
      · exact absurd (hr.trans hab (hr.symm hab')) (hhead a' ha')
      · exact ⟨b', hmem, hab'⟩
    obtain ⟨rest, hin, hcover, hsum⟩ := ih htail hothers
    refine ⟨rest, fun c hc => hperm.mem_iff.mpr (List.mem_cons_of_mem b (hin c hc)), fun c hc => ?_, ?_⟩
    · rcases List.mem_cons.mp (hperm.mem_iff.mp hc) with rfl | hmem
      · exact .inr ⟨a, List.mem_cons_self, hab⟩
      · exact (hcover c hmem).imp_right fun ⟨a', ha', hac⟩ => ⟨a', List.mem_cons_of_mem a ha', hac⟩
    · rw [(hperm.map weight).sum_eq, List.map_cons, List.sum_cons, hsum, List.map_cons, List.sum_cons, hweight hab,
        Nat.add_assoc]

theorem SameUpTo.sum_eq (hr : Equivalence r) (hweight : ∀ {a b}, r a b → weight a = weight b)
    (hdistinct : l.Pairwise fun a a' => ¬ r a a') (hdistinct' : l'.Pairwise fun a a' => ¬ r a a')
    (h : SameUpTo r l l') : (l.map weight).sum = (l'.map weight).sum := by
  obtain ⟨rest, -, -, hsum⟩ := h.1.exists_rest hr hweight hdistinct
  obtain ⟨rest', -, -, hsum'⟩ := h.2.exists_rest hr hweight hdistinct'
  omega

theorem Contained.same (hr : Equivalence r) (hweight : ∀ {a b}, r a b → weight a = weight b)
    (hdistinct : l.Pairwise fun a a' => ¬ r a a') (hpos : ∀ b ∈ l', 0 < weight b) (h : Contained r l l')
    (hsum : (l.map weight).sum = (l'.map weight).sum) : SameUpTo r l l' := by
  obtain ⟨rest, hin, hcover, hrest⟩ := h.exists_rest hr hweight hdistinct
  refine ⟨h, fun b hb => ?_⟩
  rcases hcover b hb with hmem | ⟨a, ha, hab⟩
  · -- an element of the rest would weigh something
    have hle : weight b ≤ (rest.map weight).sum := List.single_le_sum (fun _ _ => Nat.zero_le _) _ (List.mem_map_of_mem hmem)
    have := hpos b hb
    omega
  · exact ⟨a, ha, hr.symm hab⟩

end CFLite.Framework
