import Mathlib.Data.List.FinRange
import Mathlib.Data.List.Sort

/-!
# Stable sorting

What it means for a list to be another one in order, with elements that may
stand either way round kept as they were, and how the merge of two lists and the
exchange of two neighbours get there. The elements are followed by their
positions in the list they come from.

* `IsStableSort.unique`: there is only one such list;
* `pairwise_merge_of`: the order of a merge;
* `Kept.isStableSort`: what neighbours that are exchanged only when they must be
  lead to;
* `carry`: a pass of such exchanges, which leaves a last element at the end;
* `eq_mergeSort`: sorting by keys.
-/

namespace CFLite.Framework

variable {β : Type*} {le : β → β → Prop} {l r : List β}

/-- Position `i` of `l` comes before position `j` in the stable order. -/
def Before (le : β → β → Prop) (l : List β) (i j : Fin l.length) : Prop :=
  le (l.get i) (l.get j) ∧ (le (l.get j) (l.get i) → i < j)

/-- `r` is `l` in stable order. -/
def IsStableSort (le : β → β → Prop) (l r : List β) : Prop :=
  ∃ p : List (Fin l.length), p.Perm (List.finRange l.length) ∧ p.Pairwise (Before le l) ∧ r = p.map l.get

theorem Before.trans (trans : ∀ a b c, le a b → le b c → le a c) {i j k : Fin l.length} (hij : Before le l i j)
    (hjk : Before le l j k) : Before le l i k := by
  refine ⟨trans _ _ _ hij.1 hjk.1, fun hki => ?_⟩
  have hj : i < j := hij.2 (trans _ _ _ hjk.1 hki)
  exact hj.trans (hjk.2 (trans _ _ _ hki hij.1))

theorem Before.asymm {i j : Fin l.length} (hij : Before le l i j) (hji : Before le l j i) : False :=
  lt_asymm (hij.2 hji.1) (hji.2 hij.1)

theorem map_get_perm {p : List (Fin l.length)} (hp : p.Perm (List.finRange l.length)) : (p.map l.get).Perm l := by
  have h := hp.map l.get
  rwa [List.map_get_finRange] at h

theorem IsStableSort.perm (h : IsStableSort le l r) : r.Perm l := by
  obtain ⟨p, hp, -, rfl⟩ := h
  exact map_get_perm hp

theorem IsStableSort.pairwise (h : IsStableSort le l r) : r.Pairwise le := by
  obtain ⟨p, -, hp, rfl⟩ := h
  exact List.pairwise_map.mpr (hp.imp fun h => h.1)

theorem IsStableSort.unique {r' : List β} (h : IsStableSort le l r) (h' : IsStableSort le l r') : r = r' := by
  obtain ⟨p, hperm, hp, rfl⟩ := h
  obtain ⟨p', hperm', hp', rfl⟩ := h'
  have heq : p = p' := (hperm.trans hperm'.symm).eq_of_pairwise (fun _ _ _ _ h h' => (h.asymm h').elim) hp hp'
  rw [heq]

/-- The stable order survives a change of the elements. -/
theorem IsStableSort.map {γ : Type*} {le' : γ → γ → Prop} {f : γ → β} (hle : ∀ a b, le (f a) (f b) ↔ le' a b)
    {l r : List γ} (h : IsStableSort le' l r) : IsStableSort le (l.map f) (r.map f) := by
  obtain ⟨p, hperm, hpairwise, rfl⟩ := h
  have hlen : l.length = (l.map f).length := (List.length_map f).symm
  have hget : ∀ i : Fin l.length, (l.map f).get (i.cast hlen) = f (l.get i) := fun i => by simp
  have hcast : ∀ {n m : Nat} (h : n = m), (List.finRange n).map (Fin.cast h) = List.finRange m := by
    rintro n _ rfl
    simp
  refine ⟨p.map (Fin.cast hlen), hcast hlen ▸ hperm.map _, ?_, ?_⟩
  · refine List.pairwise_map.mpr (hpairwise.imp fun {i j} hij => ?_)
    rw [Before, hget, hget, hle, hle]
    exact hij
  · rw [List.map_map, List.map_map]
    exact List.map_congr_left fun i _ => (hget i).symm

/-- The order of a merge, which compares an element of `xs` with one of `ys`
only. -/
theorem pairwise_merge_of {γ : Type*} {R : γ → γ → Prop} {le : γ → γ → Bool} (trans : ∀ a b c, R a b → R b c → R a c)
    {xs ys : List γ} (hcross : ∀ x ∈ xs, ∀ y ∈ ys, if le x y then R x y else R y x) (hxs : xs.Pairwise R)
    (hys : ys.Pairwise R) : (List.merge xs ys le).Pairwise R := by
  induction xs generalizing ys with
  | nil => rwa [List.nil_merge]
  | cons x xs ihx =>
    induction ys with
    | nil => rwa [List.merge_right]
    | cons y ys ihy =>
      have hxy := hcross x List.mem_cons_self y List.mem_cons_self
      rw [List.pairwise_cons] at hxs hys
      rw [List.cons_merge_cons]
      split
      · rename_i hle
        rw [if_pos hle] at hxy
        refine List.Pairwise.cons (fun z hz => ?_)
          (ihx (fun a ha b hb => hcross a (List.mem_cons_of_mem x ha) b hb) hxs.2 (List.pairwise_cons.mpr hys))
        rcases List.mem_merge.mp hz with hz | hz
        · exact hxs.1 z hz
        · rcases List.mem_cons.mp hz with rfl | hz
          · exact hxy
          · exact trans _ _ _ hxy (hys.1 z hz)
      · rename_i hle
        rw [if_neg hle] at hxy
        refine List.Pairwise.cons (fun z hz => ?_)
          (ihy (fun a ha b hb => hcross a ha b (List.mem_cons_of_mem y hb)) hys.2)
        rcases List.mem_merge.mp hz with hz | hz
        · rcases List.mem_cons.mp hz with rfl | hz
          · exact hxy
          · exact trans _ _ _ hxy (hxs.1 z hz)
        · exact hys.1 z hz

/-- Positions that were moved past each other only where the order asks for it. -/
def Kept (le : β → β → Prop) (l : List β) (p : List (Fin l.length)) : Prop :=
  p.Perm (List.finRange l.length) ∧ p.Pairwise fun i j => i < j ∨ ¬ le (l.get j) (l.get i)

theorem Kept.finRange : Kept le l (List.finRange l.length) :=
  ⟨List.Perm.refl _, (List.pairwise_lt_finRange _).imp .inl⟩

/-- Two neighbours out of order change places. -/
theorem Kept.exchange {p q : List (Fin l.length)} {i j : Fin l.length} (h : Kept le l (p ++ i :: j :: q))
    (hij : ¬ le (l.get i) (l.get j)) : Kept le l (p ++ j :: i :: q) := by
  obtain ⟨hperm, hp⟩ := h
  refine ⟨(List.Perm.append_left p (List.Perm.swap i j q)).trans hperm, ?_⟩
  rw [List.pairwise_append, List.pairwise_cons, List.pairwise_cons] at hp ⊢
  obtain ⟨hp, ⟨hi, hj, hq⟩, hcross⟩ := hp
  refine ⟨hp, ⟨?_, fun k hk => hi k (List.mem_cons_of_mem j hk), hq⟩, fun a ha b hb => hcross a ha b ?_⟩
  · intro k hk
    rcases List.mem_cons.mp hk with rfl | hk
    · exact .inr hij
    · exact hj k hk
  · exact (List.Perm.swap i j q).mem_iff.mp hb

theorem Kept.isStableSort {p : List (Fin l.length)} (h : Kept le l p) (hsorted : (p.map l.get).Pairwise le) :
    IsStableSort le l (p.map l.get) := by
  refine ⟨p, h.1, ?_, rfl⟩
  refine (List.pairwise_map.mp hsorted).imp₂ (fun i j hle hkept => ⟨hle, fun hle' => ?_⟩) h.2
  exact hkept.resolve_right (not_not.mpr hle')

/-! ## A pass -/

/-- The list `a :: w` after a pass that exchanges neighbours where `lt` says that
the second one has to come first. -/
def carry {γ : Type*} (lt : γ → γ → Bool) : γ → List γ → List γ
  | a, [] => [a]
  | a, b :: w => if lt b a then b :: carry lt a w else a :: carry lt b w

theorem carry_perm {γ : Type*} (lt : γ → γ → Bool) (a : γ) (w : List γ) : (carry lt a w).Perm (a :: w) := by
  induction w generalizing a with
  | nil => exact List.Perm.refl _
  | cons b w ih =>
    rw [carry]
    split
    · exact ((ih a).cons b).trans (List.Perm.swap a b w)
    · exact (ih b).cons a

theorem carry_map {γ δ : Type*} (f : γ → δ) (lt : δ → δ → Bool) (a : γ) (w : List γ) :
    carry lt (f a) (w.map f) = (carry (fun x y => lt (f x) (f y)) a w).map f := by
  induction w generalizing a with
  | nil => rfl
  | cons b w ih =>
    rw [List.map_cons, carry, carry]
    split
    · rw [ih, List.map_cons]
    · rw [ih, List.map_cons]

/-- The element that a pass leaves at the end may stand there. -/
theorem carry_last {lt : β → β → Bool} (refl : ∀ a, le a a) (trans : ∀ a b c, le a b → le b c → le a c)
    (hlt : ∀ a b, if lt b a then le b a else le a b) (a : β) (w : List β) :
    ∃ u x, carry lt a w = u ++ [x] ∧ ∀ y ∈ a :: w, le y x := by
  induction w generalizing a with
  | nil => exact ⟨[], a, rfl, fun y hy => by rw [List.mem_singleton.mp hy]; exact refl a⟩
  | cons b w ih =>
    have hab := hlt a b
    rw [carry]
    split
    · rename_i h
      rw [if_pos h] at hab
      obtain ⟨u, x, hu, hx⟩ := ih a
      refine ⟨b :: u, x, by rw [hu, List.cons_append], fun y hy => ?_⟩
      have hax := hx a List.mem_cons_self
      rcases List.mem_cons.mp hy with rfl | hy
      · exact hax
      rcases List.mem_cons.mp hy with rfl | hy
      · exact trans _ _ _ hab hax
      · exact hx y (List.mem_cons_of_mem _ hy)
    · rename_i h
      rw [if_neg h] at hab
      obtain ⟨u, x, hu, hx⟩ := ih b
      refine ⟨a :: u, x, by rw [hu, List.cons_append], fun y hy => ?_⟩
      rcases List.mem_cons.mp hy with rfl | hy
      · exact trans _ _ _ hab (hx b List.mem_cons_self)
      · exact hx y hy

theorem Kept.carry {lt : Fin l.length → Fin l.length → Bool} (hlt : ∀ i j, lt j i → ¬ le (l.get i) (l.get j))
    {i : Fin l.length} {p w q : List (Fin l.length)} (h : Kept le l (p ++ i :: w ++ q)) :
    Kept le l (p ++ carry lt i w ++ q) := by
  induction w generalizing i p with
  | nil => exact h
  | cons j w ih =>
    rw [Framework.carry]
    simp only [List.append_assoc, List.cons_append] at h ⊢
    split
    · rename_i hji
      have hrest := ih (p := p ++ [j]) (i := i)
      simp only [List.append_assoc, List.cons_append, List.nil_append] at hrest
      exact hrest (h.exchange (hlt i j hji))
    · have hrest := ih (p := p ++ [i]) (i := j)
      simp only [List.append_assoc, List.cons_append, List.nil_append] at hrest
      exact hrest h

/-- A list in the order of keys is known by its elements of each key. -/
theorem eq_of_filter_eq {α : Type*} {key : α → Nat} {l r : List α} (hl : l.Pairwise fun a b => key a ≤ key b)
    (hr : r.Pairwise fun a b => key a ≤ key b)
    (h : ∀ k, l.filter (fun a => key a = k) = r.filter fun a => key a = k) : l = r := by
  have hmem : ∀ a, a ∈ l ↔ a ∈ r := fun a => by
    have hfilter : a ∈ l.filter (fun b => key b = key a) ↔ a ∈ r.filter fun b => key b = key a := by rw [h]
    simpa using hfilter
  induction l generalizing r with
  | nil => exact (List.eq_nil_iff_forall_not_mem.mpr fun a ha => by simpa using (hmem a).mpr ha).symm
  | cons a l ih =>
    cases r with
    | nil => exact absurd ((hmem a).mp List.mem_cons_self) List.not_mem_nil
    | cons b r =>
      obtain ⟨hal, hl'⟩ := List.pairwise_cons.mp hl
      obtain ⟨hbr, hr'⟩ := List.pairwise_cons.mp hr
      have hab : key a ≤ key b := by
        rcases List.mem_cons.mp ((hmem b).mpr List.mem_cons_self) with rfl | hb
        · exact Nat.le_refl _
        · exact hal b hb
      have hba : key b ≤ key a := by
        rcases List.mem_cons.mp ((hmem a).mp List.mem_cons_self) with rfl | ha
        · exact Nat.le_refl _
        · exact hbr a ha
      have hkey : key b = key a := Nat.le_antisymm hba hab
      obtain ⟨rfl, -⟩ : a = b ∧ _ := by simpa [hkey] using h (key a)
      have htails : ∀ k, l.filter (fun c => key c = k) = r.filter fun c => key c = k := by
        intro k
        have hk := h k
        by_cases ha : key a = k
        · simpa [List.filter_cons, ha] using hk
        · simpa [List.filter_cons, ha] using hk
      refine congrArg (List.cons a) (ih hl' hr' htails fun c => ?_)
      have hfilter : c ∈ l.filter (fun d => key d = key c) ↔ c ∈ r.filter fun d => key d = key c := by rw [htails]
      simpa using hfilter

/-- A list in the order of keys, with the elements of each key as they are in `r`, is the
merge sort of `r`. -/
theorem eq_mergeSort {α : Type*} {key : α → Nat} {l r : List α} (hl : l.Pairwise fun a b => key a ≤ key b)
    (h : ∀ k, l.filter (fun a => key a = k) = r.filter fun a => key a = k) :
    l = r.mergeSort fun a b => key a ≤ key b := by
  have htrans : ∀ a b c, decide (key a ≤ key b) = true → decide (key b ≤ key c) = true →
      decide (key a ≤ key c) = true := by
    intro a b c hab hbc
    simp only [decide_eq_true_eq] at hab hbc ⊢
    exact Nat.le_trans hab hbc
  have htotal : ∀ a b, (decide (key a ≤ key b) || decide (key b ≤ key a)) = true := by
    intro a b
    simp only [Bool.or_eq_true, decide_eq_true_eq]
    exact Nat.le_total _ _
  have hsorted := List.pairwise_mergeSort htrans htotal r
  refine eq_of_filter_eq hl (by simpa using hsorted) fun k => ?_
  rw [h k]
  -- The elements of one key are in order, so that the sort keeps them in their places.
  have hpairwise : (r.filter fun a => key a = k).Pairwise fun a b => decide (key a ≤ key b) = true :=
    List.pairwise_of_forall_mem_list fun a ha b hb => by
      simp only [List.mem_filter, decide_eq_true_eq] at ha hb ⊢
      omega
  have hfilter := (List.sublist_mergeSort htrans htotal hpairwise List.filter_sublist).filter fun a => decide (key a = k)
  simp only [List.filter_filter, Bool.and_self] at hfilter
  exact hfilter.eq_of_length ((List.mergeSort_perm r _).filter _).length_eq.symm

end CFLite.Framework
