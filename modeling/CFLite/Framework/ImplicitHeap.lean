import Mathlib.Data.List.Perm.Basic
import Mathlib.Data.Multiset.Basic

/-!
# Heap order on a list

A list read as a complete binary tree, element `i` being the parent of elements
`2 * i + 1` and `2 * i + 2`, and the two ways to restore its order around a hole
that waits for a value: elements move down into the hole from above it, or up
from below.

* `UpHole.move`, `DownHole.move`: a move keeps what the hole needs;
* `UpHole.fill`, `DownHole.fill`: the order of the list once the hole is filled;
* `perm_move`: a move changes the place of elements only.
-/

namespace CFLite.Framework

variable {α : Type*} {le : α → α → Prop} {l : List α} {hole : Nat} {v : α}

/-- Every element is at or after its parent. -/
def HeapOrdered (le : α → α → Prop) (l : List α) : Prop :=
  ∀ i x p, 0 < i → l[i]? = some x → l[(i - 1) / 2]? = some p → le p x

/-- The order is kept, except around the hole. -/
def OrderedOff (le : α → α → Prop) (l : List α) (hole : Nat) : Prop :=
  ∀ i x p, 0 < i → i ≠ hole → (i - 1) / 2 ≠ hole → l[i]? = some x → l[(i - 1) / 2]? = some p → le p x

/-- The children of the hole are at or after its parent. -/
def Grand (le : α → α → Prop) (l : List α) (hole : Nat) : Prop :=
  ∀ i x p, 0 < i → (i - 1) / 2 = hole → 0 < hole → l[i]? = some x → l[(hole - 1) / 2]? = some p → le p x

/-- A hole on its way up. `v` is before what is below the hole. -/
structure UpHole (le : α → α → Prop) (l : List α) (hole : Nat) (v : α) : Prop where
  off : OrderedOff le l hole
  grand : Grand le l hole
  below : ∀ i x, 0 < i → (i - 1) / 2 = hole → l[i]? = some x → le v x

/-- A hole on its way down. `v` is after what is above the hole. -/
structure DownHole (le : α → α → Prop) (l : List α) (hole : Nat) (v : α) : Prop where
  off : OrderedOff le l hole
  grand : Grand le l hole
  above : ∀ p, 0 < hole → l[(hole - 1) / 2]? = some p → le p v

theorem perm_set (h : hole < l.length) (v : α) : (l[hole] :: l.set hole v).Perm (v :: l) :=
  calc (l[hole] :: l.set hole v).Perm (l[hole] :: v :: l.eraseIdx hole) :=
        (List.set_perm_cons_eraseIdx h v).cons _
    _ |>.Perm (v :: l[hole] :: l.eraseIdx hole) := List.Perm.swap _ _ _
    _ |>.Perm (v :: l) := (List.getElem_cons_eraseIdx_perm h).cons _

/-- The hole moves to `k`, whose element takes its place. -/
theorem perm_move {k : Nat} {x : α} (hhole : hole < l.length) (hne : hole ≠ k) (hk : l[k]? = some x) (v : α) :
    ((l.set hole x).set k v).Perm (l.set hole v) := by
  have hlt : k < l.length := (List.getElem?_eq_some_iff.mp hk).1
  have hlt' : k < (l.set hole x).length := by rwa [List.length_set]
  have hx : (l.set hole x)[k] = x :=
    Option.some.inj ((List.getElem?_eq_getElem _).symm.trans ((List.getElem?_set_ne hne).trans hk))
  have h₁ := perm_set hlt' v
  have h₂ := perm_set hhole x
  have h₃ := perm_set hhole v
  rw [hx] at h₁
  -- both sides become `x :: v :: l` when `x` and what was in the hole are put in front
  have h : (l[hole] :: x :: (l.set hole x).set k v).Perm (l[hole] :: x :: l.set hole v) :=
    calc (l[hole] :: x :: (l.set hole x).set k v).Perm (l[hole] :: v :: l.set hole x) := h₁.cons _
      _ |>.Perm (v :: l[hole] :: l.set hole x) := List.Perm.swap _ _ _
      _ |>.Perm (v :: x :: l) := h₂.cons _
      _ |>.Perm (x :: v :: l) := List.Perm.swap _ _ _
      _ |>.Perm (x :: l[hole] :: l.set hole v) := h₃.symm.cons _
      _ |>.Perm (l[hole] :: x :: l.set hole v) := List.Perm.swap _ _ _
  exact (List.perm_cons _).mp ((List.perm_cons _).mp h)

section Order

variable (total : ∀ a b, le a b ∨ le b a) (trans : ∀ a b c, le a b → le b c → le a c)
include trans

theorem UpHole.move {p : α} (h : UpHole le l hole v) (hpos : 0 < hole) (hlt : hole < l.length)
    (hp : l[(hole - 1) / 2]? = some p) (hle : le v p) : UpHole le (l.set hole p) ((hole - 1) / 2) v := by
  -- the parent is before everything below the hole and what is next to it
  have hup : ∀ q, 0 < (hole - 1) / 2 → l[((hole - 1) / 2 - 1) / 2]? = some q → le q p := fun q hq hget =>
    h.off _ p q hq (by omega) (by omega) hp hget
  have hside : ∀ i x, 0 < i → i ≠ hole → (i - 1) / 2 = (hole - 1) / 2 → l[i]? = some x → le p x :=
    fun i x hi hne hpar hget => h.off i x p hi hne (by omega) hget (hpar ▸ hp)
  refine ⟨fun i x q hi hne hpar hget hq => ?_, fun i x q hi hpar hpos' hget hq => ?_,
    fun i x hi hpar hget => ?_⟩
  · by_cases hih : i = hole
    · exact absurd (congrArg (fun i => (i - 1) / 2) hih) hpar
    rw [List.getElem?_set_ne (Ne.symm hih)] at hget
    by_cases hph : (i - 1) / 2 = hole
    · rw [hph, List.getElem?_set_self hlt, Option.some_inj] at hq
      exact hq ▸ h.grand i x p hi hph hpos hget hp
    · rw [List.getElem?_set_ne (Ne.symm hph)] at hq
      exact h.off i x q hi hih hph hget hq
  · rw [List.getElem?_set_ne (by omega)] at hq
    by_cases hih : i = hole
    · rw [hih, List.getElem?_set_self hlt, Option.some_inj] at hget
      exact hget ▸ hup q hpos' hq
    · rw [List.getElem?_set_ne (Ne.symm hih)] at hget
      exact trans _ _ _ (hup q hpos' hq) (hside i x hi hih hpar hget)
  · by_cases hih : i = hole
    · rw [hih, List.getElem?_set_self hlt, Option.some_inj] at hget
      exact hget ▸ hle
    · rw [List.getElem?_set_ne (Ne.symm hih)] at hget
      exact trans _ _ _ hle (hside i x hi hih hpar hget)

omit trans in
theorem UpHole.fill (h : UpHole le l hole v) (hlt : hole < l.length)
    (hstop : ∀ p, 0 < hole → l[(hole - 1) / 2]? = some p → le p v) : HeapOrdered le (l.set hole v) := by
  intro i x p hi hget hp
  by_cases hih : i = hole
  · subst hih
    rw [List.getElem?_set_self hlt, Option.some_inj] at hget
    rw [List.getElem?_set_ne (by omega)] at hp
    exact hget ▸ hstop p hi hp
  rw [List.getElem?_set_ne (Ne.symm hih)] at hget
  by_cases hph : (i - 1) / 2 = hole
  · rw [hph, List.getElem?_set_self hlt, Option.some_inj] at hp
    exact hp ▸ h.below i x hi hph hget
  · rw [List.getElem?_set_ne (Ne.symm hph)] at hp
    exact h.off i x p hi hih hph hget hp

omit trans in
/-- The child `c` of the hole, before which no other child is, moves up. -/
theorem DownHole.move {c : Nat} {x : α} (h : DownHole le l hole v) (hc : 0 < c) (hpar : (c - 1) / 2 = hole)
    (hx : l[c]? = some x) (hleast : ∀ i y, 0 < i → (i - 1) / 2 = hole → l[i]? = some y → le x y) (hle : le x v) :
    DownHole le (l.set hole x) c v := by
  have hclt : c < l.length := (List.getElem?_eq_some_iff.mp hx).1
  have hlt : hole < l.length := by omega
  refine ⟨fun i y q hi hne hpc hget hq => ?_, fun i y q hi hpc _ hget hq => ?_, fun q _ hq => ?_⟩
  · by_cases hih : i = hole
    · subst hih
      rw [List.getElem?_set_self hlt, Option.some_inj] at hget
      rw [List.getElem?_set_ne (by omega)] at hq
      exact hget ▸ h.grand c x q hc hpar hi hx hq
    rw [List.getElem?_set_ne (Ne.symm hih)] at hget
    by_cases hph : (i - 1) / 2 = hole
    · rw [hph, List.getElem?_set_self hlt, Option.some_inj] at hq
      exact hq ▸ hleast i y hi hph hget
    · rw [List.getElem?_set_ne (Ne.symm hph)] at hq
      exact h.off i y q hi hih hph hget hq
  · rw [hpar, List.getElem?_set_self hlt, Option.some_inj] at hq
    rw [List.getElem?_set_ne (by omega)] at hget
    exact hq ▸ h.off i y x hi (by omega) (by omega) hget (hpc ▸ hx)
  · rw [hpar, List.getElem?_set_self hlt, Option.some_inj] at hq
    exact hq ▸ hle

omit trans in
theorem DownHole.fill (h : DownHole le l hole v) (hlt : hole < l.length)
    (hstop : ∀ i x, 0 < i → (i - 1) / 2 = hole → l[i]? = some x → le v x) : HeapOrdered le (l.set hole v) :=
  UpHole.fill ⟨h.off, h.grand, hstop⟩ hlt h.above

include total in
/-- The first element is before every other. -/
theorem HeapOrdered.first_le (h : HeapOrdered le l) {m : α} (hm : l[0]? = some m) {i : Nat} {x : α}
    (hx : l[i]? = some x) : le m x := by
  induction i using Nat.strong_induction_on generalizing x with
  | _ i ih =>
    rcases Nat.eq_zero_or_pos i with rfl | hi
    · rw [hm, Option.some_inj] at hx
      exact hx ▸ (total m m).elim id id
    · have hlt : i < l.length := (List.getElem?_eq_some_iff.mp hx).1
      have hhalf : (i - 1) / 2 < l.length := by omega
      have hpar : l[(i - 1) / 2]? = some l[(i - 1) / 2] := List.getElem?_eq_getElem _
      exact trans _ _ _ (ih _ (by omega) hpar) (h i x _ hi hx hpar)

end Order

end CFLite.Framework
