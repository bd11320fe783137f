import Mathlib.Data.List.TakeWhile

/-!
# Slices of a list, and cutting at a delimiter

A scanner keeps positions in a text; what it finds is said of lists.

* `slice l a b`: the elements at `a`, …, `b - 1`;
* `firstIn p l a b`: the first position there with `p`;
* `cut p l`: what comes before the first element with `p`, and what after it;
* `cut_slice`: scanning for a position cuts the slice.
-/

namespace CFLite.Framework

variable {α : Type*} {l r : List α} {a b c i : Nat} {x : α} {p : α → Bool}

/-- The elements at the positions from `a` to `b`, without `b`. -/
def slice (l : List α) (a b : Nat) : List α := (l.drop a).take (b - a)

@[simp] theorem slice_self : slice l a a = [] := by simp [slice]

theorem slice_all : slice l 0 l.length = l := by simp [slice]

theorem length_slice (hb : b ≤ l.length) : (slice l a b).length = b - a := by
  rw [slice, List.length_take, List.length_drop]
  omega

theorem slice_append (hab : a ≤ b) (hbc : b ≤ c) : slice l a b ++ slice l b c = slice l a c := by
  have hlen : c - a = (b - a) + (c - b) := by omega
  have hdrop : l.drop b = (l.drop a).drop (b - a) := by
    rw [List.drop_drop]
    congr 1
    omega
  rw [slice, slice, slice, hlen, List.take_add, hdrop]

theorem slice_cons (h : l[a]? = some x) (hab : a < b) : slice l a b = x :: slice l (a + 1) b := by
  obtain ⟨ha, rfl⟩ := List.getElem?_eq_some_iff.mp h
  have hlen : b - a = (b - (a + 1)) + 1 := by omega
  rw [slice, slice, List.drop_eq_getElem_cons ha, hlen, List.take_succ_cons]

theorem slice_split (h : l[i]? = some x) (hai : a ≤ i) (hib : i < b) :
    slice l a b = slice l a i ++ x :: slice l (i + 1) b := by
  rw [← slice_append hai (Nat.le_of_lt hib), slice_cons h hib]

theorem mem_slice (h : x ∈ slice l a b) : ∃ i, a ≤ i ∧ i < b ∧ l[i]? = some x := by
  obtain ⟨k, hk, rfl⟩ := List.mem_iff_getElem.mp h
  have hlen : k < b - a ∧ k < l.length - a := by
    rw [slice, List.length_take, List.length_drop] at hk
    omega
  refine ⟨a + k, by omega, by omega, ?_⟩
  rw [List.getElem?_eq_getElem (by omega)]
  simp [slice]

/-! ## Scanning -/

/-- The first position from `a` to `b` whose element satisfies `p`. -/
def firstIn (p : α → Bool) (l : List α) (a b : Nat) : Option Nat :=
  (List.range' a (b - a)).find? fun i => (l[i]?).any p

theorem firstIn_eq_some (h : firstIn p l a b = some i) :
    a ≤ i ∧ i < b ∧ (∃ x, l[i]? = some x ∧ p x = true) ∧ ∀ y ∈ slice l a i, p y = false := by
  obtain ⟨hp, before, after, heq, hbefore⟩ := List.find?_eq_some_iff_append.mp h
  have hi : i ∈ List.range' a (b - a) := heq ▸ by simp
  obtain ⟨hai, hib⟩ := List.mem_range'_1.mp hi
  have hx : ∃ x, l[i]? = some x ∧ p x = true := by
    cases hget : l[i]? with
    | none => simp [hget] at hp
    | some x => exact ⟨x, rfl, by simpa [hget] using hp⟩
  refine ⟨hai, by omega, hx, fun y hy => ?_⟩
  obtain ⟨j, haj, hji, hj⟩ := mem_slice hy
  have hmem : j ∈ before := by
    have hin : j ∈ before ++ i :: after := heq ▸ List.mem_range'_1.mpr ⟨haj, by omega⟩
    have hsorted : (before ++ i :: after).Pairwise (· < ·) := heq ▸ List.pairwise_lt_range'
    rcases List.mem_append.mp hin with hin | hin
    · exact hin
    · rcases List.mem_cons.mp hin with rfl | hin
      · omega
      · have := List.rel_of_pairwise_cons (List.pairwise_append.mp hsorted).2.1 hin
        omega
  simpa [hj] using hbefore j hmem

theorem firstIn_eq_none (h : firstIn p l a b = none) : ∀ y ∈ slice l a b, p y = false := by
  intro y hy
  obtain ⟨j, haj, hjb, hj⟩ := mem_slice hy
  have := List.find?_eq_none.mp h j (List.mem_range'_1.mpr ⟨haj, by omega⟩)
  simpa [hj] using this

/-! ## Cutting -/

/-- What comes before the first element that satisfies `p`, and what after it. -/
def cut (p : α → Bool) : List α → List α × Option (List α)
  | [] => ([], none)
  | x :: l => if p x then ([], some l) else ((x :: (cut p l).1), (cut p l).2)

theorem cut_of_none (h : ∀ y ∈ l, p y = false) : cut p l = (l, none) := by
  induction l with
  | nil => rfl
  | cons y l ih =>
    obtain ⟨hy, hl⟩ := List.forall_mem_cons.mp h
    rw [cut, if_neg (by simp [hy]), ih hl]

theorem cut_append (h : ∀ y ∈ l, p y = false) (hx : p x = true) : cut p (l ++ x :: r) = (l, some r) := by
  induction l with
  | nil => simp [cut, hx]
  | cons y l ih =>
    obtain ⟨hy, hl⟩ := List.forall_mem_cons.mp h
    rw [List.cons_append, cut, if_neg (by simp [hy]), ih hl]

theorem cut_append_left (h : ∀ y ∈ l, p y = false) : cut p (l ++ r) = (l ++ (cut p r).1, (cut p r).2) := by
  induction l with
  | nil => rfl
  | cons y l ih =>
    obtain ⟨hy, hl⟩ := List.forall_mem_cons.mp h
    rw [List.cons_append, cut, if_neg (by simp [hy]), ih hl]
    rfl

/-- What comes before the first element that satisfies `p`, and the rest with it. -/
theorem takeWhile_slice (p : α → Bool) (l : List α) (a b : Nat) :
    (slice l a b).takeWhile (fun x => !p x) = slice l a ((firstIn p l a b).getD b) ∧
      (slice l a b).dropWhile (fun x => !p x) = slice l ((firstIn p l a b).getD b) b := by
  cases h : firstIn p l a b with
  | none =>
    have hall : ∀ y ∈ slice l a b, (!p y) = true := fun y hy => by simp [firstIn_eq_none h y hy]
    refine ⟨List.takeWhile_eq_self_iff.mpr hall, ?_⟩
    rw [Option.getD_none, slice_self]
    exact List.dropWhile_eq_nil_iff.mpr hall
  | some i =>
    obtain ⟨hai, hib, ⟨x, hx, hp⟩, hbefore⟩ := firstIn_eq_some h
    have hall : ∀ y ∈ slice l a i, (!p y) = true := fun y hy => by simp [hbefore y hy]
    have hsplit : slice l a b = slice l a i ++ slice l i b := (slice_append hai (Nat.le_of_lt hib)).symm
    rw [Option.getD_some, hsplit, List.takeWhile_append_of_pos hall, List.dropWhile_append_of_pos hall,
      slice_cons hx hib]
    simp [hp]

/-- A cut is found by scanning. -/
theorem cut_slice (p : α → Bool) (l : List α) (a b : Nat) : cut p (slice l a b) =
    match firstIn p l a b with
    | some i => (slice l a i, some (slice l (i + 1) b))
    | none => (slice l a b, none) := by
  cases h : firstIn p l a b with
  | none => exact cut_of_none (firstIn_eq_none h)
  | some i =>
    obtain ⟨hai, hib, ⟨x, hx, hp⟩, hbefore⟩ := firstIn_eq_some h
    rw [slice_split hx hai hib]
    exact cut_append hbefore hp

/-- The two sides of a cut, and the delimiter between them. -/
theorem cut_eq (p : α → Bool) (l : List α) :
    (∀ y ∈ (cut p l).1, p y = false) ∧
      match (cut p l).2 with
      | some after => ∃ x, p x = true ∧ l = (cut p l).1 ++ x :: after
      | none => l = (cut p l).1 := by
  induction l with
  | nil => simp [cut]
  | cons y l ih =>
    by_cases hy : p y = true
    · simp [cut, hy]
    · simp only [cut, hy, if_false, Bool.false_eq_true]
      refine ⟨List.forall_mem_cons.mpr ⟨by simpa using hy, ih.1⟩, ?_⟩
      have hl := ih.2
      cases hafter : (cut p l).2 with
      | none => simpa [hafter] using hl
      | some after => simpa [hafter] using hl

end CFLite.Framework
