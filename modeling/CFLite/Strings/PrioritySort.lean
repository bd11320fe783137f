import CFLite.Framework.StableSort
import Mathlib.Data.List.Perm.Basic
import Mathlib.Data.List.Sort
import Mathlib.Tactic

/-!
# Sorting by combining class

`__CFUniCharPrioritySort` exchanges neighbours in passes until a pass exchanges none.
A pass compares with the class that it read last, which after an exchange is
not the class of the character before: it may leave neighbours for the next pass.

* `inversions_sortPass`: each exchange takes an inversion away, so that the passes end;
* `prioritySort_perm`, `prioritySort_sorted`: the characters are the same, in order behind the base;
* `prioritySort_eq_mergeSort`: that is what a merge sort by class gives.
-/

namespace CFLite.Strings.Decomposing

open Framework

variable (priority : Nat → Nat)

/-! ## The code -/

/-- A pass of `__CFUniCharPrioritySort` from a character on, whose class it takes to be `p2`:
whether it changes anything, and the characters then. -/
def sortPass : (p2 ch1 : Nat) → List Nat → Bool × List Nat
  | _, ch1, [] => (false, [ch1])
  | p1, ch1, ch2 :: rest =>
    if p1 > priority ch2 then (true, ch2 :: (sortPass (priority ch2) ch1 rest).2)
    else ((sortPass (priority ch2) ch2 rest).1, ch1 :: (sortPass (priority ch2) ch2 rest).2)

/-- The pairs of characters of which the class of the first is the higher one. -/
def inversions : List Nat → Nat
  | [] => 0
  | c :: cs => cs.countP (fun d => priority d < priority c) + inversions cs

theorem sortPass_perm (p2 ch1 : Nat) (rest : List Nat) :
    (sortPass priority p2 ch1 rest).2.Perm (ch1 :: rest) := by
  induction rest generalizing p2 ch1 with
  | nil => exact .refl _
  | cons ch2 rest ih =>
    rw [sortPass]
    split
    · exact ((ih _ ch1).cons ch2).trans (.swap ch1 ch2 rest)
    · exact (ih _ ch2).cons ch1

/-- A pass leaves no more inversions than there were, and fewer if it changes anything. -/
theorem inversions_sortPass (p2 ch1 : Nat) (hp : p2 ≤ priority ch1) (rest : List Nat) :
    inversions priority (sortPass priority p2 ch1 rest).2 +
      (if (sortPass priority p2 ch1 rest).1 then 1 else 0) ≤ inversions priority (ch1 :: rest) := by
  induction rest generalizing p2 ch1 with
  | nil => simp [sortPass]
  | cons ch2 rest ih =>
    rw [sortPass]
    split
    · next hlt =>
      have hcount := (sortPass_perm priority (priority ch2) ch1 rest).countP_eq
        fun d => decide (priority d < priority ch2)
      have hrest := ih (priority ch2) ch1 (by omega)
      simp only [inversions, List.countP_cons, hcount, if_true, decide_eq_true_eq] at hrest ⊢
      rw [if_neg (by omega), if_pos (by omega)]
      omega
    · have hcount := (sortPass_perm priority (priority ch2) ch2 rest).countP_eq
        fun d => decide (priority d < priority ch1)
      have hrest := ih (priority ch2) ch2 le_rfl
      simp only [inversions, hcount] at hrest ⊢
      omega

/-- The loop of `__CFUniCharPrioritySort` over its passes. -/
def sortPasses : List Nat → List Nat
  | [] => []
  | ch1 :: rest =>
    if _h : (sortPass priority (priority ch1) ch1 rest).1 then
      sortPasses (sortPass priority (priority ch1) ch1 rest).2
    else (sortPass priority (priority ch1) ch1 rest).2
termination_by characters => inversions priority characters
decreasing_by
  have := inversions_sortPass priority (priority ch1) ch1 le_rfl rest
  rw [if_pos _h] at this
  omega

/-- `__CFUniCharPrioritySort` -/
def prioritySort (characters : List Nat) : List Nat :=
  let marks := characters.dropWhile fun c => priority c = 0
  characters.takeWhile (fun c => priority c = 0) ++
    if 1 < marks.length then sortPasses priority marks else marks

/-! ## What it gives -/

theorem sortPasses_perm (characters : List Nat) : (sortPasses priority characters).Perm characters := by
  induction characters using sortPasses.induct priority with
  | case1 => rw [sortPasses]
  | case2 ch1 rest h ih =>
    rw [sortPasses, dif_pos h]
    exact ih.trans (sortPass_perm priority _ ch1 rest)
  | case3 ch1 rest h =>
    rw [sortPasses, dif_neg h]
    exact sortPass_perm priority _ ch1 rest

/-- The characters are the same. -/
theorem prioritySort_perm (characters : List Nat) : (prioritySort priority characters).Perm characters := by
  conv_rhs => rw [← List.takeWhile_append_dropWhile (p := fun c => decide (priority c = 0)) (l := characters)]
  rw [prioritySort]
  refine List.Perm.append_left _ ?_
  split
  · exact sortPasses_perm priority _
  · exact .refl _

/-- A pass that changes nothing finds the characters in order. -/
theorem sortPass_unchanged {ch1 : Nat} {rest : List Nat} (h : (sortPass priority (priority ch1) ch1 rest).1 = false) :
    (sortPass priority (priority ch1) ch1 rest).2 = ch1 :: rest ∧
      (ch1 :: rest).IsChain fun c d => priority c ≤ priority d := by
  induction rest generalizing ch1 with
  | nil => exact ⟨rfl, .singleton _⟩
  | cons ch2 rest ih =>
    rw [sortPass] at h ⊢
    split at h
    · exact absurd h (by simp)
    · next hle =>
      obtain ⟨hsame, hchain⟩ := ih h
      rw [if_neg hle]
      exact ⟨by rw [hsame], .cons_cons (by omega) hchain⟩

theorem sortPasses_sorted (characters : List Nat) :
    (sortPasses priority characters).Pairwise fun c d => priority c ≤ priority d := by
  have htrans : IsTrans Nat fun c d => priority c ≤ priority d := ⟨fun _ _ _ => le_trans⟩
  induction characters using sortPasses.induct priority with
  | case1 => rw [sortPasses]; exact .nil
  | case2 ch1 rest h ih => rwa [sortPasses, dif_pos h]
  | case3 ch1 rest h =>
    obtain ⟨hsame, hchain⟩ := sortPass_unchanged priority (by simpa using h)
    rw [sortPasses, dif_neg h, hsame]
    exact List.isChain_iff_pairwise.mp hchain

/-- Characters of one class keep their order in a pass. -/
theorem sortPass_stable (k : Nat) {p2 ch1 : Nat} (hp : p2 ≤ priority ch1) (rest : List Nat) :
    (sortPass priority p2 ch1 rest).2.filter (fun c => priority c = k) =
      (ch1 :: rest).filter fun c => priority c = k := by
  induction rest generalizing p2 ch1 with
  | nil => rfl
  | cons ch2 rest ih =>
    rw [sortPass]
    split
    · next hlt =>
      rw [List.filter_cons, ih (by omega), List.filter_cons, List.filter_cons, List.filter_cons]
      by_cases h1 : priority ch1 = k <;> by_cases h2 : priority ch2 = k
      · omega
      all_goals simp [h1, h2]
    · rw [List.filter_cons, ih le_rfl, List.filter_cons (x := ch1)]

theorem sortPasses_stable (k : Nat) (characters : List Nat) :
    (sortPasses priority characters).filter (fun c => priority c = k) =
      characters.filter fun c => priority c = k := by
  induction characters using sortPasses.induct priority with
  | case1 => rw [sortPasses]
  | case2 ch1 rest h ih => rw [sortPasses, dif_pos h, ih, sortPass_stable priority k le_rfl]
  | case3 ch1 rest h => rw [sortPasses, dif_neg h, sortPass_stable priority k le_rfl]

theorem sorted_of_length {characters : List Nat} (h : characters.length ≤ 1) :
    characters.Pairwise fun c d => priority c ≤ priority d := by
  match characters, h with
  | [], _ => exact .nil
  | [c], _ => exact List.pairwise_singleton _ _

/-- What is behind the first characters of class 0 is in the order of the classes. -/
theorem prioritySort_sorted (characters : List Nat) :
    ∃ marks, prioritySort priority characters = characters.takeWhile (fun c => priority c = 0) ++ marks ∧
      marks.Pairwise fun c d => priority c ≤ priority d := by
  refine ⟨_, rfl, ?_⟩
  split
  · exact sortPasses_sorted priority _
  · exact sorted_of_length priority (by omega)

/-- Characters of one class keep their order. -/
theorem prioritySort_stable (k : Nat) (characters : List Nat) :
    (prioritySort priority characters).filter (fun c => priority c = k) =
      characters.filter fun c => priority c = k := by
  conv_rhs => rw [← List.takeWhile_append_dropWhile (p := fun c => decide (priority c = 0)) (l := characters)]
  rw [prioritySort, List.filter_append, List.filter_append]
  split
  · rw [sortPasses_stable]
  · rfl

/-- The passes sort what is behind the first characters of class 0, and characters of one
class keep their order. -/
theorem prioritySort_eq_mergeSort (characters : List Nat) :
    prioritySort priority characters = characters.takeWhile (fun c => priority c = 0) ++
      (characters.dropWhile fun c => priority c = 0).mergeSort fun c d => priority c ≤ priority d := by
  have hsort : ∀ marks, sortPasses priority marks = marks.mergeSort fun c d => priority c ≤ priority d := fun marks =>
    eq_mergeSort (sortPasses_sorted priority marks) fun k => sortPasses_stable priority k marks
  rw [prioritySort]
  split
  · rw [hsort]
  · next hshort =>
    rw [← hsort]
    generalize characters.dropWhile (fun c => decide (priority c = 0)) = marks at hshort
    cases marks with
    | nil => simp [sortPasses]
    | cons c marks =>
      obtain rfl : marks = [] := by simpa using hshort
      simp [sortPasses, sortPass]

end CFLite.Strings.Decomposing
