import Mathlib.Data.Multiset.AddSub
import CFLite.Collections.BinaryHeap

/-!
# Heaps as priority queues

Any sequence of operations on a heap, its copies, their copies and so on, each
heap beside the multiset of the values that were added to it and not removed
as minima.

* `run_spec`: every heap of a run is a priority queue of its multiset;
* `run_iff`: a run goes on for as long as no value is added to a heap of 2^30
  values.
-/

namespace CFLite.BinaryHeap

open Framework CFBinaryHeap

variable {α : Type*} [LinearOrder α]

/-- All heaps, each with the values added to it less the removed minima. -/
abbrev Heaps (α : Type*) := List (CFBinaryHeap α × Multiset α)

/-- An operation on one of the heaps. A copy becomes the last heap. -/
inductive Operation (α : Type*) where
  | addValue (heap : Nat) (value : α)
  | removeMinimumValue (heap : Nat)
  | removeAllValues (heap : Nat)
  | createCopy (heap : Nat)

namespace Operation

/-- The index of the heap that is operated on. -/
def heap : Operation α → Nat
  | addValue heap _ | removeMinimumValue heap | removeAllValues heap | createCopy heap => heap

/-- The operation on its heap and multiset. -/
def apply (junk : Nat → α) (heaps : Heaps α) (q : CFBinaryHeap α × Multiset α) : Operation α → Option (Heaps α)
  | addValue i value => do
    let heap ← q.1.addValue junk value
    return heaps.set i (heap, value ::ₘ q.2)
  | removeMinimumValue i => do
    let heap ← q.1.removeMinimumValue
    match q.1.getMinimum with
    | some m => return heaps.set i (heap, q.2.erase m)
    | none => return heaps.set i (heap, q.2)
  | removeAllValues i => some (heaps.set i (q.1.removeAllValues, 0))
  | createCopy _ => do
    let heap ← q.1.createCopy junk
    return heaps ++ [(heap, q.2)]

/-- The operation, if there is such a heap. -/
def run (junk : Nat → α) (heaps : Heaps α) (op : Operation α) : Option (Heaps α) :=
  match heaps[op.heap]? with
  | some q => op.apply junk heaps q
  | none => some heaps

/-- How many values the heaps hold after an operation. -/
def counts (counts : List Nat) : Operation α → List Nat
  | addValue heap _ => counts.modify heap (· + 1)
  | removeMinimumValue heap => counts.modify heap (· - 1)
  | removeAllValues heap => counts.set heap 0
  | createCopy heap => counts ++ counts[heap]?.toList

/-- No value is added to a heap that holds 2^30 values. -/
def Fits (counts : List Nat) : Operation α → Prop
  | addValue heap _ => counts[heap]? ≠ some (2 ^ 30)
  | _ => True

end Operation

/-- Every operation of a run fits. -/
def Fits : List Nat → List (Operation α) → Prop
  | _, [] => True
  | counts, op :: ops => op.Fits counts ∧ Fits (op.counts counts) ops

/-- Operations one after the other. -/
def run (junk : Nat → α) (heaps : Heaps α) (ops : List (Operation α)) : Option (Heaps α) :=
  ops.foldlM (Operation.run junk) heaps

/-- A heap that is a priority queue of the values `added`. -/
structure IsPriorityQueue (junk : Nat → α) (compare : Option (α → α → CFComparisonResult)) (heap : CFBinaryHeap α)
    (added : Multiset α) : Prop where
  ordered : HeapOrdered (NotGreater compare) heap.values
  contents : (heap.values : Multiset α) = added
  getMinimum : added ≠ 0 → ∃ m ∈ added, heap.getMinimum = some m ∧ ∀ x ∈ added, NotGreater compare m x
  getValues : ∃ vs, heap.getValues junk = some vs ∧ (vs : Multiset α) = added ∧ vs.Pairwise (NotGreater compare)

section Runs

variable (junk : Nat → α) {compare : Option (α → α → CFComparisonResult)} {retain : Option (α → α)}

/-- The state of a run: valid heaps of these contents and counts. -/
structure Sound (compare : Option (α → α → CFComparisonResult)) (retain : Option (α → α)) (heaps : Heaps α)
    (counts : List Nat) : Prop where
  valid : ∀ q ∈ heaps, Valid compare retain q.1 ∧ (q.1.values : Multiset α) = q.2
  counts_eq : heaps.map (·.1.count) = counts

theorem Sound.set {heaps : Heaps α} {counts : List Nat} {i n : Nat} {q : CFBinaryHeap α × Multiset α}
    (h : Sound compare retain heaps counts) (hq : Valid compare retain q.1 ∧ (q.1.values : Multiset α) = q.2)
    (hn : q.1.count = n) : Sound compare retain (heaps.set i q) (counts.set i n) := by
  refine ⟨fun q' hq' => ?_, by rw [List.map_set, h.counts_eq, hn]⟩
  rcases List.mem_or_eq_of_mem_set hq' with hq' | rfl
  · exact h.valid q' hq'
  · exact hq

theorem Sound.isPriorityQueue (hc : ∀ f ∈ compare, TotalPreorder f) (hr : ∀ f ∈ retain, ∀ x, f x = x)
    {heaps : Heaps α} {counts : List Nat} (h : Sound compare retain heaps counts) {q : CFBinaryHeap α × Multiset α}
    (hq : q ∈ heaps) : IsPriorityQueue junk compare q.1 q.2 := by
  obtain ⟨hvalid, hcontents⟩ := h.valid q hq
  refine ⟨hvalid.ordered, hcontents, fun hne => ?_, ?_⟩
  · have hpos : 0 < q.1.count := by
      rw [← hvalid.length_values]
      refine List.length_pos_iff.mpr fun hnil => hne ?_
      rw [← hcontents, hnil]
      rfl
    obtain ⟨heap', m, hmin, hleast, -, -, -, hperm⟩ := removeMinimumValue_spec hc hvalid hpos
    refine ⟨m, ?_, hmin, fun x hx => hleast x ?_⟩
    · rw [← hcontents]
      exact hperm.mem_iff.mpr List.mem_cons_self
    · rwa [← hcontents] at hx
  · obtain ⟨vs, hget, hperm, hsorted⟩ := getValues_spec junk hc hr hvalid
    exact ⟨vs, hget, by rw [← hcontents]; exact Multiset.coe_eq_coe.mpr hperm, hsorted⟩

/-- An operation that fits has a result, which is sound again. -/
theorem Operation.run_sound (hc : ∀ f ∈ compare, TotalPreorder f) (hr : ∀ f ∈ retain, ∀ x, f x = x) {heaps : Heaps α}
    {counts : List Nat} (h : Sound compare retain heaps counts) (op : Operation α) (hop : op.Fits counts) :
    ∃ heaps', op.run junk heaps = some heaps' ∧ Sound compare retain heaps' (op.counts counts) := by
  rw [Operation.run]
  have hcount : counts[op.heap]? = heaps[op.heap]?.map (·.1.count) := by
    rw [← h.counts_eq, List.getElem?_map]
  cases hq : heaps[op.heap]? with
  | none =>
    rw [hq, Option.map_none] at hcount
    have hlen : counts.length ≤ op.heap := List.getElem?_eq_none_iff.mp hcount
    refine ⟨heaps, rfl, ?_⟩
    convert h using 1
    cases op with
    | addValue i value => rw [Operation.counts, List.modify_eq_set_getElem?, show counts[i]? = none from hcount]; rfl
    | removeMinimumValue i => rw [Operation.counts, List.modify_eq_set_getElem?, show counts[i]? = none from hcount]; rfl
    | removeAllValues i => exact List.set_eq_of_length_le hlen
    | createCopy i => rw [Operation.counts, show counts[i]? = none from hcount]; exact List.append_nil counts
  | some q =>
    rw [hq, Option.map_some] at hcount
    obtain ⟨hvalid, hcontents⟩ := h.valid q (List.mem_of_getElem? hq)
    cases op with
    | addValue i value =>
      have hcount : counts[i]? = some q.1.count := hcount
      have hlt : q.1.count < 2 ^ 30 := by
        have hne : counts[i]? ≠ some (2 ^ 30) := hop
        have := hvalid.count_le_limit
        rw [hcount, Ne, Option.some_inj] at hne
        omega
      obtain ⟨heap', hadd, h', hcount', hperm⟩ := addValue_spec junk hc hr hvalid hlt value
      refine ⟨heaps.set i (heap', value ::ₘ q.2), by simp only [Operation.apply, hadd]; rfl, ?_⟩
      rw [Operation.counts, List.modify_eq_set_getElem?, hcount]
      refine h.set ⟨h', ?_⟩ hcount'
      rw [← hcontents]
      exact Multiset.coe_eq_coe.mpr hperm
    | removeMinimumValue i =>
      have hcount : counts[i]? = some q.1.count := hcount
      rw [Operation.counts, List.modify_eq_set_getElem?, hcount]
      rcases Nat.eq_zero_or_pos q.1.count with hzero | hpos
      · refine ⟨heaps.set i (q.1, q.2), ?_, h.set ⟨hvalid, hcontents⟩ (by rw [hzero])⟩
        simp only [Operation.apply, CFBinaryHeap.removeMinimumValue, getMinimum, hzero, if_true, lt_irrefl, if_false]
        rfl
      · obtain ⟨heap', m, hmin, -, hremove, h', hcount', hperm⟩ := removeMinimumValue_spec hc hvalid hpos
        refine ⟨heaps.set i (heap', q.2.erase m), ?_, h.set ⟨h', ?_⟩ hcount'⟩
        · simp only [Operation.apply, hremove, hmin]
          rfl
        · rw [← hcontents, Multiset.coe_eq_coe.mpr hperm, ← Multiset.cons_coe, Multiset.erase_cons_head]
    | removeAllValues i =>
      obtain ⟨h', hnil⟩ := removeAllValues_spec hvalid
      refine ⟨_, rfl, h.set ⟨h', ?_⟩ rfl⟩
      rw [hnil]
      rfl
    | createCopy i =>
      have hcount : counts[i]? = some q.1.count := hcount
      obtain ⟨heap', hcopy, h', hcount', hperm⟩ := createCopy_spec junk hc hr hvalid
      refine ⟨heaps ++ [(heap', q.2)], by simp only [Operation.apply, hcopy]; rfl, fun q' hq' => ?_, ?_⟩
      · rcases List.mem_append.mp hq' with hq' | hq'
        · exact h.valid q' hq'
        · rw [List.mem_singleton] at hq'
          subst hq'
          exact ⟨h', by rw [← hcontents]; exact Multiset.coe_eq_coe.mpr hperm⟩
      · rw [Operation.counts, hcount, List.map_append, h.counts_eq, List.map_singleton, hcount']
        rfl

/-- An operation that does not fit stops the process. -/
theorem Operation.run_none {heaps : Heaps α} {counts : List Nat} (h : Sound compare retain heaps counts)
    (op : Operation α) (hop : ¬ op.Fits counts) : op.run junk heaps = none := by
  cases op with
  | addValue i value =>
    have hcount : counts[i]? = some (2 ^ 30) := not_not.mp hop
    rw [← h.counts_eq, List.getElem?_map, Option.map_eq_some_iff] at hcount
    obtain ⟨q, hq, hfull⟩ := hcount
    rw [Operation.run, show heaps[Operation.heap (.addValue i value)]? = some q from hq]
    simp only [Operation.apply, addValue_full junk (h.valid q (List.mem_of_getElem? hq)).1 hfull]
    rfl
  | removeMinimumValue i => exact absurd trivial hop
  | removeAllValues i => exact absurd trivial hop
  | createCopy i => exact absurd trivial hop

theorem Sound.create : Sound compare retain [(create junk compare retain, 0)] [0] := by
  refine ⟨fun q hq => ?_, rfl⟩
  rw [List.mem_singleton] at hq
  subst hq
  exact ⟨create_valid junk, rfl⟩

theorem run_of_fits (hc : ∀ f ∈ compare, TotalPreorder f) (hr : ∀ f ∈ retain, ∀ x, f x = x) {heaps : Heaps α}
    {counts : List Nat} (h : Sound compare retain heaps counts) {ops : List (Operation α)} (hops : Fits counts ops) :
    ∃ heaps' counts', run junk heaps ops = some heaps' ∧ Sound compare retain heaps' counts' := by
  induction ops generalizing heaps counts with
  | nil => exact ⟨heaps, counts, rfl, h⟩
  | cons op ops ih =>
    obtain ⟨heaps₁, hrun, h₁⟩ := op.run_sound junk hc hr h hops.1
    obtain ⟨heaps₂, counts₂, hrest, h₂⟩ := ih h₁ hops.2
    exact ⟨heaps₂, counts₂, by rw [run, List.foldlM_cons, hrun]; exact hrest, h₂⟩

theorem run_of_not_fits (hc : ∀ f ∈ compare, TotalPreorder f) (hr : ∀ f ∈ retain, ∀ x, f x = x) {heaps : Heaps α}
    {counts : List Nat} (h : Sound compare retain heaps counts) {ops : List (Operation α)} (hops : ¬ Fits counts ops) :
    run junk heaps ops = none := by
  induction ops generalizing heaps counts with
  | nil => exact absurd trivial hops
  | cons op ops ih =>
    rw [run, List.foldlM_cons]
    by_cases hop : op.Fits counts
    · obtain ⟨heaps₁, hrun, h₁⟩ := op.run_sound junk hc hr h hop
      rw [hrun]
      exact ih h₁ fun hrest => hops ⟨hop, hrest⟩
    · rw [op.run_none junk h hop]
      rfl

/-- A heap and its copies are priority queues for as long as no value is added
to one that holds 2^30 values. -/
theorem priorityQueues_iff_fits (junk : Nat → α) (compare : Option (α → α → CFComparisonResult))
    (retain : Option (α → α)) (hc : ∀ f ∈ compare, TotalPreorder f) (hr : ∀ f ∈ retain, ∀ x, f x = x)
    (ops : List (Operation α)) :
    (∃ heaps, run junk [(create junk compare retain, 0)] ops = some heaps ∧
      ∀ q ∈ heaps, IsPriorityQueue junk compare q.1 q.2) ↔ Fits [0] ops := by
  constructor
  · intro ⟨heaps, hrun, _⟩
    by_contra hops
    rw [run_of_not_fits junk hc hr (Sound.create junk) hops] at hrun
    cases hrun
  · intro hops
    obtain ⟨heaps, counts, hrun, h⟩ := run_of_fits junk hc hr (Sound.create junk) hops
    exact ⟨heaps, hrun, fun q hq => h.isPriorityQueue junk hc hr hq⟩

end Runs

/-- Two values and a comparator that has them equal, and a copy. -/
theorem priorityQueues_iff_fits_pair :
    (∃ heaps, run (fun _ => 0) [(create (fun _ => 0) (some fun _ _ => .eq) none, 0)]
        [.addValue 0 7, .addValue 0 (5 : Nat), .createCopy 0, .removeMinimumValue 1] = some heaps ∧
      ∀ q ∈ heaps, IsPriorityQueue (fun _ => 0) (some fun _ _ => .eq) q.1 q.2) ↔
    Fits [0] [.addValue 0 7, .addValue 0 (5 : Nat), .createCopy 0, .removeMinimumValue 1] :=
  priorityQueues_iff_fits _ _ none (by rintro f ⟨⟩; exact ⟨by simp, by simp⟩) (by rintro f ⟨⟩) _

omit [LinearOrder α] in
theorem not_fits_replicate {k n : Nat} (hn : n ≤ 2 ^ 30) (h : 2 ^ 30 < n + k) (value : α) :
    ¬ Fits [n] (List.replicate k (Operation.addValue 0 value)) := by
  induction k generalizing n with
  | zero => omega
  | succ k ih =>
    rw [List.replicate_succ, Fits]
    intro ⟨hop, hrest⟩
    have hne : n ≠ 2 ^ 30 := fun heq => hop (congrArg some heq)
    exact ih (n := n + 1) (by omega) (by omega) hrest

/-- A heap without callbacks is stopped by the addition number 2^30 + 1. -/
theorem grows_past_int :
    run (fun _ => 0) [(create (fun _ => 0) none none, 0)] (List.replicate (2 ^ 30 + 1) (.addValue 0 (5 : Nat))) = none :=
  run_of_not_fits _ (by rintro f ⟨⟩) (by rintro f ⟨⟩) (Sound.create _) (not_fits_replicate (by decide) (by omega) 5)

end CFLite.BinaryHeap
