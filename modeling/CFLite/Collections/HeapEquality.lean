import CFLite.Collections.PriorityQueue

/-!
# `__CFBinaryHeapEqual`

Two heaps are drawn down through copies, and the two lists are compared position
by position: pointers that differ are handed to the comparator, whose answer 0 is
taken for a difference although it says that the values are equal.

* `getValues_shape`, `Operation.run_shape`: a heap gives out as many values as it has,
  whatever its callbacks do;
* `equal_spec`: what the code answers;
* `equal_right_iff`: the heaps for which that is the comparison of their values.
-/

namespace CFLite.BinaryHeap

open Framework CFBinaryHeap

variable {α : Type*} [LinearOrder α]

/-! ## The code -/

/-- `for (idx = 0; idx < cnt; idx++)` over both lists. -/
def equalValues (compare : Option (α → α → CFComparisonResult)) : (list1 list2 : List α) → Bool
  | val1 :: list1, val2 :: list2 =>
    if val1 ≠ val2 then
      match compare with
      | none => false
      | some compare => if compare val1 val2 = .eq then false else equalValues (some compare) list1 list2
    else equalValues compare list1 list2
  | _, _ => true

/-- `__CFBinaryHeapEqual`. `sameCompare` says whether the two comparators are one
function. -/
def equal (junk1 junk2 : Nat → α) (sameCompare : Bool) (heap1 heap2 : CFBinaryHeap α) : Option Bool :=
  let cnt := heap1.count
  if cnt ≠ heap2.count then some false
  else if ¬ sameCompare then some false
  else if cnt = 0 then some true
  else
    (heap1.getValues junk1).bind fun list1 => (heap2.getValues junk2).map fun list2 =>
      equalValues heap1.compare list1 list2

/-! ## Heaps whatever their callbacks do -/

section Shape

variable (compare : Option (α → α → CFComparisonResult)) {buckets : List α} {idx n : Nat} {value : α}

theorem siftUp_shape (value : α) (h : idx < buckets.length) :
    ∃ r, siftUp compare value buckets idx = some r ∧ r.1.length = buckets.length ∧ r.2 < buckets.length := by
  induction idx using Nat.strong_induction_on generalizing buckets with
  | _ idx ih =>
    rw [siftUp]
    split
    · exact ⟨_, rfl, rfl, h⟩
    rename_i hpos
    dsimp only
    rw [List.getElem?_eq_getElem (show (idx - 1) / 2 < buckets.length by omega), Option.bind_some]
    split
    · exact ⟨_, rfl, rfl, h⟩
    · rw [write_eq h, Option.bind_some]
      have hlen : ∀ item : α, (buckets.set idx item).length = buckets.length := fun _ => List.length_set
      obtain ⟨r, hr, hlength, hlt⟩ := ih ((idx - 1) / 2) (by omega)
        (show (idx - 1) / 2 < (buckets.set idx buckets[(idx - 1) / 2]).length by rw [hlen]; omega)
      rw [hlen] at hlength hlt
      exact ⟨r, hr, hlength, hlt⟩

theorem siftDown_shape (value : α) (hn : n ≤ buckets.length) (h : idx < buckets.length) :
    ∃ r, siftDown compare value n buckets idx = some r ∧ r.1.length = buckets.length ∧ r.2 < buckets.length := by
  induction hm : n - idx using Nat.strong_induction_on generalizing buckets idx with
  | _ m ih =>
    rw [siftDown]
    dsimp only
    split
    swap
    · exact ⟨_, rfl, rfl, h⟩
    rename_i hlt
    rw [List.getElem?_eq_getElem (show 2 * idx + 1 < buckets.length by omega), Option.bind_some]
    -- one of the children is looked at
    obtain ⟨second, item, hchild, hsecond⟩ : ∃ second item, (if 2 * idx + 1 + 1 < n then
          buckets[2 * idx + 1 + 1]?.bind fun item2 =>
            some (if greaterThan compare buckets[2 * idx + 1] item2 then (true, item2) else (false, buckets[2 * idx + 1]))
        else some (false, buckets[2 * idx + 1])) = some (second, item) ∧
        (if second then 2 * idx + 1 + 1 else 2 * idx + 1) < n := by
      split
      · rename_i hlt2
        rw [List.getElem?_eq_getElem (show 2 * idx + 1 + 1 < buckets.length by omega), Option.bind_some]
        split
        · exact ⟨true, _, rfl, hlt2⟩
        · exact ⟨false, _, rfl, hlt⟩
      · exact ⟨false, _, rfl, hlt⟩
    rw [hchild, Option.bind_some]
    dsimp only
    split
    · exact ⟨_, rfl, rfl, h⟩
    · rw [write_eq h, Option.bind_some]
      have hlen : (buckets.set idx item).length = buckets.length := List.length_set
      obtain ⟨c, hc⟩ : ∃ c, c = if second then 2 * idx + 1 + 1 else 2 * idx + 1 := ⟨_, rfl⟩
      have hcases : c = 2 * idx + 1 ∨ c = 2 * idx + 1 + 1 := by rw [hc]; split <;> simp
      rw [← hc] at hsecond ⊢
      obtain ⟨r, hr, hlength, hless⟩ := ih (n - c) (by omega) (show n ≤ (buckets.set idx item).length by omega)
        (show c < (buckets.set idx item).length by omega) rfl
      rw [hlen] at hlength hless
      exact ⟨r, hr, hlength, hless⟩

/-- The buckets of a heap, whatever the order of its values. -/
structure Shape (compare : Option (α → α → CFComparisonResult)) (heap : CFBinaryHeap α) : Prop where
  compare_eq : heap.compare = compare
  capacity : ∃ k, 2 ≤ k ∧ k ≤ 30 ∧ heap.capacity = 2 ^ k
  count_le : heap.count ≤ heap.capacity

end Shape

section Operations

variable (junk : Nat → α) {compare : Option (α → α → CFComparisonResult)} {heap : CFBinaryHeap α}

omit [LinearOrder α] in
theorem Shape.count_le_limit (h : Shape compare heap) : heap.count ≤ 2 ^ 30 := by
  obtain ⟨k, _, hk, hcap⟩ := h.capacity
  exact h.count_le.trans (hcap ▸ Nat.pow_le_pow_right (by decide) hk)

omit [LinearOrder α] in
theorem create_shape (retain : Option (α → α)) : Shape compare (create junk compare retain) :=
  ⟨rfl, ⟨2, by decide, by decide, length_reallocate ..⟩, Nat.zero_le _⟩

omit [LinearOrder α] in
theorem grow_shape (h : Shape compare heap) (hfull : heap.count = heap.capacity) :
    heap.count < 2 ^ 30 ∧ (∃ heap', grow junk heap 1 = some heap' ∧ Shape compare heap' ∧
      heap'.count = heap.count ∧ heap'.count < heap'.capacity) ∨
      heap.count = 2 ^ 30 ∧ grow junk heap 1 = none := by
  obtain ⟨k, hk, hk30, hcap⟩ := h.capacity
  have hround : roundUpCapacity (heap.count + 1) = oneShl (k + 1) := by rw [hfull, hcap, roundUpCapacity_full hk]
  rcases Nat.lt_or_eq_of_le hk30 with hlt | rfl
  · have hpow : (2 : Nat) ^ k < 2 ^ (k + 1) := Nat.pow_lt_pow_succ (by decide)
    have hlimit : (2 : Nat) ^ k < 2 ^ 30 := Nat.pow_lt_pow_right (by decide) hlt
    have hnat : ((2 : Int) ^ (k + 1)).toNat = 2 ^ (k + 1) := by norm_cast
    have hpos : ¬ (2 : Int) ^ (k + 1) ≤ 0 := not_le.mpr (by positivity)
    have hcapacity : ∀ buckets : List α, CFBinaryHeap.capacity { heap with buckets } = buckets.length := fun _ => rfl
    refine .inl ⟨by omega, { heap with buckets := reallocate junk heap.buckets (2 ^ (k + 1)) }, ?_, ⟨h.compare_eq,
      ⟨k + 1, by omega, by omega, by rw [hcapacity, length_reallocate]⟩, ?_⟩, rfl, ?_⟩
    · rw [grow, hround, oneShl_eq (by omega), hnat]
      exact if_neg hpos
    · rw [hcapacity, length_reallocate]
      show heap.count ≤ _
      omega
    · rw [hcapacity, length_reallocate]
      show heap.count < _
      omega
  · refine .inr ⟨hfull.trans hcap, ?_⟩
    rw [grow, hround, oneShl_31]
    rfl

/-- Adding a value, as far as the buckets go. -/
theorem addValue_shape (h : Shape compare heap) (value : α) :
    (heap.count < 2 ^ 30 → ∃ heap', CFBinaryHeap.addValue junk heap value = some heap' ∧ heap'.count = heap.count + 1) ∧
      ∀ heap' ∈ CFBinaryHeap.addValue junk heap value, Shape compare heap' := by
  -- the heap with room for the value
  have key : ∀ heap₁ : CFBinaryHeap α, Shape compare heap₁ → heap₁.count < heap₁.capacity →
      (if heap.count = heap.capacity then grow junk heap 1 else some heap) = some heap₁ →
      ∃ heap', CFBinaryHeap.addValue junk heap value = some heap' ∧ heap'.count = heap₁.count + 1 ∧ Shape compare heap' := by
    intro heap₁ h₁ hroom hgrow
    obtain ⟨⟨buckets, idx⟩, hsift, hlen, hidx⟩ := siftUp_shape heap₁.compare value hroom
    have hlen : buckets.length = heap₁.buckets.length := hlen
    have hidx : idx < heap₁.buckets.length := hidx
    have hlen' : ∀ item, (buckets.set idx item).length = heap₁.capacity := fun _ => List.length_set.trans hlen
    obtain ⟨k, hk, hk30, hcap⟩ := h₁.capacity
    have hadd : ∃ item, CFBinaryHeap.addValue junk heap value =
        some ⟨heap₁.count + 1, heap₁.compare, heap₁.retain, buckets.set idx item⟩ := by
      rw [CFBinaryHeap.addValue, hgrow]
      simp only [Option.bind_eq_bind, Option.bind_some, hsift, write_eq (show idx < buckets.length by omega)]
      exact ⟨_, rfl⟩
    obtain ⟨item, hadd⟩ := hadd
    exact ⟨_, hadd, rfl, h₁.compare_eq, ⟨k, hk, hk30, (hlen' _).trans hcap⟩, hroom.trans_eq (hlen' _).symm⟩
  by_cases hfull : heap.count = heap.capacity
  · rcases grow_shape junk h hfull with ⟨hlt, heap₁, hgrow, h₁, hcount, hroom⟩ | ⟨hlimit, hnone⟩
    · obtain ⟨heap', hadd, hcount', h'⟩ := key heap₁ h₁ hroom (by rw [if_pos hfull, hgrow])
      refine ⟨fun _ => ⟨heap', hadd, by rw [hcount', hcount]⟩, fun heap'' hadd' => ?_⟩
      rwa [← Option.some.inj (hadd.symm.trans hadd')]
    · have hadd : CFBinaryHeap.addValue junk heap value = none := by
        rw [CFBinaryHeap.addValue, if_pos hfull, hnone]
        rfl
      refine ⟨fun hlt => absurd hlimit (Nat.ne_of_lt hlt), fun heap' hadd' => ?_⟩
      rw [hadd] at hadd'
      cases hadd'
  · obtain ⟨heap', hadd, hcount', h'⟩ := key heap h (lt_of_le_of_ne h.count_le hfull) (if_neg hfull)
    refine ⟨fun _ => ⟨heap', hadd, hcount'⟩, fun heap'' hadd' => ?_⟩
    rwa [← Option.some.inj (hadd.symm.trans hadd')]

theorem foldlM_addValue_shape (vs : List α) (h : Shape compare heap) (hlt : heap.count + vs.length ≤ 2 ^ 30) :
    ∃ heap', vs.foldlM (CFBinaryHeap.addValue junk) heap = some heap' ∧ Shape compare heap' ∧
      heap'.count = heap.count + vs.length := by
  induction vs generalizing heap with
  | nil => exact ⟨heap, rfl, h, rfl⟩
  | cons v vs ih =>
    rw [List.length_cons] at hlt
    obtain ⟨hadds, hkeeps⟩ := addValue_shape junk h v
    obtain ⟨heap₁, hadd, hcount₁⟩ := hadds (by omega)
    obtain ⟨heap₂, hfold, h₂, hcount₂⟩ := ih (hkeeps heap₁ hadd) (by omega)
    exact ⟨heap₂, by rw [List.foldlM_cons, hadd]; exact hfold, h₂, by rw [hcount₂, hcount₁, List.length_cons]; omega⟩

theorem createCopy_shape (h : Shape compare heap) :
    ∃ heap', createCopy junk heap = some heap' ∧ Shape compare heap' ∧ heap'.count = heap.count := by
  have hlimit := h.count_le_limit
  have hlen : (heap.buckets.take heap.count).length = heap.count := by
    rw [List.length_take]
    exact min_eq_left h.count_le
  have hcount : (create junk compare heap.retain).count + (heap.buckets.take heap.count).length = heap.count := by
    rw [hlen]
    exact Nat.zero_add _
  obtain ⟨heap', hfold, h', hcount'⟩ := foldlM_addValue_shape junk (heap.buckets.take heap.count)
    (create_shape junk heap.retain) (hcount.trans_le hlimit)
  exact ⟨heap', by rw [createCopy, h.compare_eq]; exact hfold, h', hcount'.trans hcount⟩

theorem removeMinimumValue_shape (h : Shape compare heap) :
    ∃ heap', removeMinimumValue heap = some heap' ∧ Shape compare heap' ∧ heap'.count = heap.count - 1 := by
  have hcap : heap.count ≤ heap.buckets.length := h.count_le
  rw [removeMinimumValue]
  split
  · rename_i hzero
    exact ⟨heap, rfl, h, by rw [hzero]⟩
  rename_i hpos
  obtain ⟨⟨buckets, idx⟩, hsift, hlen, hidx⟩ := siftDown_shape heap.compare
    heap.buckets[heap.count - 1] (show heap.count - 1 ≤ heap.buckets.length by omega)
    (show 0 < heap.buckets.length by omega)
  have hlen : buckets.length = heap.buckets.length := hlen
  have hidx : idx < heap.buckets.length := hidx
  obtain ⟨k, hk, hk30, hcap2⟩ := h.capacity
  have hlen' : (buckets.set idx heap.buckets[heap.count - 1]).length = heap.capacity := List.length_set.trans hlen
  refine ⟨⟨heap.count - 1, heap.compare, heap.retain, buckets.set idx heap.buckets[heap.count - 1]⟩, ?_, ⟨h.compare_eq,
    ⟨k, hk, hk30, hlen'.trans hcap2⟩, ?_⟩, rfl⟩
  · simp only [List.getElem?_eq_getElem (show heap.count - 1 < heap.buckets.length by omega), Option.bind_eq_bind,
      Option.bind_some, hsift, write_eq (show idx < buckets.length by omega)]
    rfl
  · exact (Nat.sub_le _ _).trans (h.count_le.trans_eq hlen'.symm)

theorem drain_shape {n : Nat} (h : Shape compare heap) (hn : heap.count = n) :
    ∃ vs, drain n heap = some vs ∧ vs.length = n := by
  induction n generalizing heap with
  | zero => exact ⟨[], rfl, rfl⟩
  | succ n ih =>
    have hcap : heap.count ≤ heap.buckets.length := h.count_le
    obtain ⟨heap', hremove, h', hcount⟩ := removeMinimumValue_shape h
    obtain ⟨vs, hdrain, hlen⟩ := ih h' (by omega)
    have hmin : heap.getMinimum = some heap.buckets[0] := by
      rw [getMinimum, if_pos (by omega), List.getElem?_eq_getElem]
    refine ⟨heap.buckets[0] :: vs, ?_, by rw [List.length_cons, hlen]⟩
    simp only [drain, hmin, hremove, hdrain, Option.bind_eq_bind, Option.bind_some]
    rfl

/-- A heap gives out as many values as it has. -/
theorem getValues_shape (h : Shape compare heap) :
    ∃ vs, getValues junk heap = some vs ∧ vs.length = heap.count := by
  rw [getValues]
  split
  · rename_i hzero
    exact ⟨[], rfl, hzero.symm⟩
  · obtain ⟨heapCopy, hcopy, h', hcount⟩ := createCopy_shape junk h
    obtain ⟨vs, hdrain, hlen⟩ := drain_shape h' rfl
    exact ⟨vs, by rw [hcopy]; exact hdrain, hlen.trans hcount⟩

/-! ## Runs -/

theorem Operation.run_shape {heaps heaps' : Heaps α} (h : ∀ q ∈ heaps, Shape compare q.1) {op : Operation α}
    (hrun : op.run junk heaps = some heaps') : ∀ q ∈ heaps', Shape compare q.1 := by
  have hset : ∀ {i heap' added}, Shape compare heap' → ∀ q ∈ heaps.set i (heap', added), Shape compare q.1 := by
    intro i heap' added h' q hq
    rcases List.mem_or_eq_of_mem_set hq with hq | rfl
    · exact h q hq
    · exact h'
  rw [Operation.run] at hrun
  split at hrun
  swap
  · obtain rfl := Option.some.inj hrun
    exact h
  rename_i q hq
  have hshape := h q (List.mem_of_getElem? hq)
  cases op with
  | addValue i value =>
    obtain ⟨heap', hadd, hrun⟩ := Option.bind_eq_some_iff.mp hrun
    obtain rfl := Option.some.inj hrun
    exact hset ((addValue_shape junk hshape value).2 heap' hadd)
  | removeMinimumValue i =>
    obtain ⟨heap', hremove, h', -⟩ := removeMinimumValue_shape hshape
    simp only [Operation.apply, hremove, Option.bind_eq_bind, Option.bind_some] at hrun
    split at hrun
    · obtain rfl := Option.some.inj hrun
      exact hset h'
    · obtain rfl := Option.some.inj hrun
      exact hset h'
  | removeAllValues i =>
    obtain rfl := Option.some.inj hrun
    exact hset ⟨hshape.compare_eq, hshape.capacity, Nat.zero_le _⟩
  | createCopy i =>
    obtain ⟨heap', hcopy, h', -⟩ := createCopy_shape junk hshape
    simp only [Operation.apply, hcopy, Option.bind_eq_bind, Option.bind_some] at hrun
    obtain rfl := Option.some.inj hrun
    intro q' hq'
    rcases List.mem_append.mp hq' with hq' | hq'
    · exact h q' hq'
    · rw [List.mem_singleton.mp hq']
      exact h'

/-- The heap is one of those of a run. -/
def Reached (compare : Option (α → α → CFComparisonResult)) (heap : CFBinaryHeap α) : Prop :=
  ∃ (junk : Nat → α) (retain : Option (α → α)) (ops : List (Operation α)) (heaps : Heaps α) (added : Multiset α),
    run junk [(create junk compare retain, 0)] ops = some heaps ∧ (heap, added) ∈ heaps

theorem Reached.shape (h : Reached compare heap) : Shape compare heap := by
  obtain ⟨junk, retain, ops, heaps, added, hrun, hmem⟩ := h
  have key : ∀ (ops : List (Operation α)) (heaps₀ : Heaps α), (∀ q ∈ heaps₀, Shape compare q.1) →
      run junk heaps₀ ops = some heaps → ∀ q ∈ heaps, Shape compare q.1 := by
    intro ops
    induction ops with
    | nil =>
      intro heaps₀ h₀ hrun
      obtain rfl := Option.some.inj hrun
      exact h₀
    | cons op ops ih =>
      intro heaps₀ h₀ hrun
      rw [run, List.foldlM_cons] at hrun
      obtain ⟨heaps₁, hrun₁, hrest⟩ := Option.bind_eq_some_iff.mp hrun
      exact ih heaps₁ (op.run_shape junk h₀ hrun₁) hrest
  refine key ops _ (fun q hq => ?_) hrun (heap, added) hmem
  rw [List.mem_singleton.mp hq]
  exact create_shape junk retain

end Operations

/-! ## The answer -/

/-- The values compare as equal; without a comparator they are compared by
address. -/
def ComparesEqual (compare : Option (α → α → CFComparisonResult)) (a b : α) : Prop :=
  match compare with
  | none => a = b
  | some compare => compare a b = .eq

section Answer

variable {compare : Option (α → α → CFComparisonResult)} {list1 list2 : List α}

theorem equalValues_cons (val1 val2 : α) : equalValues compare (val1 :: list1) (val2 :: list2) =
    if val1 ≠ val2 then
      match compare with
      | none => false
      | some compare => if compare val1 val2 = .eq then false else equalValues (some compare) list1 list2
    else equalValues compare list1 list2 := rfl

/-- What the loop answers. -/
theorem equalValues_iff (hlen : list1.length = list2.length) : equalValues compare list1 list2 = true ↔
    ∀ p ∈ list1.zip list2, p.1 = p.2 ∨ compare ≠ none ∧ ¬ ComparesEqual compare p.1 p.2 := by
  induction list1 generalizing list2 with
  | nil => simp [equalValues]
  | cons val1 list1 ih =>
    cases list2 with
    | nil => cases hlen
    | cons val2 list2 =>
      rw [List.zip_cons_cons, List.forall_mem_cons, equalValues_cons]
      have hrest := ih (show list1.length = list2.length by simpa using hlen)
      split
      · rename_i hne
        cases compare with
        | none => simp [hne]
        | some f =>
          dsimp only
          split
          · rename_i heq
            simp [hne, ComparesEqual, heq]
          · rename_i hneq
            rw [hrest]
            simp [hne, ComparesEqual, hneq]
      · rename_i heq
        rw [hrest]
        simp [not_not.mp heq]

omit [LinearOrder α] in
/-- Lists are the same if they are at every position. -/
theorem eq_iff_zip (hlen : list1.length = list2.length) : list1 = list2 ↔ ∀ p ∈ list1.zip list2, p.1 = p.2 := by
  induction list1 generalizing list2 with
  | nil => simpa using (List.length_eq_zero_iff.mp hlen.symm)
  | cons val1 list1 ih =>
    cases list2 with
    | nil => cases hlen
    | cons val2 list2 =>
      rw [List.cons_eq_cons, List.zip_cons_cons, List.forall_mem_cons, ih (by simpa using hlen)]

end Answer

section Right

variable (junk1 junk2 : Nat → α) {compare : Option (α → α → CFComparisonResult)} {heap1 heap2 : CFBinaryHeap α}

/-- The answer for heaps with one comparator is whether they have the same count
and their values in ascending order compare as equal position by position. -/
def AnswersEquality (heap1 heap2 : CFBinaryHeap α) : Prop :=
  ∃ answer list1 list2, equal junk1 junk2 true heap1 heap2 = some answer ∧
    heap1.getValues junk1 = some list1 ∧ heap2.getValues junk2 = some list2 ∧
    (answer = true ↔
      heap1.count = heap2.count ∧ ∀ p ∈ list1.zip list2, ComparesEqual heap1.compare p.1 p.2)

/-- The lists that the heaps give out are the same, or they have both different
pointers that compare as equal and pointers that do not. -/
def SameOrMixed (compare : Option (α → α → CFComparisonResult)) (heap1 heap2 : CFBinaryHeap α) : Prop :=
  ∃ list1 list2, heap1.getValues junk1 = some list1 ∧ heap2.getValues junk2 = some list2 ∧
    (list1 = list2 ∨ (∃ p ∈ list1.zip list2, p.1 ≠ p.2 ∧ ComparesEqual compare p.1 p.2) ∧
      ∃ p ∈ list1.zip list2, ¬ ComparesEqual compare p.1 p.2)

/-- The answer for heaps of one count. -/
theorem equal_spec (h1 : Shape compare heap1) (h2 : Shape compare heap2) (hcount : heap1.count = heap2.count) :
    ∃ list1 list2, heap1.getValues junk1 = some list1 ∧ heap2.getValues junk2 = some list2 ∧
      list1.length = list2.length ∧ equal junk1 junk2 true heap1 heap2 = some (equalValues compare list1 list2) := by
  obtain ⟨list1, hget1, hlen1⟩ := getValues_shape junk1 h1
  obtain ⟨list2, hget2, hlen2⟩ := getValues_shape junk2 h2
  refine ⟨list1, list2, hget1, hget2, by rw [hlen1, hlen2, hcount], ?_⟩
  rw [equal, if_neg (not_not.mpr hcount), if_neg (not_not.mpr rfl)]
  split
  · rename_i hzero
    rw [List.eq_nil_of_length_eq_zero (hlen1.trans hzero)]
    rfl
  · rw [hget1, hget2, h1.compare_eq]
    rfl

omit [LinearOrder α] in
theorem comparesEqual_refl (hc : ∀ f ∈ compare, TotalPreorder f) (a : α) : ComparesEqual compare a a := by
  cases compare with
  | none => rfl
  | some f =>
    have hswap := (hc f rfl).swap a a
    rw [ComparesEqual]
    revert hswap
    cases f a a <;> decide

/-- The answer is right if and only if there is no comparator, or the counts
differ, or the lists of values are the same pointers or mixed. -/
theorem equal_right_iff (hc : ∀ f ∈ compare, TotalPreorder f) (h1 : Reached compare heap1)
    (h2 : Reached compare heap2) : AnswersEquality junk1 junk2 heap1 heap2 ↔
      compare = none ∨ heap1.count ≠ heap2.count ∨ SameOrMixed junk1 junk2 compare heap1 heap2 := by
  by_cases hcount : heap1.count = heap2.count
  swap
  · obtain ⟨list1, hget1, -⟩ := getValues_shape junk1 h1.shape
    obtain ⟨list2, hget2, -⟩ := getValues_shape junk2 h2.shape
    refine iff_of_true ⟨false, list1, list2, if_pos hcount, hget1, hget2, ?_⟩ (.inr (.inl hcount))
    exact iff_of_false (by decide) fun h => hcount h.1
  obtain ⟨list1, list2, hget1, hget2, hlen, hequal⟩ := equal_spec junk1 junk2 h1.shape h2.shape hcount
  -- both sides in terms of the two lists
  have hleft : AnswersEquality junk1 junk2 heap1 heap2 ↔
      ((∀ p ∈ list1.zip list2, p.1 = p.2 ∨ compare ≠ none ∧ ¬ ComparesEqual compare p.1 p.2) ↔
        ∀ p ∈ list1.zip list2, ComparesEqual compare p.1 p.2) := by
    rw [← equalValues_iff hlen]
    constructor
    · rintro ⟨answer, l1, l2, hanswer, hl1, hl2, hiff⟩
      obtain rfl := Option.some.inj (hget1.symm.trans hl1)
      obtain rfl := Option.some.inj (hget2.symm.trans hl2)
      obtain rfl := Option.some.inj (hequal.symm.trans hanswer)
      rw [hiff, h1.shape.compare_eq]
      exact and_iff_right hcount
    · intro hiff
      refine ⟨_, list1, list2, hequal, hget1, hget2, ?_⟩
      rw [hiff, h1.shape.compare_eq]
      exact (and_iff_right hcount).symm
  have hright : SameOrMixed junk1 junk2 compare heap1 heap2 ↔ (∀ p ∈ list1.zip list2, p.1 = p.2) ∨
      (∃ p ∈ list1.zip list2, p.1 ≠ p.2 ∧ ComparesEqual compare p.1 p.2) ∧
        ∃ p ∈ list1.zip list2, ¬ ComparesEqual compare p.1 p.2 := by
    rw [← eq_iff_zip hlen]
    constructor
    · rintro ⟨l1, l2, hl1, hl2, h⟩
      obtain rfl := Option.some.inj (hget1.symm.trans hl1)
      obtain rfl := Option.some.inj (hget2.symm.trans hl2)
      exact h
    · exact fun h => ⟨list1, list2, hget1, hget2, h⟩
  rw [hleft, hright, or_iff_right (not_not.mpr hcount)]
  have hrefl : ∀ p : α × α, p.1 = p.2 → ComparesEqual compare p.1 p.2 := fun p hp => by
    rw [hp]
    exact comparesEqual_refl hc p.2
  by_cases hnone : compare = none
  · refine iff_of_true (forall₂_congr fun p _ => ?_) (.inl hnone)
    rw [hnone]
    simp [ComparesEqual]
  rw [or_iff_right hnone]
  constructor
  · intro hiff
    by_cases hsame : ∀ p ∈ list1.zip list2, p.1 = p.2
    · exact .inl hsame
    by_cases hall : ∀ p ∈ list1.zip list2, ComparesEqual compare p.1 p.2
    · -- the loop finds the first pair of different pointers
      refine absurd (fun p hp => ?_) hsame
      exact (hiff.mpr hall p hp).resolve_right fun h => h.2 (hall p hp)
    · refine .inr ⟨?_, by push Not at hall; exact hall⟩
      have hnot := mt hiff.mp hall
      push Not at hnot
      obtain ⟨p, hp, hne, heq⟩ := hnot
      exact ⟨p, hp, hne, heq hnone⟩
  · rintro (hsame | ⟨⟨p, hp, hne, heq⟩, q, hq, hneq⟩)
    · exact iff_of_true (fun p hp => .inl (hsame p hp)) fun p hp => hrefl p (hsame p hp)
    · refine iff_of_false (fun h => ?_) fun h => hneq (h q hq)
      exact (h p hp).elim hne fun hp' => hp'.2 heq

end Right

/-- A heap of one value. -/
def single (compare : Nat → Nat → CFComparisonResult) (value : Nat) : CFBinaryHeap Nat :=
  ⟨1, some compare, none, [value, 0, 0, 0]⟩

theorem addValue_create (junk : Nat → Nat) (compare : Nat → Nat → CFComparisonResult) (value : Nat) :
    CFBinaryHeap.addValue junk (create junk (some compare) none) value = some ⟨1, some compare, none, [value, junk 1, junk 2, junk 3]⟩ := by
  have hsift : ∀ buckets, siftUp (some compare) value buckets 0 = some (buckets, 0) := fun _ => by
    rw [siftUp, if_pos rfl]
  have hbuckets : (create junk (some compare) none).buckets = [junk 0, junk 1, junk 2, junk 3] := rfl
  have hnot : ¬ (create junk (some compare) none).count = (create junk (some compare) none).capacity := by
    rw [CFBinaryHeap.capacity, hbuckets]
    exact Nat.zero_ne_add_one 3
  rw [CFBinaryHeap.addValue, if_neg hnot]
  show (siftUp (some compare) value _ 0).bind _ = _
  rw [hbuckets, hsift]
  rfl

theorem single_reached (compare : Nat → Nat → CFComparisonResult) (value : Nat) :
    Reached (some compare) (single compare value) := by
  refine ⟨fun _ => 0, none, [.addValue 0 value], [(single compare value, {value})], {value}, ?_, List.mem_singleton_self _⟩
  rw [run, List.foldlM_cons]
  simp only [Operation.run, Operation.heap, List.getElem?_cons_zero, Operation.apply, addValue_create]
  rfl

theorem single_getValues (junk : Nat → Nat) (compare : Nat → Nat → CFComparisonResult) (value : Nat) :
    (single compare value).getValues junk = some [value] := by
  have hcopy : createCopy junk (single compare value) = some ⟨1, some compare, none, [value, junk 1, junk 2, junk 3]⟩ := by
    show List.foldlM (CFBinaryHeap.addValue junk) (create junk (some compare) none) [value] = _
    rw [List.foldlM_cons, addValue_create]
    rfl
  have hsift : siftDown (some compare) value 0 [value, junk 1, junk 2, junk 3] 0 =
      some ([value, junk 1, junk 2, junk 3], 0) := by
    rw [siftDown]
    exact if_neg (by decide)
  have hremove : removeMinimumValue ⟨1, some compare, none, [value, junk 1, junk 2, junk 3]⟩ =
      some ⟨0, some compare, none, [value, junk 1, junk 2, junk 3]⟩ := by
    show (siftDown (some compare) value 0 [value, junk 1, junk 2, junk 3] 0).bind _ = _
    rw [hsift]
    rfl
  rw [getValues, if_neg (show ¬ (single compare value).count = 0 from Nat.one_ne_zero), hcopy]
  show (removeMinimumValue ⟨1, some compare, none, [value, junk 1, junk 2, junk 3]⟩).bind _ = _
  rw [hremove]
  rfl

/-- Two addresses that compare as equal make the heaps differ, and two that do not
make them equal. -/
theorem equal_inverted : equal (fun _ => 0) (fun _ => 0) true (single (fun _ _ => .eq) 5) (single (fun _ _ => .eq) 7) =
      some false ∧
    ¬ AnswersEquality (fun _ => 0) (fun _ => 0) (single (fun _ _ => .eq) 5) (single (fun _ _ => .eq) 7) ∧
    equal (fun _ => 0) (fun _ => 0) true (single Ord.compare 1) (single Ord.compare 2) = some true ∧
    ¬ AnswersEquality (fun _ => 0) (fun _ => 0) (single Ord.compare 1) (single Ord.compare 2) := by
  have hequal : ∀ compare a b, equal (fun _ => 0) (fun _ => 0) true (single compare a) (single compare b) =
      some (equalValues (some compare) [a] [b]) := by
    intro compare a b
    rw [equal, single_getValues, single_getValues]
    rfl
  have hfalse := hequal (fun _ _ => .eq) 5 7
  have htrue := hequal Ord.compare 1 2
  refine ⟨hfalse, ?_, htrue, ?_⟩
  · rintro ⟨answer, list1, list2, hanswer, hget1, hget2, hiff⟩
    obtain rfl := Option.some.inj (hfalse.symm.trans hanswer)
    rw [single_getValues] at hget1 hget2
    obtain rfl := Option.some.inj hget1
    obtain rfl := Option.some.inj hget2
    exact absurd (hiff.mpr ⟨rfl, by simp [ComparesEqual, single]⟩) (by decide)
  · rintro ⟨answer, list1, list2, hanswer, hget1, hget2, hiff⟩
    obtain rfl := Option.some.inj (htrue.symm.trans hanswer)
    rw [single_getValues] at hget1 hget2
    obtain rfl := Option.some.inj hget1
    obtain rfl := Option.some.inj hget2
    have h := (hiff.mp (by decide)).2 (1, 2) (List.mem_singleton_self _)
    revert h
    simp [ComparesEqual, single]

theorem equal_right_same : AnswersEquality (fun _ => 0) (fun _ => 1) (single (fun _ _ => .eq) 5) (single (fun _ _ => .eq) 5) :=
  (equal_right_iff (fun _ => 0) (fun _ => 1) (by rintro f ⟨⟩; exact ⟨by simp, by simp⟩) (single_reached _ 5)
    (single_reached _ 5)).mpr
    (.inr (.inr ⟨[5], [5], single_getValues _ _ 5, single_getValues _ _ 5, .inl rfl⟩))

end CFLite.BinaryHeap
