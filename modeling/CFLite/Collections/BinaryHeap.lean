import CFLite.Base.Comparison
import CFLite.Base.Prefix
import CFLite.Framework.Buckets
import CFLite.Framework.ImplicitHeap

/-!
# `CFBinaryHeap`

A binary heap keeps its values in an array. `CFBinaryHeapAddValue` and
`CFBinaryHeapRemoveMinimumValue` move a hole up or down and store a value in it
at the end. A heap without a comparator compares the addresses of its values.

The array grows when it is full, to a power of two which the code computes in
an `int`; an allocation of a negative size fails, and the heap stops the process
then, which is `none` here.

* `addValue_spec`, `removeMinimumValue_spec`: the two operations on the multiset
  of values;
* `getValues_spec`: the values in order.
-/

namespace CFLite.BinaryHeap

open Framework

variable {α : Type*}

/-- `struct __CFBinaryHeap`. The buckets are as many as the capacity. -/
structure CFBinaryHeap (α : Type*) where
  count : Nat
  compare : Option (α → α → CFComparisonResult)
  retain : Option (α → α)
  buckets : List α

namespace CFBinaryHeap

/-! ## The code -/

def capacity (heap : CFBinaryHeap α) : Nat := heap.buckets.length

/-- `__CFBinaryHeapRoundUpCapacity` -/
def roundUpCapacity (capacity : Nat) : Int :=
  if capacity < 4 then 4 else oneShl (flsl capacity)

/-- The comparison `kCFCompareGreaterThan == compare(a, b)`, or of addresses. -/
def greaterThan [LT α] [DecidableLT α] (compare : Option (α → α → CFComparisonResult)) (a b : α) : Bool :=
  match compare with
  | none => decide (b < a)
  | some compare => compare a b = .gt

/-- `__CFBinaryHeapInit` without values. New memory holds `junk`. -/
def create (junk : Nat → α) (compare : Option (α → α → CFComparisonResult)) (retain : Option (α → α)) :
    CFBinaryHeap α :=
  ⟨0, compare, retain, reallocate junk [] (roundUpCapacity 1).toNat⟩

/-- `__CFBinaryHeapGrow` -/
def grow (junk : Nat → α) (heap : CFBinaryHeap α) (numNewValues : Nat) : Option (CFBinaryHeap α) :=
  let capacity := roundUpCapacity (heap.count + numNewValues)
  -- `if (NULL == heap->_buckets) HALT;`
  if capacity ≤ 0 then none else some { heap with buckets := reallocate junk heap.buckets capacity.toNat }

variable [LT α] [DecidableLT α]

/-- The loop of `CFBinaryHeapAddValue`: the hole moves up to where the value
belongs. -/
def siftUp (compare : Option (α → α → CFComparisonResult)) (value : α) (buckets : List α) (idx : Nat) :
    Option (List α × Nat) :=
  if idx = 0 then some (buckets, idx) else
  let pidx := (idx - 1) / 2
  buckets[pidx]?.bind fun item =>
    if ¬ greaterThan compare item value then some (buckets, idx) else
    (write buckets idx item).bind fun buckets => siftUp compare value buckets pidx
termination_by idx

/-- `CFBinaryHeapAddValue` -/
def addValue (junk : Nat → α) (heap : CFBinaryHeap α) (value : α) : Option (CFBinaryHeap α) := do
  let heap ← (if heap.count = heap.capacity then heap.grow junk 1 else some heap)
  let cnt := heap.count
  let (buckets, idx) ← siftUp heap.compare value heap.buckets cnt
  let item := match heap.retain with
    | some retain => retain value
    | none => value
  let buckets ← write buckets idx item
  return { heap with count := cnt + 1, buckets }

/-- The loop of `CFBinaryHeapRemoveMinimumValue` over the first `count` buckets:
the hole moves down to where the value belongs. -/
def siftDown (compare : Option (α → α → CFComparisonResult)) (val : α) (count : Nat) (buckets : List α)
    (idx : Nat) : Option (List α × Nat) :=
  let cidx := 2 * idx + 1
  if cidx < count then
    buckets[cidx]?.bind fun item =>
    -- the child that is not greater than the other
    (if cidx + 1 < count then
      buckets[cidx + 1]?.bind fun item2 =>
        some (if greaterThan compare item item2 then (true, item2) else (false, item))
    else some (false, item)).bind fun (second, item) =>
    if greaterThan compare item val then some (buckets, idx) else
    (write buckets idx item).bind fun buckets =>
    siftDown compare val count buckets (if second then cidx + 1 else cidx)
  else some (buckets, idx)
termination_by count - idx
decreasing_by split <;> omega

/-- `CFBinaryHeapRemoveMinimumValue` -/
def removeMinimumValue (heap : CFBinaryHeap α) : Option (CFBinaryHeap α) :=
  let cnt := heap.count
  if cnt = 0 then some heap else do
  let val ← heap.buckets[cnt - 1]?
  let (buckets, idx) ← siftDown heap.compare val (cnt - 1) heap.buckets 0
  let buckets ← write buckets idx val
  return { heap with count := cnt - 1, buckets }

omit [LT α] [DecidableLT α] in
/-- `CFBinaryHeapRemoveAllValues` -/
def removeAllValues (heap : CFBinaryHeap α) : CFBinaryHeap α := { heap with count := 0 }

/-- `CFBinaryHeapCreateCopy`: every value is added to a new heap. -/
def createCopy (junk : Nat → α) (heap : CFBinaryHeap α) : Option (CFBinaryHeap α) :=
  (heap.buckets.take heap.count).foldlM (addValue junk) (create junk heap.compare heap.retain)

omit [LT α] [DecidableLT α] in
/-- `CFBinaryHeapGetMinimum`, with `none` for NULL. -/
def getMinimum (heap : CFBinaryHeap α) : Option α := if 0 < heap.count then heap.buckets[0]? else none

/-- `while (0 < __CFBinaryHeapCount(heapCopy))`, for a heap of `n` values. -/
def drain : (n : Nat) → (heapCopy : CFBinaryHeap α) → Option (List α)
  | 0, _ => some []
  | n + 1, heapCopy => do
    let value ← heapCopy.getMinimum
    let values ← drain n (← heapCopy.removeMinimumValue)
    return value :: values

/-- `CFBinaryHeapGetValues`: the values it stores in the caller's array. -/
def getValues (junk : Nat → α) (heap : CFBinaryHeap α) : Option (List α) :=
  if heap.count = 0 then some [] else do
  let heapCopy ← heap.createCopy junk
  drain heapCopy.count heapCopy

end CFBinaryHeap

/-! ## Order -/

section Order

variable [LinearOrder α] {compare : Option (α → α → CFComparisonResult)}

/-- `a` is not greater than `b`. -/
def NotGreater (compare : Option (α → α → CFComparisonResult)) (a b : α) : Prop :=
  CFBinaryHeap.greaterThan compare a b = false

theorem NotGreater.total (h : ∀ f ∈ compare, TotalPreorder f) (a b : α) :
    NotGreater compare a b ∨ NotGreater compare b a := by
  cases compare with
  | none => simpa [NotGreater, CFBinaryHeap.greaterThan] using le_total a b
  | some f => simpa [NotGreater, CFBinaryHeap.greaterThan, NotAfter] using (h f rfl).total a b

theorem NotGreater.trans (h : ∀ f ∈ compare, TotalPreorder f) (a b c : α) (hab : NotGreater compare a b)
    (hbc : NotGreater compare b c) : NotGreater compare a c := by
  cases compare with
  | none =>
    simp only [NotGreater, CFBinaryHeap.greaterThan, decide_eq_false_iff_not, not_lt] at *
    exact hab.trans hbc
  | some f =>
    simp only [NotGreater, CFBinaryHeap.greaterThan, decide_eq_false_iff_not] at *
    exact (h f rfl).trans a b c hab hbc

/-- What is greater than `b` has `b` before it. -/
theorem NotGreater.of_greater (h : ∀ f ∈ compare, TotalPreorder f) {a b : α}
    (hgt : CFBinaryHeap.greaterThan compare a b = true) : NotGreater compare b a :=
  (NotGreater.total h a b).resolve_left (by rw [NotGreater, hgt]; decide)

end Order

/-! ## The two loops -/

section Sift

variable [LinearOrder α] {compare : Option (α → α → CFComparisonResult)} {buckets : List α} {idx n : Nat} {value : α}

/-- A loop left a hole among the first `n` buckets, and filling it with `value`
gives an ordered heap of the elements that filling the hole before would. -/
structure Sifted (compare : Option (α → α → CFComparisonResult)) (value : α) (n : Nat) (buckets : List α)
    (idx : Nat) (r : List α × Nat) : Prop where
  length : r.1.length = buckets.length
  lt : r.2 < n
  ordered : HeapOrdered (NotGreater compare) ((r.1.take n).set r.2 value)
  perm : ((r.1.take n).set r.2 value).Perm ((buckets.take n).set idx value)

theorem siftUp_spec (hc : ∀ f ∈ compare, TotalPreorder f) (hn : n ≤ buckets.length) (hidx : idx < n)
    (h : UpHole (NotGreater compare) (buckets.take n) idx value) :
    ∃ r, CFBinaryHeap.siftUp compare value buckets idx = some r ∧ Sifted compare value n buckets idx r := by
  have hlen : idx < (buckets.take n).length := by rw [List.length_take]; omega
  induction idx using Nat.strong_induction_on generalizing buckets with
  | _ idx ih =>
    rw [CFBinaryHeap.siftUp]
    split
    · rename_i hzero
      exact ⟨_, rfl, rfl, hidx, h.fill hlen fun p hpos => absurd hzero (by omega), List.Perm.refl _⟩
    rename_i hpos
    have hpar : (idx - 1) / 2 < buckets.length := by omega
    have hget : (buckets.take n)[(idx - 1) / 2]? = some buckets[(idx - 1) / 2] := by
      rw [List.getElem?_take_of_lt (by omega), List.getElem?_eq_getElem hpar]
    simp only [List.getElem?_eq_getElem hpar, Option.bind_some]
    split
    · rename_i hle
      refine ⟨_, rfl, rfl, hidx, h.fill hlen fun p _ hp => ?_, List.Perm.refl _⟩
      rw [hget, Option.some_inj] at hp
      exact hp ▸ (Bool.not_eq_true _).mp hle
    · rename_i hgt
      have hle := NotGreater.of_greater hc (not_not.mp hgt)
      have hmove := h.move (NotGreater.trans hc) (by omega) hlen hget hle
      rw [← List.take_set] at hmove
      rw [write_eq (by omega), Option.bind_some]
      obtain ⟨r, hr, hs⟩ := ih ((idx - 1) / 2) (by omega)
        (show n ≤ (buckets.set idx buckets[(idx - 1) / 2]).length by rwa [List.length_set]) (by omega) hmove (by rw [List.length_take, List.length_set]; omega)
      refine ⟨r, hr, hs.length.trans List.length_set, hs.lt, hs.ordered, hs.perm.trans ?_⟩
      rw [List.take_set]
      exact perm_move hlen (by omega) hget value

/-- The child that the hole may move to: no other child is before it. -/
theorem child_spec (hc : ∀ f ∈ compare, TotalPreorder f) (hn : n ≤ buckets.length) {cidx : Nat} (hlt : cidx < n) :
    ∃ second item, (if cidx + 1 < n then
        buckets[cidx + 1]?.bind fun item2 => some (if CFBinaryHeap.greaterThan compare buckets[cidx] item2
          then (true, item2) else (false, buckets[cidx]))
      else some (false, buckets[cidx])) = some (second, item) ∧
      (buckets.take n)[if second then cidx + 1 else cidx]? = some item ∧
      ∀ i y, i = cidx ∨ i = cidx + 1 → (buckets.take n)[i]? = some y → NotGreater compare item y := by
  have hget : (buckets.take n)[cidx]? = some buckets[cidx] := by
    rw [List.getElem?_take_of_lt hlt, List.getElem?_eq_getElem]
  have hrefl : ∀ a, NotGreater compare a a := fun a => (NotGreater.total hc a a).elim id id
  split
  · rename_i hlt2
    have hget2 : (buckets.take n)[cidx + 1]? = some buckets[cidx + 1] := by
      rw [List.getElem?_take_of_lt hlt2, List.getElem?_eq_getElem]
    rw [List.getElem?_eq_getElem (by omega), Option.bind_some]
    split
    · rename_i hgt
      refine ⟨true, _, rfl, hget2, ?_⟩
      rintro i y (rfl | rfl) hy
      · rw [hget, Option.some_inj] at hy
        exact hy ▸ NotGreater.of_greater hc hgt
      · rw [hget2, Option.some_inj] at hy
        exact hy ▸ hrefl _
    · rename_i hle
      refine ⟨false, _, rfl, hget, ?_⟩
      rintro i y (rfl | rfl) hy
      · rw [hget, Option.some_inj] at hy
        exact hy ▸ hrefl _
      · rw [hget2, Option.some_inj] at hy
        exact hy ▸ (Bool.not_eq_true _).mp hle
  · rename_i hlast
    refine ⟨false, _, rfl, hget, ?_⟩
    rintro i y (rfl | rfl) hy
    · rw [hget, Option.some_inj] at hy
      exact hy ▸ hrefl _
    · rw [List.getElem?_eq_none (by rw [List.length_take]; omega)] at hy
      exact absurd hy (by simp)

theorem siftDown_spec (hc : ∀ f ∈ compare, TotalPreorder f) (hn : n ≤ buckets.length) (hidx : idx < n)
    (h : DownHole (NotGreater compare) (buckets.take n) idx value) :
    ∃ r, CFBinaryHeap.siftDown compare value n buckets idx = some r ∧ Sifted compare value n buckets idx r := by
  have hlen : idx < (buckets.take n).length := by rw [List.length_take]; omega
  induction hm : n - idx using Nat.strong_induction_on generalizing buckets idx with
  | _ m ih =>
    rw [CFBinaryHeap.siftDown]
    dsimp only
    split
    · rename_i hlt
      obtain ⟨second, item, hchild, hget, hleast⟩ := child_spec hc hn hlt
      simp only [List.getElem?_eq_getElem (show 2 * idx + 1 < buckets.length by omega), Option.bind_some, hchild]
      have hleast' : ∀ i y, 0 < i → (i - 1) / 2 = idx → (buckets.take n)[i]? = some y → NotGreater compare item y :=
        fun i y hi hpar hy => hleast i y (by omega) hy
      split
      · rename_i hgt
        have hle := NotGreater.of_greater hc hgt
        exact ⟨_, rfl, rfl, hidx, h.fill hlen fun i y hi hpar hy => NotGreater.trans hc _ _ _ hle (hleast' i y hi hpar hy),
          List.Perm.refl _⟩
      · rename_i hle
        obtain ⟨c, hcdef⟩ : ∃ c, c = if second then 2 * idx + 1 + 1 else 2 * idx + 1 := ⟨_, rfl⟩
        have hcases : c = 2 * idx + 1 ∨ c = 2 * idx + 1 + 1 := by rw [hcdef]; split <;> simp
        rw [← hcdef] at hget ⊢
        have hclt : c < n := by
          have := (List.getElem?_eq_some_iff.mp hget).1
          rw [List.length_take] at this
          omega
        have hmove := h.move (by omega) (by omega) hget hleast' ((Bool.not_eq_true _).mp hle)
        rw [← List.take_set] at hmove
        rw [write_eq (by omega), Option.bind_some]
        obtain ⟨r, hr, hs⟩ := ih (n - c) (by omega)
          (show n ≤ (buckets.set idx item).length by rwa [List.length_set]) hclt hmove (by rw [List.length_take, List.length_set]; omega) rfl
        refine ⟨r, hr, hs.length.trans List.length_set, hs.lt, hs.ordered, hs.perm.trans ?_⟩
        rw [List.take_set]
        exact perm_move hlen (by omega) hget value
    · rename_i hlast
      refine ⟨_, rfl, rfl, hidx, h.fill hlen fun i y hi hpar hy => ?_, List.Perm.refl _⟩
      rw [List.getElem?_eq_none (by rw [List.length_take]; omega)] at hy
      exact absurd hy (by simp)

end Sift

/-! ## The operations -/

namespace CFBinaryHeap

/-- The values, in the order of the buckets. -/
def values (heap : CFBinaryHeap α) : List α := heap.buckets.take heap.count

variable [LinearOrder α] (junk : Nat → α) {compare : Option (α → α → CFComparisonResult)} {retain : Option (α → α)}
  {heap : CFBinaryHeap α}

/-- A heap with these callbacks in good order. Its capacity is a power of two
that an `int` holds. -/
structure Valid (compare : Option (α → α → CFComparisonResult)) (retain : Option (α → α))
    (heap : CFBinaryHeap α) : Prop where
  compare_eq : heap.compare = compare
  retain_eq : heap.retain = retain
  capacity : ∃ k, 2 ≤ k ∧ k ≤ 30 ∧ heap.capacity = 2 ^ k
  count_le : heap.count ≤ heap.capacity
  ordered : HeapOrdered (NotGreater compare) heap.values

theorem Valid.length_values (h : Valid compare retain heap) : heap.values.length = heap.count := by
  rw [values, List.length_take]
  exact min_eq_left h.count_le

theorem Valid.count_le_limit (h : Valid compare retain heap) : heap.count ≤ 2 ^ 30 := by
  obtain ⟨k, _, hk, hcap⟩ := h.capacity
  exact h.count_le.trans (hcap ▸ Nat.pow_le_pow_right (by decide) hk)

theorem create_valid : Valid compare retain (create junk compare retain) := by
  refine ⟨rfl, rfl, ⟨2, by decide, by decide, length_reallocate ..⟩, Nat.zero_le _, fun i x p _ hx _ => ?_⟩
  exact absurd hx (by simp [values, create])

/-- The new capacity of a full heap. -/
theorem roundUpCapacity_full {k : Nat} (hk : 2 ≤ k) : roundUpCapacity (2 ^ k + 1) = oneShl (k + 1) := by
  have h : 2 ^ 2 ≤ 2 ^ k := Nat.pow_le_pow_right (by decide) hk
  rw [roundUpCapacity, if_neg (by omega), flsl_two_pow (by omega)]

theorem grow_spec (h : Valid compare retain heap) (hfull : heap.count = heap.capacity) (hlt : heap.count < 2 ^ 30) :
    ∃ heap', grow junk heap 1 = some heap' ∧ Valid compare retain heap' ∧ heap'.values = heap.values ∧
      heap'.count = heap.count ∧ heap'.count < heap'.capacity := by
  obtain ⟨k, hk, hk30, hcap⟩ := h.capacity
  have hk' : k < 30 := by
    rcases Nat.lt_or_eq_of_le hk30 with hk' | rfl
    · exact hk'
    · omega
  have hnew : roundUpCapacity (heap.count + 1) = 2 ^ (k + 1) := by
    rw [hfull, hcap, roundUpCapacity_full hk, oneShl_eq (by omega)]
  have hnat : ((2 : Int) ^ (k + 1)).toNat = 2 ^ (k + 1) := by norm_cast
  have hpos : ¬ (2 : Int) ^ (k + 1) ≤ 0 := not_le.mpr (by positivity)
  have hdouble : (2 : Nat) ^ (k + 1) = 2 ^ k * 2 := Nat.pow_succ ..
  have hroom : heap.count < 2 ^ (k + 1) := by
    have := Nat.two_pow_pos k
    omega
  have hvalues : (reallocate junk heap.buckets (2 ^ (k + 1))).take heap.count = heap.buckets.take heap.count := by
    refine List.ext_getElem? fun i => ?_
    rw [List.getElem?_take, List.getElem?_take]
    split
    · exact getElem?_reallocate junk _ (by omega) (by unfold capacity at hfull; omega)
    · rfl
  refine ⟨{ heap with buckets := reallocate junk heap.buckets (2 ^ (k + 1)) }, ?_, ?_, hvalues, rfl, ?_⟩
  · rw [grow, hnew, hnat]
    exact if_neg hpos
  · refine ⟨h.compare_eq, h.retain_eq, ⟨k + 1, by omega, by omega, length_reallocate ..⟩, ?_, ?_⟩
    · rw [capacity, length_reallocate]
      exact hroom.le
    · rw [values, hvalues]
      exact h.ordered
  · rw [capacity, length_reallocate]
    exact hroom

/-- A heap that holds 2^30 values cannot grow. -/
theorem addValue_full (h : Valid compare retain heap) (hfull : heap.count = 2 ^ 30) (value : α) :
    addValue junk heap value = none := by
  obtain ⟨k, hk, hk30, hcap⟩ := h.capacity
  have hk' : k = 30 := by
    have := h.count_le
    rw [hfull, hcap] at this
    exact le_antisymm hk30 ((Nat.pow_le_pow_iff_right (by decide)).mp this)
  subst hk'
  have hgrow : grow junk heap 1 = none := by
    rw [grow, hfull, roundUpCapacity_full (by decide), oneShl_31]
    rfl
  rw [addValue, if_pos (hfull.trans hcap.symm), hgrow]
  rfl

/-- A hole behind the last element. -/
theorem upHole_last {l : List α} (h : HeapOrdered (NotGreater compare) l) (x value : α) :
    UpHole (NotGreater compare) (l ++ [x]) l.length value := by
  have hout : ∀ {i y}, l.length < i → (l ++ [x])[i]? ≠ some y := fun {i y} hi hy => by
    rw [List.getElem?_eq_none (by simp; omega)] at hy
    exact absurd hy (by simp)
  refine ⟨fun i y p hi hne hpar hy hp => ?_, fun i y p hi hpar _ hy _ => absurd hy (hout (by omega)),
    fun i y hi hpar hy => absurd hy (hout (by omega))⟩
  have hlt : i < l.length := by
    by_contra hge
    exact hout (by omega) hy
  rw [List.getElem?_append_left hlt] at hy
  rw [List.getElem?_append_left (by omega)] at hp
  exact h i y p hi hy hp

theorem addValue_spec (hc : ∀ f ∈ compare, TotalPreorder f) (hr : ∀ f ∈ retain, ∀ x, f x = x)
    (h : Valid compare retain heap) (hlt : heap.count < 2 ^ 30) (value : α) :
    ∃ heap', addValue junk heap value = some heap' ∧ Valid compare retain heap' ∧ heap'.count = heap.count + 1 ∧
      heap'.values.Perm (value :: heap.values) := by
  obtain ⟨heap₁, hgrow, h₁, hvalues, hcount, hroom⟩ :
      ∃ heap₁, (if heap.count = heap.capacity then grow junk heap 1 else some heap) = some heap₁ ∧
        Valid compare retain heap₁ ∧ heap₁.values = heap.values ∧ heap₁.count = heap.count ∧
        heap₁.count < heap₁.capacity := by
    split
    · rename_i hfull
      exact grow_spec junk h hfull hlt
    · rename_i hne
      exact ⟨heap, rfl, h, rfl, rfl, lt_of_le_of_ne h.count_le hne⟩
  obtain ⟨last, htake⟩ : ∃ last, heap₁.buckets.take (heap₁.count + 1) = heap₁.values ++ [last] :=
    ⟨_, List.take_succ_eq_append_getElem hroom⟩
  have hhole := upHole_last h₁.ordered last value
  rw [h₁.length_values, ← htake] at hhole
  obtain ⟨⟨buckets, idx⟩, hsift, hs⟩ := siftUp_spec (n := heap₁.count + 1) hc hroom (Nat.lt_succ_self _) hhole
  have hlen : buckets.length = heap₁.buckets.length := hs.length
  have hidx : idx < heap₁.count + 1 := hs.lt
  have hwrite : write buckets idx value = some (buckets.set idx value) :=
    write_eq (by unfold capacity at hroom; omega) value
  have hretain : (match heap₁.retain with | some retain => retain value | none => value) = value := by
    rw [h₁.retain_eq]
    cases retain with
    | none => rfl
    | some f => exact hr f rfl value
  have hnew : (buckets.set idx value).take (heap₁.count + 1) = (buckets.take (heap₁.count + 1)).set idx value :=
    List.take_set
  refine ⟨⟨heap₁.count + 1, heap₁.compare, heap₁.retain, buckets.set idx value⟩, ?_, ?_, by rw [hcount], ?_⟩
  · rw [addValue, hgrow]
    simp only [Option.bind_eq_bind, Option.bind_some, h₁.compare_eq, hsift, hretain, hwrite]
    rfl
  · obtain ⟨k, hk, hk30, hcap⟩ := h₁.capacity
    refine ⟨h₁.compare_eq, h₁.retain_eq, ⟨k, hk, hk30, ?_⟩, ?_, ?_⟩
    · rw [← hcap, capacity, List.length_set, hs.length, capacity]
    · rw [capacity, List.length_set, hs.length]
      exact hroom
    · rw [values, hnew]
      exact hs.ordered
  · rw [values, hnew, ← hvalues]
    refine hs.perm.trans ?_
    rw [htake, ← h₁.length_values, List.set_append_right _ _ le_rfl, Nat.sub_self]
    exact List.perm_append_singleton _ _

/-- A hole in place of the first element. -/
theorem downHole_first {l : List α} {m : Nat} (h : HeapOrdered (NotGreater compare) l) (value : α) :
    DownHole (NotGreater compare) (l.take m) 0 value := by
  refine ⟨fun i y p hi _ _ hy hp => ?_, fun _ _ _ _ _ h0 => absurd h0 (lt_irrefl 0), fun p h0 => absurd h0 (lt_irrefl 0)⟩
  rw [List.getElem?_take] at hy hp
  split at hy
  · rename_i hlt
    rw [if_pos (by omega)] at hp
    exact h i y p hi hy hp
  · cases hy

/-- Removing takes away the first value. -/
theorem removeMinimumValue_spec (hc : ∀ f ∈ compare, TotalPreorder f) (h : Valid compare retain heap)
    (hpos : 0 < heap.count) :
    ∃ heap' m, heap.getMinimum = some m ∧ (∀ x ∈ heap.values, NotGreater compare m x) ∧
      removeMinimumValue heap = some heap' ∧ Valid compare retain heap' ∧ heap'.count = heap.count - 1 ∧
      heap.values.Perm (m :: heap'.values) := by
  have hcap : heap.count ≤ heap.buckets.length := h.count_le
  have hget : heap.getMinimum = some heap.buckets[0] := by
    rw [getMinimum, if_pos hpos, List.getElem?_eq_getElem]
  have hfirst : heap.values[0]? = some heap.buckets[0] := by
    rw [values, List.getElem?_take_of_lt hpos, List.getElem?_eq_getElem]
  have hleast : ∀ x ∈ heap.values, NotGreater compare heap.buckets[0] x := by
    intro x hx
    obtain ⟨i, hi⟩ := List.mem_iff_getElem?.mp hx
    exact HeapOrdered.first_le (NotGreater.total hc) (NotGreater.trans hc) h.ordered hfirst hi
  obtain ⟨val, hlast, htake⟩ : ∃ val, heap.buckets[heap.count - 1]? = some val ∧
      heap.values = heap.buckets.take (heap.count - 1) ++ [val] := by
    refine ⟨_, List.getElem?_eq_getElem (by omega), ?_⟩
    rw [values, ← List.take_succ_eq_append_getElem (by omega), Nat.sub_add_cancel hpos]
  obtain ⟨k, hk, hk30, hcap2⟩ := h.capacity
  -- the loop, and the heap once its hole is filled
  obtain ⟨buckets, idx, hsift, hlen, hidx, hordered, hperm⟩ : ∃ buckets idx,
      siftDown heap.compare val (heap.count - 1) heap.buckets 0 = some (buckets, idx) ∧
      buckets.length = heap.buckets.length ∧ idx < heap.count ∧
      HeapOrdered (NotGreater compare) ((buckets.set idx val).take (heap.count - 1)) ∧
      heap.values.Perm (heap.buckets[0] :: (buckets.set idx val).take (heap.count - 1)) := by
    by_cases hone : heap.count - 1 = 0
    · -- the first value is the last one too
      refine ⟨heap.buckets, 0, ?_, rfl, hpos, ?_, ?_⟩
      · rw [siftDown]
        exact if_neg (by omega)
      · rw [hone]
        exact fun i x p _ hx _ => absurd hx (by simp)
      · rw [hone, List.getElem?_eq_getElem, Option.some_inj] at hlast
        rw [htake, hone, ← hlast]
        exact List.Perm.refl _
    · have hhole := downHole_first (m := heap.count - 1) h.ordered val
      rw [values, List.take_take, min_eq_left (by omega)] at hhole
      obtain ⟨⟨buckets, idx⟩, hsift, hs⟩ := siftDown_spec (n := heap.count - 1) hc (by omega) (by omega) hhole
      refine ⟨buckets, idx, by rw [h.compare_eq]; exact hsift, hs.length, hs.lt.trans_le (Nat.sub_le _ _), ?_, ?_⟩
      · rw [List.take_set]
        exact hs.ordered
      · have hset := perm_set
          (show 0 < (heap.buckets.take (heap.count - 1)).length by rw [List.length_take]; omega) val
        rw [List.getElem_take] at hset
        rw [htake, List.take_set]
        exact (List.perm_append_singleton _ _).trans (hset.symm.trans (hs.perm.symm.cons _))
  refine ⟨⟨heap.count - 1, heap.compare, heap.retain, buckets.set idx val⟩, _, hget, hleast, ?_, ?_, rfl, hperm⟩
  · simp only [removeMinimumValue, Nat.pos_iff_ne_zero.mp hpos, if_false, hlast, hsift,
      write_eq (show idx < buckets.length by omega), Option.bind_eq_bind, Option.bind_some]
    rfl
  · refine ⟨h.compare_eq, h.retain_eq, ⟨k, hk, hk30, ?_⟩, ?_, hordered⟩
    · rw [← hcap2, capacity, List.length_set, hlen, capacity]
    · rw [capacity, List.length_set, hlen]
      exact (Nat.sub_le _ _).trans h.count_le

theorem removeAllValues_spec (h : Valid compare retain heap) :
    Valid compare retain heap.removeAllValues ∧ heap.removeAllValues.values = [] := by
  refine ⟨⟨h.compare_eq, h.retain_eq, h.capacity, Nat.zero_le _, fun i x p _ hx _ => ?_⟩, rfl⟩
  exact absurd hx (by simp [values, removeAllValues])

/-- Adding values one after the other. -/
theorem foldlM_addValue (hc : ∀ f ∈ compare, TotalPreorder f) (hr : ∀ f ∈ retain, ∀ x, f x = x) (vs : List α)
    (h : Valid compare retain heap) (hlt : heap.count + vs.length ≤ 2 ^ 30) :
    ∃ heap', vs.foldlM (addValue junk) heap = some heap' ∧ Valid compare retain heap' ∧
      heap'.count = heap.count + vs.length ∧ heap'.values.Perm (vs ++ heap.values) := by
  induction vs generalizing heap with
  | nil => exact ⟨heap, rfl, h, rfl, List.Perm.refl _⟩
  | cons v vs ih =>
    rw [List.length_cons] at hlt
    obtain ⟨heap₁, hadd, h₁, hcount₁, hperm₁⟩ := addValue_spec junk hc hr h (by omega) v
    obtain ⟨heap₂, hfold, h₂, hcount₂, hperm₂⟩ := ih h₁ (by omega)
    refine ⟨heap₂, by rw [List.foldlM_cons, hadd]; exact hfold, h₂, by rw [hcount₂, hcount₁, List.length_cons]; omega,
      ?_⟩
    exact hperm₂.trans ((hperm₁.append_left vs).trans List.perm_middle)

theorem createCopy_spec (hc : ∀ f ∈ compare, TotalPreorder f) (hr : ∀ f ∈ retain, ∀ x, f x = x)
    (h : Valid compare retain heap) :
    ∃ heap', createCopy junk heap = some heap' ∧ Valid compare retain heap' ∧ heap'.count = heap.count ∧
      heap'.values.Perm heap.values := by
  have hlimit := h.count_le_limit
  have hlen := h.length_values
  obtain ⟨heap', hfold, h', hcount, hperm⟩ := foldlM_addValue junk hc hr heap.values
    (create_valid junk)
    (by rw [hlen]; exact (Nat.zero_add _).trans_le hlimit)
  refine ⟨heap', by rw [createCopy, h.compare_eq, h.retain_eq]; exact hfold, h', ?_, ?_⟩
  · rw [hcount, hlen]
    exact Nat.zero_add _
  · exact hperm.trans (by rw [show (create junk compare retain).values = [] from rfl, List.append_nil])

/-- Taking the minimum again and again gives the values in order. -/
theorem drain_spec (hc : ∀ f ∈ compare, TotalPreorder f) {n : Nat} (h : Valid compare retain heap)
    (hn : heap.count = n) :
    ∃ vs, drain n heap = some vs ∧ vs.Perm heap.values ∧ vs.Pairwise (NotGreater compare) := by
  induction n generalizing heap with
  | zero =>
    refine ⟨[], rfl, ?_, List.Pairwise.nil⟩
    rw [List.eq_nil_of_length_eq_zero (h.length_values.trans hn)]
  | succ n ih =>
    obtain ⟨heap', m, hmin, hleast, hremove, h', hcount, hperm⟩ := removeMinimumValue_spec hc h (by omega)
    obtain ⟨vs, hdrain, hvs, hsorted⟩ := ih h' (by omega)
    refine ⟨m :: vs, ?_, (hvs.cons m).trans hperm.symm, List.Pairwise.cons (fun x hx => ?_) hsorted⟩
    · simp only [drain, hmin, hremove, hdrain, Option.bind_eq_bind, Option.bind_some]
      rfl
    · exact hleast x (hperm.mem_iff.mpr (List.mem_cons_of_mem m (hvs.mem_iff.mp hx)))

theorem getValues_spec (hc : ∀ f ∈ compare, TotalPreorder f) (hr : ∀ f ∈ retain, ∀ x, f x = x)
    (h : Valid compare retain heap) :
    ∃ vs, getValues junk heap = some vs ∧ vs.Perm heap.values ∧ vs.Pairwise (NotGreater compare) := by
  rw [getValues]
  split
  · rename_i hzero
    refine ⟨[], rfl, ?_, List.Pairwise.nil⟩
    rw [List.eq_nil_of_length_eq_zero (h.length_values.trans hzero)]
  · obtain ⟨heapCopy, hcopy, h', -, hperm⟩ := createCopy_spec junk hc hr h
    obtain ⟨vs, hdrain, hvs, hsorted⟩ := drain_spec hc h' rfl
    exact ⟨vs, by rw [hcopy]; exact hdrain, hvs.trans hperm, hsorted⟩

end CFBinaryHeap

end CFLite.BinaryHeap
