import CFLite.Collections.ArraySort
import Mathlib.Data.List.Count

/-!
# Runs of a `CFArray`

Operations one after the other on a new array, with the list that its values are
after each of them.

* `operations_refine_list`: the values that are read are those of the list;
* `setCapacity_keeps_iff`: which changes of the capacity keep a reached array;
* `run_balanced`: what is retained and not yet released is what the array has.
-/

namespace CFLite.Array

open Framework

variable {α : Type}

/-- A public mutation that does not compare values. `appendArray` has `none` for
the array itself. -/
inductive Operation (α : Type) where
  | appendValue (value : α)
  | insertValueAtIndex (idx : Nat) (value : α)
  | setValueAtIndex (idx : Nat) (value : α)
  | removeValueAtIndex (idx : Nat)
  | removeAllValues
  | exchangeValuesAtIndices (idx1 idx2 : Nat)
  | replaceValues (location length : Nat) (newValues : List α)
  | appendArray (otherArray : Option (CFArray α)) (location length : Nat)

namespace Operation

/-- The operation on the array. -/
def run [Inhabited α] (junk : Nat → α) (array : CFArray α) : Operation α → Option (CFArray α)
  | appendValue value => array.appendValue junk value
  | insertValueAtIndex idx value => array.insertValueAtIndex junk idx value
  | setValueAtIndex idx value => array.setValueAtIndex junk idx value
  | removeValueAtIndex idx => array.removeValueAtIndex junk idx
  | removeAllValues => array.removeAllValues
  | exchangeValuesAtIndices idx1 idx2 => array.exchangeValuesAtIndices idx1 idx2
  | replaceValues location length newValues => array.replaceValues junk location length newValues
  | appendArray otherArray location length => array.appendArray junk otherArray length location

/-- The values that `CFArrayAppendArray` appends to `l`. -/
def appended (otherArray : Option (CFArray α)) (l : List α) (location length : Nat) : List α :=
  match otherArray with
  | some other => (other.getValues location length).getD []
  | none => (l.drop location).take length

/-- The operation on a list, which takes the values in as `retained` says. -/
def onList (retained : α → α) (l : List α) : Operation α → List α
  | appendValue value => l ++ [retained value]
  | insertValueAtIndex idx value => l.insertIdx idx (retained value)
  | setValueAtIndex idx value => if idx = l.length then l ++ [retained value] else l.set idx (retained value)
  | removeValueAtIndex idx => l.eraseIdx idx
  | removeAllValues => []
  | exchangeValuesAtIndices idx1 idx2 =>
    match l[idx1]?, l[idx2]? with
    | some value1, some value2 => (l.set idx1 value2).set idx2 value1
    | _, _ => l
  | replaceValues location length newValues => l.take location ++ newValues.map retained ++ l.drop (location + length)
  | appendArray otherArray location length => l ++ (appended otherArray l location length).map retained

/-- The arguments are in range, as the code asserts. -/
def InRange (l : List α) : Operation α → Prop
  | appendValue _ | removeAllValues => True
  | insertValueAtIndex idx _ | setValueAtIndex idx _ => idx ≤ l.length
  | removeValueAtIndex idx => idx < l.length
  | exchangeValuesAtIndices idx1 idx2 => idx1 < l.length ∧ idx2 < l.length
  | replaceValues location length _ => location + length ≤ l.length
  | appendArray (some other) location length => ∃ m, Holds other m ∧ location + length ≤ m.length
  | appendArray none location length => location + length ≤ l.length

/-- The values that the operation takes in. -/
def taken (retained : α → α) (l : List α) : Operation α → List α
  | appendValue value | insertValueAtIndex _ value | setValueAtIndex _ value => [retained value]
  | removeValueAtIndex _ | removeAllValues | exchangeValuesAtIndices _ _ => []
  | replaceValues _ _ newValues => newValues.map retained
  | appendArray otherArray location length => (appended otherArray l location length).map retained

/-- The values that the operation lets go. -/
def dropped (l : List α) : Operation α → List α
  | appendValue _ | insertValueAtIndex _ _ | exchangeValuesAtIndices _ _ | appendArray _ _ _ => []
  | setValueAtIndex idx _ | removeValueAtIndex idx => (l.drop idx).take 1
  | removeAllValues => l
  | replaceValues location length _ => (l.drop location).take length

variable [Inhabited α] (junk : Nat → α) {array : CFArray α} {l : List α}

omit [Inhabited α] in
theorem onList_setValueAtIndex {retained : α → α} {idx : Nat} {value : α} (h : idx ≤ l.length) :
    (setValueAtIndex idx value).onList retained l = l.take idx ++ [retained value] ++ l.drop (idx + 1) := by
  rw [onList]
  split
  · rename_i hend
    rw [hend, List.take_length, List.drop_of_length_le (Nat.le_succ _), List.append_nil]
  · rename_i hne
    rw [List.set_eq_take_append_cons_drop, if_pos (lt_of_le_of_ne h hne), List.append_assoc]
    rfl

theorem run_gives (op : Operation α) (h : Holds array l) (hop : op.InRange l) :
    Gives array (op.onList array.retained l) (op.taken array.retained l) (op.dropped l) (op.run junk array) := by
  cases op with
  | appendValue value => exact appendValue_gives junk value h
  | insertValueAtIndex idx value => exact insertValueAtIndex_gives junk value h hop
  | setValueAtIndex idx value =>
    have hg := setValueAtIndex_gives junk value h hop
    rwa [← onList_setValueAtIndex hop] at hg
  | removeValueAtIndex idx =>
    have hg := removeValueAtIndex_gives junk h hop
    have hold : [l[idx]] = (l.drop idx).take 1 := (List.take_one_drop_eq_of_lt_length hop).symm
    rwa [hold] at hg
  | removeAllValues =>
    obtain ⟨array', hr, hcount, hu⟩ := releaseAll_spec h
    have hempty : { array' with count := 0 } = array' := by rw [← hcount]
    rw [run, CFArray.removeAllValues, hr]
    show Gives array [] [] l (some { array' with count := 0 })
    rw [hempty]
    exact hu.gives
  | exchangeValuesAtIndices idx1 idx2 =>
    obtain ⟨array', hr, hu⟩ := exchangeValuesAtIndices_spec h hop.1 hop.2
    rw [run, hr, onList, List.getElem?_eq_getElem hop.1, List.getElem?_eq_getElem hop.2]
    exact hu.gives
  | replaceValues location length newValues => exact replaceValues_gives junk newValues h hop
  | appendArray otherArray location length =>
    cases otherArray with
    | some other =>
      obtain ⟨m, hm, hrange⟩ := hop
      have hg := appendArray_gives junk (some other) h hm hrange
      rw [onList, taken, appended, hm.getValues hrange]
      exact hg
    | none => exact appendArray_gives junk none h (List.prefix_refl l) hop

omit [Inhabited α] in
theorem splice_perm (l : List α) (location length : Nat) (new : List α) :
    (l.take location ++ new ++ l.drop (location + length) ++ (l.drop location).take length).Perm (l ++ new) := by
  classical
  have hl : l.take location ++ ((l.drop location).take length ++ l.drop (location + length)) = l := by
    rw [← List.drop_drop, List.take_append_drop, List.take_append_drop]
  refine List.perm_iff_count.mpr fun x => ?_
  have hx := congrArg (List.count x) hl
  simp only [List.count_append] at hx ⊢
  omega

omit [Inhabited α] in
/-- What is let go and what stays is what there was and what is taken in. -/
theorem onList_perm (op : Operation α) (retained : α → α) (hop : op.InRange l) :
    (op.onList retained l ++ op.dropped l).Perm (l ++ op.taken retained l) := by
  cases op with
  | appendValue value => exact List.Perm.of_eq (List.append_nil _)
  | insertValueAtIndex idx value =>
    have hr := splice_perm l idx 0 [retained value]
    rwa [List.take_zero, Nat.add_zero, ← insertIdx_eq_append hop] at hr
  | setValueAtIndex idx value =>
    rw [onList_setValueAtIndex hop]
    exact splice_perm l idx 1 [retained value]
  | removeValueAtIndex idx =>
    have hr := splice_perm l idx 1 []
    rwa [List.append_nil, ← List.eraseIdx_eq_take_drop_succ] at hr
  | removeAllValues => exact List.Perm.of_eq (List.append_nil _).symm
  | exchangeValuesAtIndices idx1 idx2 =>
    rw [onList, List.getElem?_eq_getElem hop.1, List.getElem?_eq_getElem hop.2]
    exact (List.set_set_perm hop.1 hop.2).append_right []
  | replaceValues location length newValues => exact splice_perm l location length _
  | appendArray otherArray location length => exact List.Perm.of_eq (List.append_nil _)

end Operation

/-! ## The list of values -/

section Refinement

variable [Inhabited α] (junk : Nat → α) {array : CFArray α} {l : List α}

/-- What is read of an array with the values `l`. The values are inside the
deque. -/
structure Reads (array : CFArray α) (l : List α) : Prop where
  count : array.count = l.length
  getValueAtIndex : ∀ idx < l.length, array.getValueAtIndex idx = l[idx]?
  getValues : ∀ location length, location + length ≤ l.length →
    array.getValues location length = some ((l.drop location).take length)
  inside : ∀ deque ∈ array.store, 0 ≤ deque.leftIdx ∧ deque.leftIdx + array.count ≤ deque.capacity

omit [Inhabited α] in
theorem Holds.reads (h : Holds array l) : Reads array l :=
  ⟨h.count, fun _ => h.getValueAtIndex, fun _ _ => h.getValues, h.room⟩

/-- Operations one after the other. -/
def run (junk : Nat → α) (array : CFArray α) (ops : List (Operation α)) : Option (CFArray α) :=
  ops.foldlM (Operation.run junk) array

/-- Each operation has its arguments in range when its turn comes, and leaves
fewer than `2 ^ 29` values. -/
def InRange (retained : α → α) : List α → List (Operation α) → Prop
  | _, [] => True
  | l, op :: ops =>
    op.InRange l ∧ (op.onList retained l).length < 2 ^ 29 ∧ InRange retained (op.onList retained l) ops

omit [Inhabited α] in
theorem InRange.of_append {retained : α → α} {ops ops' : List (Operation α)} (h : InRange retained l (ops ++ ops')) :
    InRange retained l ops := by
  induction ops generalizing l with
  | nil => trivial
  | cons op ops ih => exact ⟨h.1, h.2.1, ih h.2.2⟩

theorem run_holds (ops : List (Operation α)) (h : Holds array l) (hops : InRange array.retained l ops) :
    ∃ array', run junk array ops = some array' ∧ Holds array' (ops.foldl (Operation.onList array.retained) l) := by
  induction ops generalizing array l with
  | nil => exact ⟨array, rfl, h⟩
  | cons op ops ih =>
    obtain ⟨hop, hcount, hops⟩ := hops
    have hg := op.run_gives junk h hop
    obtain ⟨array₁, hr₁⟩ := hg.enough hcount
    have hu := hg.updates array₁ hr₁
    obtain ⟨array₂, hr₂, hholds⟩ := ih hu.holds (by rwa [hu.retained])
    refine ⟨array₂, by rw [run, List.foldlM_cons, hr₁]; exact hr₂, ?_⟩
    rwa [hu.retained] at hholds

/-- Operations in range on a new array do to its values what they do to the empty
list, and after each of them what is read of the array is what the list has. -/
theorem operations_refine_list (capacity : Nat) (retain : Option (α → α)) (release : Bool)
    (ops : List (Operation α)) (h : InRange (CFArray.createMutable capacity retain release).retained [] ops) :
    ∀ before, before <+: ops → ∃ array,
      run junk (CFArray.createMutable capacity retain release) before = some array ∧
      Reads array (before.foldl (Operation.onList (CFArray.createMutable capacity retain release).retained) []) := by
  rintro before ⟨after, rfl⟩
  obtain ⟨array, hr, hholds⟩ := run_holds junk before (createMutable_holds capacity retain release) h.of_append
  exact ⟨array, hr, hholds.reads⟩

/-- Four values, two of them gone again, and the rest appended to itself. -/
theorem operations_refine_list_example :
    InRange (CFArray.createMutable 0 (some fun value : Nat => value) true).retained []
      [.replaceValues 0 0 [1, 2, 3, 4], .removeValueAtIndex 1, .exchangeValuesAtIndices 0 2, .setValueAtIndex 3 9,
        .removeValueAtIndex 2, .appendArray none 0 3] ∧
    ∃ array, run (fun _ => 0) (CFArray.createMutable 0 (some fun value : Nat => value) true)
        [.replaceValues 0 0 [1, 2, 3, 4], .removeValueAtIndex 1, .exchangeValuesAtIndices 0 2, .setValueAtIndex 3 9,
          .removeValueAtIndex 2, .appendArray none 0 3] = some array ∧
      Reads array [4, 3, 9, 4, 3, 9] := by
  have h : InRange (CFArray.createMutable 0 (some fun value : Nat => value) true).retained []
      [.replaceValues 0 0 [1, 2, 3, 4], .removeValueAtIndex 1, .exchangeValuesAtIndices 0 2, .setValueAtIndex 3 9,
        .removeValueAtIndex 2, .appendArray none 0 3] := by
    simp [InRange, Operation.InRange, Operation.onList, Operation.appended, CFArray.createMutable, CFArray.retained]
  exact ⟨h, operations_refine_list (fun _ => 0) 0 _ true _ h _ (List.prefix_refl _)⟩

end Refinement

/-! ## Every mutation -/

/-- A public mutation, or `_CFArraySetCapacity`. -/
inductive Step (α : Type) where
  | operation (op : Operation α)
  | sortValues (location length : Nat) (comparator : α → α → CFComparisonResult)
  | setCapacity (cap : Nat)

/-- All values of the array. -/
def CFArray.values (array : CFArray α) : List α := (array.getValues 0 array.count).getD []

theorem Holds.values {array : CFArray α} {l : List α} (h : Holds array l) : array.values = l := by
  rw [CFArray.values, h.count, h.getValues (by omega), List.drop_zero, List.take_length]
  rfl

namespace Step

/-- The step on the array. -/
def run [Inhabited α] (junk : Nat → α) (array : CFArray α) : Step α → Option (CFArray α)
  | operation op => op.run junk array
  | sortValues location length comparator => array.sortValues junk location length comparator
  | setCapacity cap => array.setCapacity junk cap

/-- The arguments are in range, as the code asserts. -/
def InRange (array : CFArray α) : Step α → Prop
  | operation op => op.InRange array.values
  | sortValues location length _ => location + length ≤ array.values.length
  | setCapacity cap => array.count ≤ cap

end Step

section Runs

variable [Inhabited α] {junk : Nat → α} {array array' : CFArray α} {l : List α}

/-- The array can become the other one in a step. -/
def Becomes (junk : Nat → α) (array array' : CFArray α) : Prop :=
  ∃ step : Step α, step.InRange array ∧ step.run junk array = some array'

/-- What a step takes in and lets go. -/
theorem Holds.becomes (h : Holds array l) (hstep : Becomes junk array array') :
    ∃ l' new old, Updates array l' new old array' ∧ (l' ++ old).Perm (l ++ new) := by
  obtain ⟨step, hin, hr⟩ := hstep
  cases step with
  | operation op =>
    rw [Step.InRange, h.values] at hin
    exact ⟨_, _, _, (op.run_gives junk h hin).updates array' hr, op.onList_perm _ hin⟩
  | sortValues location length comparator =>
    rw [Step.InRange, h.values] at hin
    obtain ⟨r, array₁, hr₁, hsorted, hu⟩ := sortValues_spec comparator junk h hin
    obtain rfl := Option.some.inj (hr₁.symm.trans hr)
    split at hu
    · refine ⟨_, _, _, hu, ?_⟩
      have hp := Operation.splice_perm l location length r
      rw [List.append_nil, List.append_nil]
      exact (List.perm_append_right_iff r).mp (((hsorted.perm.append_left _).trans hp))
    · exact ⟨_, _, _, hu, Operation.splice_perm l location length _⟩
  | setCapacity cap =>
    obtain ⟨array₁, hr₁, hu⟩ := setCapacity_spec junk h (setCapacity_fits hr)
    obtain rfl := Option.some.inj (hr₁.symm.trans hr)
    exact ⟨_, _, _, hu, List.Perm.refl _⟩

/-- The array was made by a run. -/
def Reached (junk : Nat → α) (retain : Option (α → α)) (release : Bool) (array : CFArray α) : Prop :=
  ∃ capacity, Relation.ReflTransGen (Becomes junk) (CFArray.createMutable capacity retain release) array

theorem Reached.holds {retain : Option (α → α)} {release : Bool} (h : Reached junk retain release array) :
    Holds array array.values ∧ array.retain = retain ∧ array.release = release := by
  obtain ⟨capacity, hrun⟩ := h
  induction hrun with
  | refl => exact ⟨createMutable_holds capacity retain release, rfl, rfl⟩
  | tail _ hstep ih =>
    obtain ⟨hholds, hretain, hrelease⟩ := ih
    obtain ⟨l', new, old, hu, -⟩ := hholds.becomes hstep
    refine ⟨?_, hu.retain.trans hretain, hu.release.trans hrelease⟩
    rw [hu.holds.values]
    exact hu.holds

/-! ## Changes of the capacity -/

omit [Inhabited α] in
theorem capacityFits_iff {cap : Nat} :
    CapacityFits array cap ↔ cap < 2 ^ 30 ∧ ∀ deque ∈ array.store, deque.capacity ≤ max 4 (2 ^ flsl cap) := by
  constructor
  · rintro ⟨capacity, hround, hdeque⟩
    have hle := roundUpCapacity_le hround (Int.natCast_nonneg _)
    have hcap : cap < 2 ^ 30 := by omega
    refine ⟨hcap, fun deque hd => ?_⟩
    rw [roundUpCapacity_of_lt hcap] at hround
    have := hdeque deque hd
    have := Option.some.inj hround
    omega
  · rintro ⟨hcap, hdeque⟩
    exact ⟨_, roundUpCapacity_of_lt hcap, hdeque⟩

/-- `_CFArraySetCapacity` copies no more than the new deque holds, and the values
stay what and where they are. -/
def SetCapacityKeeps (junk : Nat → α) (array : CFArray α) (cap : Nat) : Prop :=
  ∃ array', array.setCapacity junk cap = some array' ∧ array'.values = array.values ∧
    ∀ deque ∈ array'.store, 0 ≤ deque.leftIdx ∧ deque.leftIdx + array'.count ≤ deque.capacity

/-- Two values in eight buckets, where one `_CFArraySetCapacity` leaves them and
another one overruns the new deque. -/
def pair : CFArray Nat := ⟨2, some ⟨3, [0, 0, 0, 1, 2, 0, 0, 0]⟩, none, false, []⟩

theorem pair_reached : Reached (fun _ => 0) none false pair := by
  have hround : roundUpCapacity 6 = some 8 := by
    rw [roundUpCapacity_of_lt (by decide)]
    simp [flsl]
  have h1 : Becomes (fun _ => 0) (CFArray.createMutable 0 none false) ⟨1, some ⟨1, [0, 1, 0, 0]⟩, none, false, []⟩ :=
    ⟨.operation (.appendValue 1), trivial, rfl⟩
  have h2 : Becomes (fun _ => 0) ⟨1, some ⟨1, [0, 1, 0, 0]⟩, none, false, []⟩ pair := by
    refine ⟨.operation (.appendValue 2), trivial, ?_⟩
    simp [Step.run, Operation.run, CFArray.appendValue, CFArray.replaceValues, CFArray.makeGap, CFArray.retaining,
      CFArray.retained, repositionDequeRegions, hround, allocate, reallocate, moveBuckets, readRange, writeRange,
      Deque.capacity, pair]
  exact ⟨0, (Relation.ReflTransGen.single h1).tail h2⟩

/-- Every value was retained as often as it was released and as it is in the
array. -/
def Balanced [DecidableEq α] (array : CFArray α) : Prop :=
  ∀ x, array.log.count (.retain x) = array.log.count (.release x) + array.values.count x

omit [Inhabited α] in
theorem Updates.balanced [DecidableEq α] {l' new old : List α} (h : Holds array l) (hb : Balanced array)
    (hu : Updates array l' new old array') (hperm : (l' ++ old).Perm (l ++ new)) (hretain : array.retain.isSome)
    (hrelease : array.release) : Balanced array' := by
  intro x
  have hx := hb x
  have hp := hperm.count_eq x
  have hretained (vs : List α) : (vs.map Event.retain).count (.retain x) = vs.count x ∧
      (vs.map Event.retain).count (.release x) = 0 :=
    ⟨List.count_map_of_injective vs _ (fun _ _ => Event.retain.inj) x, List.count_eq_zero.mpr (by simp)⟩
  have hreleased (vs : List α) : (vs.map Event.release).count (.release x) = vs.count x ∧
      (vs.map Event.release).count (.retain x) = 0 :=
    ⟨List.count_map_of_injective vs _ (fun _ _ => Event.release.inj) x, List.count_eq_zero.mpr (by simp)⟩
  rw [h.values] at hx
  rw [hu.holds.values, hu.log, if_pos hretain, if_pos hrelease]
  simp only [List.count_append, hretained, hreleased] at hp ⊢
  omega

theorem Reached.balanced [DecidableEq α] {retain : α → α} (h : Reached junk (some retain) true array) :
    Balanced array := by
  obtain ⟨capacity, hrun⟩ := h
  induction hrun with
  | refl => exact fun x => rfl
  | tail hrun hstep ih =>
    obtain ⟨hholds, hretain, hrelease⟩ := Reached.holds ⟨capacity, hrun⟩
    obtain ⟨l', new, old, hu, hperm⟩ := hholds.becomes hstep
    exact hu.balanced hholds ih hperm (by rw [hretain]; rfl) hrelease

/-- In every run with both callbacks, whatever the array retained and did not
release yet is what it has; an operation retains everything that it takes in
before it releases anything; and nothing is left when the array is deallocated.
Operations that leave fewer than `2 ^ 29` values do not fail. -/
theorem run_balanced [DecidableEq α] (retain : α → α) (h : Reached junk (some retain) true array) :
    Balanced array ∧
    (∀ op : Operation α, op.InRange array.values →
      (∀ array' ∈ op.run junk array, array'.log = array.log ++
        (op.taken retain array.values).map .retain ++ (op.dropped array.values).map .release) ∧
      ((op.onList retain array.values).length < 2 ^ 29 → ∃ array', op.run junk array = some array')) ∧
    ∃ array', array.deallocate = some array' ∧ ∀ x, array'.log.count (.retain x) = array'.log.count (.release x) := by
  obtain ⟨hholds, hretain, hrelease⟩ := h.holds
  have hsome : array.retain.isSome := by rw [hretain]; rfl
  have hretained : array.retained = retain := by
    funext value
    rw [CFArray.retained, hretain]
  have hbalanced := h.balanced
  refine ⟨hbalanced, fun op hop => ?_, ?_⟩
  · have hg := op.run_gives junk hholds hop
    rw [hretained] at hg
    refine ⟨fun array' ha => ?_, hg.enough⟩
    rw [(hg.updates array' ha).log, if_pos hsome, if_pos hrelease]
  · obtain ⟨array', hr, -, hu⟩ := releaseAll_spec hholds
    refine ⟨array', hr, fun x => ?_⟩
    have hb := hu.balanced hholds hbalanced (by rw [List.nil_append, List.append_nil]) hsome hrelease x
    rwa [hu.holds.values, List.count_nil, Nat.add_zero] at hb

end Runs

theorem run_balanced_single : ∃ array : CFArray Nat, Reached (fun _ => 0) (some fun value => value) true array ∧
    array.values = [7] ∧ Balanced array := by
  have h : Becomes (fun _ => 0) (CFArray.createMutable 0 (some fun value => value) true)
      ⟨1, some ⟨1, [0, 7, 0, 0]⟩, some fun value => value, true, [.retain 7]⟩ :=
    ⟨.operation (.appendValue 7), trivial, rfl⟩
  have hreached : Reached (fun _ => 0) (some fun value => value) true
      ⟨1, some ⟨1, [0, 7, 0, 0]⟩, some fun value => value, true, [.retain (7 : Nat)]⟩ :=
    ⟨0, Relation.ReflTransGen.single h⟩
  exact ⟨_, hreached, rfl, (run_balanced _ hreached).1⟩

end CFLite.Array
