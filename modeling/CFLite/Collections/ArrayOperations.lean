import CFLite.Collections.ArrayValues
import Mathlib.Data.List.TakeDrop

/-!
# The operations of a `CFArray`

One lemma for each operation, which says what becomes of the values, what the
callbacks are called with, and that there is a result where the array stays below
`2 ^ 29` values.

* `Gives`: what an operation does that may run out of room;
* `setCapacity_spec`, `setCapacity_fits`: a change of the capacity, and when there
  is one.
-/

namespace CFLite.Array

open Framework

variable {α : Type}

/-- Every result comes with the values `l` for the array, with `new` taken in and
`old` let go. A short list is reached. -/
structure Gives (array : CFArray α) (l new old : List α) (result : Option (CFArray α)) : Prop where
  updates : ∀ array' ∈ result, Updates array l new old array'
  enough : l.length < 2 ^ 29 → ∃ array', result = some array'

theorem Updates.gives {array array' : CFArray α} {l new old : List α} (h : Updates array l new old array') :
    Gives array l new old (some array') :=
  ⟨fun _ ha => by rwa [← Option.some.inj ha], fun _ => ⟨array', rfl⟩⟩

theorem Updates.retained {array array' : CFArray α} {l new old : List α} (h : Updates array l new old array') :
    array'.retained = array.retained := by
  funext value
  rw [CFArray.retained, CFArray.retained, h.retain]

theorem Holds.updates {array : CFArray α} {l : List α} (h : Holds array l) : Updates array l [] [] array :=
  ⟨h, rfl, rfl, by simp only [List.map_nil, ite_self, List.append_nil]⟩

/-- Values taken in by one operation and then by another. -/
theorem Updates.trans {array array₁ array₂ : CFArray α} {l₁ l₂ new₁ new₂ : List α}
    (h₁ : Updates array l₁ new₁ [] array₁) (h₂ : Updates array₁ l₂ new₂ [] array₂) :
    Updates array l₂ (new₁ ++ new₂) [] array₂ := by
  refine ⟨h₂.holds, h₂.retain.trans h₁.retain, h₂.release.trans h₁.release, ?_⟩
  rw [h₂.log, h₁.log, h₁.retain, h₁.release, List.map_append]
  split <;> simp

theorem createMutable_holds (capacity : Nat) (retain : Option (α → α)) (release : Bool) :
    Holds (CFArray.createMutable capacity retain release) [] :=
  ⟨rfl, fun _ hd => (Option.not_mem_none _ hd).elim, fun _ => rfl⟩

section Queries

variable {array : CFArray α} {l : List α}

/-- The values start at a bucket of the store. -/
theorem Holds.room (h : Holds array l) :
    ∀ deque ∈ array.store, 0 ≤ deque.leftIdx ∧ deque.leftIdx + array.count ≤ deque.capacity := by
  intro deque hd
  obtain ⟨L, hat⟩ := h.store deque hd
  have := hat.room
  rw [hat.leftIdx, h.count]
  omega

theorem Holds.getValues (h : Holds array l) {location length : Nat} (hrange : location + length ≤ l.length) :
    array.getValues location length = some ((l.drop location).take length) := by
  rw [CFArray.getValues]
  split
  · cases hstore : array.store with
    | none =>
      rw [h.empty hstore] at hrange
      simp only [List.length_nil] at hrange
      omega
    | some deque =>
      obtain ⟨L, hat⟩ := h.store deque hstore
      exact hat.read hrange
  · rw [show length = 0 by omega, List.take_zero]

theorem Holds.getValueAtIndex (h : Holds array l) {idx : Nat} (hidx : idx < l.length) :
    array.getValueAtIndex idx = l[idx]? := by
  have hget : array.getValues idx 1 = some ((l.drop idx).take 1) := h.getValues (by omega)
  rw [CFArray.getValues, if_pos Nat.one_pos] at hget
  obtain ⟨deque, hstore, hread⟩ := Option.bind_eq_some_iff.mp hget
  simp only [CFArray.getValueAtIndex, hstore, hread, Option.bind_eq_bind, Option.bind_some]
  rw [List.getElem?_take_of_lt Nat.one_pos, List.getElem?_drop, Nat.add_zero]

/-- Values stored over old ones, without a callback. -/
theorem Holds.write (h : Holds array l) {i : Nat} (vs : List α) (hi : i + vs.length ≤ l.length) (hvs : 0 < vs.length) :
    ∃ deque buckets, array.store = some deque ∧ writeRange deque.buckets (deque.leftIdx + i) vs = some buckets ∧
      Holds { array with store := some { deque with buckets } } (l.take i ++ vs ++ l.drop (i + vs.length)) := by
  cases hstore : array.store with
  | none =>
    rw [h.empty hstore] at hi
    simp only [List.length_nil] at hi
    omega
  | some deque =>
    obtain ⟨L, hat⟩ := h.store deque hstore
    obtain ⟨buckets, hwrite, hat'⟩ := hat.write vs hi
    refine ⟨deque, buckets, rfl, hwrite, ?_, fun d hd => ?_, fun hnone => by cases hnone⟩
    · rw [h.count, length_written hi]
    · rw [← Option.some.inj hd]
      exact ⟨L, hat'⟩

theorem Holds.set (h : Holds array l) {i : Nat} (hi : i < l.length) (value : α) :
    ∃ deque buckets, array.store = some deque ∧ writeRange deque.buckets (deque.leftIdx + i) [value] = some buckets ∧
      Holds { array with store := some { deque with buckets } } (l.set i value) := by
  have hw := h.write (i := i) [value] hi Nat.one_pos
  rwa [List.length_singleton, List.append_assoc, List.singleton_append,
    show l.take i ++ value :: l.drop (i + 1) = l.set i value by rw [List.set_eq_take_append_cons_drop, if_pos hi]] at hw

end Queries

section Operations

variable [Inhabited α] (junk : Nat → α) {array : CFArray α} {l : List α} {location length idx : Nat} (value : α)

omit [Inhabited α] in
theorem Holds.room_of_lt (h : Holds array l) {newCount : Nat} (hlt : l.length - length + newCount < 2 ^ 29) :
    Room array length newCount := by
  rw [Room]
  cases hstore : array.store with
  | none =>
    rw [h.count]
    exact roundUpCapacity_eq (by omega)
  | some deque =>
    obtain ⟨L, hat⟩ := h.store deque hstore
    have hlimit := hat.limit
    rw [h.count]
    exact .inr (.inl (roundUpCapacity_eq (by omega)))

theorem replaceValues_gives (newValues : List α) (h : Holds array l) (hrange : location + length ≤ l.length) :
    Gives array (l.take location ++ newValues.map array.retained ++ l.drop (location + length))
      (newValues.map array.retained) ((l.drop location).take length)
      (array.replaceValues junk location length newValues) := by
  by_cases hroom : Room array length newValues.length
  · obtain ⟨array', hr, hu⟩ := replaceValues_spec junk newValues h hrange hroom
    rw [hr]
    exact hu.gives
  · refine ⟨fun array' ha => ?_, fun hlt => absurd (h.room_of_lt ?_) hroom⟩
    · rw [replaceValues_none junk h hrange hroom] at ha
      cases ha
    · rwa [length_replaced hrange, List.length_map] at hlt

omit [Inhabited α] in
theorem insertIdx_eq_append {l : List α} {idx : Nat} (h : idx ≤ l.length) (value : α) :
    l.insertIdx idx value = l.take idx ++ [value] ++ l.drop idx := by
  rw [List.append_cons, List.append_nil]
  induction idx generalizing l with
  | zero => rfl
  | succ idx ih =>
    cases l with
    | nil => exact absurd h (Nat.not_succ_le_zero idx)
    | cons a l => rw [List.insertIdx_succ_cons, ih (Nat.le_of_succ_le_succ h)]; rfl

theorem insertValueAtIndex_gives (h : Holds array l) (hidx : idx ≤ l.length) :
    Gives array (l.insertIdx idx (array.retained value)) [array.retained value] []
      (array.insertValueAtIndex junk idx value) := by
  have hr := replaceValues_gives junk [value] h (show idx + 0 ≤ l.length from hidx)
  rw [List.take_zero, Nat.add_zero] at hr
  rwa [insertIdx_eq_append hidx]

theorem appendValue_gives (h : Holds array l) :
    Gives array (l ++ [array.retained value]) [array.retained value] [] (array.appendValue junk value) := by
  have hr := replaceValues_gives junk [value] h (show l.length + 0 ≤ l.length from le_rfl)
  rw [List.take_zero, Nat.add_zero, List.take_length, List.drop_length, List.append_nil] at hr
  rwa [CFArray.appendValue, h.count]

theorem removeValueAtIndex_gives (h : Holds array l) (hidx : idx < l.length) :
    Gives array (l.eraseIdx idx) [] [l[idx]] (array.removeValueAtIndex junk idx) := by
  have hr := replaceValues_gives junk [] h (show idx + 1 ≤ l.length from hidx)
  rwa [List.map_nil, List.append_nil, ← List.eraseIdx_eq_take_drop_succ, List.take_one_drop_eq_of_lt_length] at hr

/-- The new value is retained before the old one is released. -/
theorem setValueAtIndex_gives (h : Holds array l) (hidx : idx ≤ l.length) :
    Gives array (l.take idx ++ [array.retained value] ++ l.drop (idx + 1)) [array.retained value]
      ((l.drop idx).take 1) (array.setValueAtIndex junk idx value) := by
  rw [CFArray.setValueAtIndex]
  split
  · rename_i hend
    rw [hend, h.count, List.take_length, List.drop_length, List.drop_of_length_le (Nat.le_succ _), List.append_nil]
    have ha := appendValue_gives junk value h
    rwa [CFArray.appendValue, h.count] at ha
  · rename_i hne
    rw [h.count] at hne
    have hlt : idx < l.length := by omega
    obtain ⟨deque, buckets, hstore, hwrite, hholds⟩ := h.write (i := idx) [array.retained value] hlt Nat.one_pos
    simp only [h.getValueAtIndex hlt, List.getElem?_eq_getElem hlt, hstore, hwrite, Option.bind_eq_bind, Option.bind_some]
    refine Updates.gives ⟨⟨hholds.count, hholds.store, hholds.empty⟩, rfl, rfl, ?_⟩
    rw [List.take_one_drop_eq_of_lt_length hlt]
    dsimp only
    split <;> split <;> simp

omit [Inhabited α] in
/-- An exchange calls no callback. -/
theorem exchangeValuesAtIndices_spec (h : Holds array l) {idx1 idx2 : Nat} (h1 : idx1 < l.length) (h2 : idx2 < l.length) :
    ∃ array', array.exchangeValuesAtIndices idx1 idx2 = some array' ∧
      Updates array ((l.set idx1 l[idx2]).set idx2 l[idx1]) [] [] array' := by
  obtain ⟨deque, buckets, hstore, hwrite, hholds⟩ := h.set h1 l[idx2]
  have h2' : idx2 < (l.set idx1 l[idx2]).length := by rwa [List.length_set]
  obtain ⟨deque', buckets', hstore', hwrite', hholds'⟩ := hholds.set h2' l[idx1]
  obtain rfl := Option.some.inj hstore'
  refine ⟨{ array with store := some { deque with buckets := buckets' } }, ?_,
    ⟨hholds'.count, hholds'.store, hholds'.empty⟩, rfl, rfl, ?_⟩
  · simp only [CFArray.exchangeValuesAtIndices, h.getValueAtIndex h1, h.getValueAtIndex h2,
      List.getElem?_eq_getElem h1, List.getElem?_eq_getElem h2, hstore, hwrite, hwrite', Option.bind_eq_bind,
      Option.bind_some]
    rfl
  · simp only [List.map_nil, ite_self, List.append_nil]

/-- Everything is let go, and the store with it. -/
theorem releaseAll_spec (h : Holds array l) :
    ∃ array', array.releaseValues 0 array.count true = some array' ∧ array'.count = 0 ∧ Updates array [] [] l array' := by
  have hall : (l.drop 0).take l.length = l := List.take_length
  have hlog (log : List (Event α)) (h : log = if array.release then array.log ++ l.map .release else array.log) :
      log = array.log ++ (if array.retain.isSome then ([] : List α).map .retain else []) ++
        (if array.release then l.map .release else []) := by
    rw [h, List.map_nil, ite_self, List.append_nil]
    split
    · rfl
    · rw [List.append_nil]
  cases hstore : array.store with
  | none =>
    have hnil := h.empty hstore
    refine ⟨{ array with count := 0, store := none }, ?_, rfl,
      ⟨rfl, fun d hd => (Option.not_mem_none d hd).elim, fun _ => rfl⟩, rfl, rfl, hlog _ ?_⟩
    · simp only [CFArray.releaseValues, hstore, Option.bind_eq_bind, Option.bind_some, and_self, if_true]
      rfl
    · rw [hnil, List.map_nil, List.append_nil, ite_self]
  | some deque =>
    obtain ⟨L, hat⟩ := h.store deque hstore
    have hread := hat.read (i := 0) (n := l.length) (by omega)
    obtain ⟨buckets, hwrite, -⟩ := hat.write (i := 0) (List.replicate l.length default) (by simp)
    rw [hall] at hread
    refine ⟨{ array with
        count := 0
        store := none
        log := if array.release then array.log ++ l.map .release else array.log }, ?_, rfl,
      ⟨rfl, fun d hd => (Option.not_mem_none d hd).elim, fun _ => rfl⟩, rfl, rfl, hlog _ rfl⟩
    simp only [CFArray.releaseValues, hstore, h.count, hread, hwrite, Option.bind_eq_bind, Option.bind_some]
    split
    · exact if_pos ⟨trivial, trivial, rfl⟩
    · have hnil : l = [] := List.length_eq_zero_iff.mp (by omega)
      subst hnil
      rw [Option.bind_some, if_pos ⟨trivial, trivial, h.count⟩, List.map_nil, List.append_nil, ite_self]
      rfl

/-- What `CFArrayAppendArray` reads of the other array, or of the array itself,
which grows meanwhile. -/
def Source (otherArray : Option (CFArray α)) (l m : List α) : Prop :=
  match otherArray with
  | some other => Holds other m
  | none => m <+: l

theorem appendArray_gives (otherArray : Option (CFArray α)) {m : List α} (h : Holds array l)
    (hsource : Source otherArray l m) (hrange : idx + length ≤ m.length) :
    Gives array (l ++ ((m.drop idx).take length).map array.retained) (((m.drop idx).take length).map array.retained) []
      (array.appendArray junk otherArray length idx) := by
  induction length generalizing array l idx with
  | zero =>
    rw [List.take_zero, List.map_nil, List.append_nil]
    exact h.updates.gives
  | succ length ih =>
    have hidx : idx < m.length := by omega
    have hread : (otherArray.getD array).getValueAtIndex idx = m[idx]? := by
      cases otherArray with
      | some other => exact Holds.getValueAtIndex hsource hidx
      | none =>
        obtain ⟨t, rfl⟩ := hsource
        rw [Option.getD_none, h.getValueAtIndex (by rw [List.length_append]; omega), List.getElem?_append_left hidx]
    have hslice : (m.drop idx).take (length + 1) = m[idx] :: (m.drop (idx + 1)).take length := by
      rw [List.drop_eq_getElem_cons hidx, List.take_succ_cons]
    have happend := appendValue_gives junk m[idx] h
    simp only [CFArray.appendArray, hread, List.getElem?_eq_getElem hidx, Option.bind_eq_bind, Option.bind_some]
    rw [hslice, List.map_cons, List.append_cons]
    have hnext {array' : CFArray α} (hu : Updates array (l ++ [array.retained m[idx]]) [array.retained m[idx]] [] array') :
        Gives array' (l ++ [array.retained m[idx]] ++ ((m.drop (idx + 1)).take length).map array.retained)
          (((m.drop (idx + 1)).take length).map array.retained) [] (array'.appendArray junk otherArray length (idx + 1)) := by
      have hsource' : Source otherArray (l ++ [array.retained m[idx]]) m := by
        cases otherArray with
        | some other => exact hsource
        | none => exact List.IsPrefix.trans hsource (List.prefix_append _ _)
      have hrest := ih hu.holds hsource' (show idx + 1 + length ≤ m.length by omega)
      rwa [hu.retained] at hrest
    refine ⟨fun array' ha => ?_, fun hlt => ?_⟩
    · obtain ⟨array₁, happ, ha⟩ := Option.bind_eq_some_iff.mp ha
      have hu := happend.updates array₁ happ
      exact hu.trans ((hnext hu).updates array' ha)
    · obtain ⟨array₁, happ⟩ := happend.enough (by rw [List.length_append] at hlt; omega)
      rw [happ, Option.bind_some]
      exact (hnext (happend.updates array₁ happ)).enough hlt

end Operations

section Capacity

variable (junk : Nat → α) {array : CFArray α} {l : List α} {cap : Nat}

/-- The old deque fits into a new one for `cap` values, which there is. -/
def CapacityFits (array : CFArray α) (cap : Nat) : Prop :=
  ∃ capacity : Nat, roundUpCapacity cap = some (capacity : Int) ∧ ∀ deque ∈ array.store, deque.capacity ≤ capacity

theorem setCapacity_spec (h : Holds array l) (hfits : CapacityFits array cap) :
    ∃ array', array.setCapacity junk cap = some array' ∧ Updates array l [] [] array' := by
  obtain ⟨capacity, hround, hdeque⟩ := hfits
  have hlimit := (roundUpCapacity_le hround (Int.natCast_nonneg _)).2
  simp only [CFArray.setCapacity, hround, allocate_eq junk (Int.natCast_nonneg capacity), Option.bind_eq_bind,
    Option.bind_some, Int.toNat_natCast]
  have hlog : array.log = array.log ++ (if array.retain.isSome then ([] : List α).map .retain else []) ++
      (if array.release then ([] : List α).map .release else []) := by
    simp only [List.map_nil, ite_self, List.append_nil]
  cases hstore : array.store with
  | none =>
    refine ⟨_, rfl, ⟨h.count, fun d hd => ?_, fun hnone => by cases hnone⟩, rfl, rfl, hlog⟩
    rw [h.empty hstore, ← Option.some.inj hd]
    refine ⟨capacity / 2, tdiv_two _, ?_, ?_, fun k hk => absurd hk (Nat.not_lt_zero k)⟩
    · rw [Deque.capacity, length_reallocate]
      simp only [List.length_nil]
      omega
    · rw [Deque.capacity, length_reallocate]
      omega
  | some deque =>
    obtain ⟨L, hat⟩ := h.store deque hstore
    have hle := hdeque deque hstore
    have hroom := hat.room
    have hfits : 0 + deque.buckets.length ≤ (reallocate junk [] capacity).length := by
      rw [length_reallocate, Nat.zero_add]
      exact hle
    have hwrite := writeRange_eq hfits
    simp only [Nat.cast_zero] at hwrite
    simp only [hwrite, Option.bind_some]
    refine ⟨_, rfl, ⟨h.count, fun d hd => ?_, fun hnone => by cases hnone⟩, rfl, rfl, hlog⟩
    rw [← Option.some.inj hd]
    refine ⟨L, hat.leftIdx, ?_, ?_, fun k hk => ?_⟩
    · rw [Deque.capacity, length_written hfits, length_reallocate]
      omega
    · rw [Deque.capacity, length_written hfits, length_reallocate]
      omega
    · rw [getElem?_written hfits, if_pos (by rw [Deque.capacity] at hroom; omega), ← hat.get k hk, Nat.sub_zero]

variable {junk} in
theorem setCapacity_fits {array' : CFArray α} (hset : array.setCapacity junk cap = some array') :
    CapacityFits array cap := by
  obtain ⟨capacity, hround, hset⟩ := Option.bind_eq_some_iff.mp hset
  obtain ⟨buckets, halloc, hset⟩ := Option.bind_eq_some_iff.mp hset
  rw [allocate] at halloc
  split at halloc
  · rename_i hpos
    obtain ⟨c, rfl⟩ := Int.eq_ofNat_of_zero_le hpos
    refine ⟨c, hround, fun deque hd => ?_⟩
    rw [hd] at hset
    obtain ⟨buckets', hwrite, -⟩ := Option.bind_eq_some_iff.mp hset
    have hfits := (writeRange_eq_some hwrite).2.1
    rw [← Option.some.inj halloc, length_reallocate] at hfits
    rw [zero_add] at hfits
    exact_mod_cast hfits
  · cases halloc

end Capacity

end CFLite.Array
