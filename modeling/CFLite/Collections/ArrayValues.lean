import CFLite.Collections.Deque

/-!
# The values of a `CFArray`

What the operations of a mutable array do to the list of its values and to the
log of its callbacks. The values that the retain callback returns are the ones
that are stored.

* `replaceValues_spec`: a replacement, if there is room for it (`Room`), and
  `replaceValues_none`: it has no result otherwise;
* `Updates`: what an operation did, with `run_updates` in the module of runs.
-/

namespace CFLite.Array

open Framework

variable {α : Type}

/-- The values of `l` are in the deque, from bucket `L` on. -/
structure DequeAt (deque : Deque α) (l : List α) (L : Nat) : Prop where
  leftIdx : deque.leftIdx = L
  room : L + l.length ≤ deque.capacity
  limit : deque.capacity ≤ 2 ^ 30
  get : ∀ k < l.length, deque.buckets[L + k]? = l[k]?

/-- The array has the values `l`. -/
structure Holds (array : CFArray α) (l : List α) : Prop where
  count : array.count = l.length
  store : ∀ deque ∈ array.store, ∃ L, DequeAt deque l L
  empty : array.store = none → l = []

section Deque

variable {deque : Deque α} {l : List α} {L : Nat}

theorem DequeAt.gap (h : DequeAt deque l L) {location length : Nat} (hrange : location + length ≤ l.length) :
    Gap deque l location length length L where
  leftIdx := h.leftIdx
  room := by have := h.room; omega
  limit := h.limit
  front k hk := h.get k (by omega)
  back k hk := by rw [← h.get _ (by omega)]; congr 1; omega

theorem DequeAt.read (h : DequeAt deque l L) {i n : Nat} (hi : i + n ≤ l.length) :
    readRange deque.buckets (deque.leftIdx + i) n = some ((l.drop i).take n) := by
  have hroom := h.room
  rw [Deque.capacity] at hroom
  rw [h.leftIdx, ← Int.natCast_add, readRange_eq (by omega)]
  refine congrArg some (List.ext_getElem? fun k => ?_)
  rw [List.getElem?_take, List.getElem?_take, List.getElem?_drop, List.getElem?_drop]
  split
  · rw [Nat.add_assoc, h.get _ (by omega)]
  · rfl

/-- Values stored over old ones. -/
theorem DequeAt.write (h : DequeAt deque l L) {i : Nat} (vs : List α) (hi : i + vs.length ≤ l.length) :
    ∃ buckets, writeRange deque.buckets (deque.leftIdx + i) vs = some buckets ∧
      DequeAt { deque with buckets } (l.take i ++ vs ++ l.drop (i + vs.length)) L := by
  have hroom := h.room
  have hlimit := h.limit
  rw [Deque.capacity] at hroom hlimit
  have hfits : L + i + vs.length ≤ deque.buckets.length := by omega
  have hwrite : writeRange deque.buckets (deque.leftIdx + i) vs =
      some (deque.buckets.take (L + i) ++ vs ++ deque.buckets.drop (L + i + vs.length)) := by
    rw [h.leftIdx, ← Int.natCast_add, writeRange_eq hfits]
  refine ⟨_, hwrite, h.leftIdx, ?_, ?_, fun k hk => ?_⟩
  · rw [Deque.capacity, length_written hfits, length_written hi]
    exact hroom
  · rw [Deque.capacity, length_written hfits]
    exact hlimit
  · rw [length_written hi] at hk
    rw [getElem?_written hfits, getElem?_written hi]
    by_cases hin : i ≤ k ∧ k < i + vs.length
    · rw [if_pos (by omega), if_pos hin]
      congr 1
      omega
    · rw [if_neg (by omega), if_neg hin, h.get k hk]

/-- New values stored in the gap. -/
theorem Gap.fill {location length : Nat} {vs : List α} (h : Gap deque l location length vs.length L)
    (hrange : location + length ≤ l.length) :
    ∃ buckets, (if 0 < vs.length then writeRange deque.buckets (deque.leftIdx + location) vs else some deque.buckets) =
        some buckets ∧
      DequeAt { deque with buckets } (l.take location ++ vs ++ l.drop (location + length)) L := by
  obtain ⟨hleft, hroom, hlimit, hfront, hback⟩ := h
  rw [Deque.capacity] at hroom hlimit
  have hfits : L + location + vs.length ≤ deque.buckets.length := by omega
  have hlen : (l.take location ++ vs ++ l.drop (location + length)).length = l.length - length + vs.length := by
    simp only [List.length_append, List.length_take, List.length_drop]
    omega
  obtain ⟨buckets, hwrite, hlength, hget⟩ : ∃ buckets,
      (if 0 < vs.length then writeRange deque.buckets (deque.leftIdx + location) vs else some deque.buckets) =
        some buckets ∧ buckets.length = deque.buckets.length ∧
      ∀ k, buckets[k]? = if L + location ≤ k ∧ k < L + location + vs.length then vs[k - (L + location)]?
        else deque.buckets[k]? := by
    split
    · exact ⟨_, by rw [hleft, ← Int.natCast_add, writeRange_eq hfits], length_written hfits, getElem?_written hfits⟩
    · exact ⟨_, rfl, rfl, fun k => by rw [if_neg (by omega)]⟩
  refine ⟨buckets, hwrite, hleft, ?_, ?_, fun k hk => ?_⟩
  · rw [Deque.capacity, hlen, hlength]
    exact hroom
  · rw [Deque.capacity, hlength]
    exact hlimit
  · rw [hlen] at hk
    show buckets[L + k]? = _
    rw [hget, List.append_assoc, List.getElem?_append, List.length_take, min_eq_left (by omega), List.getElem?_append]
    by_cases hbefore : k < location
    · rw [if_neg (by omega), if_pos hbefore, List.getElem?_take_of_lt hbefore, hfront k hbefore]
    rw [if_neg hbefore]
    by_cases hin : k < location + vs.length
    · rw [if_pos (by omega), if_pos (by omega)]
      congr 1
      omega
    · rw [if_neg (by omega), if_neg (by omega), List.getElem?_drop, ← hback _ (by omega)]
      congr 1
      omega

end Deque

/-! ## What an operation did -/

/-- What the array keeps and what it adds to its log when it takes `new` in and
lets `old` go. -/
structure Updates (array : CFArray α) (l new old : List α) (array' : CFArray α) : Prop where
  holds : Holds array' l
  retain : array'.retain = array.retain
  release : array'.release = array.release
  log : array'.log = array.log ++ (if array.retain.isSome then new.map .retain else []) ++
    (if array.release then old.map .release else [])

section Replace

variable [Inhabited α] (junk : Nat → α) {array : CFArray α} {l : List α} {location length : Nat}

/-- The released part of a range. -/
theorem releaseValues_gap {deque : Deque α} {L : Nat} (array : CFArray α) (hstore : array.store = some deque) (h : DequeAt deque l L)
    (hrange : location + length ≤ l.length) :
    ∃ deque', (if 0 < length then array.releaseValues location length false else some array) = some
        { array with
          store := some deque'
          log := if array.release then array.log ++ ((l.drop location).take length).map .release else array.log } ∧
      deque'.leftIdx = deque.leftIdx ∧ deque'.capacity = deque.capacity ∧ Gap deque' l location length length L := by
  split
  · rename_i hpos
    have hlen : (List.replicate length (default : α)).length = length := List.length_replicate
    obtain ⟨buckets, hwrite, hat⟩ := h.write (i := location) (List.replicate length default)
      (by rw [hlen]; exact hrange)
    have hcap : buckets.length = deque.buckets.length := by
      have := (writeRange_eq_some hwrite).2.2
      rw [h.leftIdx, ← Int.natCast_add, Int.toNat_natCast] at this
      rw [this, length_written (by have := h.room; unfold Deque.capacity at this; rw [hlen]; omega)]
    refine ⟨{ deque with buckets }, ?_, rfl, hcap, hat.leftIdx, ?_, hat.limit, fun k hk => ?_, fun k hk => ?_⟩
    · simp only [CFArray.releaseValues, hstore, hpos, if_true, h.read hrange, hwrite, Option.bind_eq_bind,
        Option.bind_some, Bool.false_eq_true, false_and, if_false]
      rfl
    · have := hat.room
      rw [length_written (by rw [hlen]; exact hrange)] at this
      omega
    · rw [hat.get k (by rw [length_written (by rw [hlen]; exact hrange)]; omega),
        getElem?_written (by rw [hlen]; exact hrange), if_neg (by omega)]
    · have hk' := hat.get (location + length + k) (by rw [length_written (by rw [hlen]; exact hrange)]; omega)
      rw [getElem?_written (by rw [hlen]; exact hrange), if_neg (by rw [hlen]; omega)] at hk'
      rw [← hk']
      congr 1
      omega
  · rename_i hzero
    refine ⟨deque, ?_, rfl, rfl, h.gap hrange⟩
    rw [show length = 0 by omega, List.take_zero, List.map_nil, List.append_nil, ite_self, ← hstore]

/-- There is room for `newCount` values in place of `length`. -/
def Room (array : CFArray α) (length newCount : Nat) : Prop :=
  match array.store with
  | none => ∃ capacity, roundUpCapacity (array.count - length + newCount) = some capacity ∧ 0 ≤ capacity
  | some deque => length = newCount ∨ Fits deque.capacity array.count (array.count - length + newCount)

omit [Inhabited α] in
theorem length_replaced (hrange : location + length ≤ l.length) (vs : List α) :
    (l.take location ++ vs ++ l.drop (location + length)).length = l.length - length + vs.length := by
  simp only [List.length_append, List.length_take, List.length_drop]
  omega

omit [Inhabited α] in
theorem retaining_eq (array : CFArray α) (values : List α) : array.retaining values =
    { array with log := array.log ++ if array.retain.isSome then values.map .retain else [] } := by
  rw [CFArray.retaining]
  split
  · rfl
  · rw [List.append_nil]

/-- The array after `retaining` and the release of the range. -/
structure Released (array : CFArray α) (l new : List α) (location length : Nat) (array' : CFArray α) : Prop where
  count : array'.count = array.count
  retain : array'.retain = array.retain
  release : array'.release = array.release
  log : array'.log = array.log ++ (if array.retain.isSome then new.map .retain else []) ++
    (if array.release then ((l.drop location).take length).map .release else [])
  empty : array.store = none → array'.store = none
  store : ∀ deque ∈ array.store, ∃ deque' L, array'.store = some deque' ∧ deque'.capacity = deque.capacity ∧
    Gap deque' l location length length L

theorem releaseValues_released (h : Holds array l) (hrange : location + length ≤ l.length) (new : List α) :
    ∃ array', (if 0 < length then (array.retaining new).releaseValues location length false
      else some (array.retaining new)) = some array' ∧ Released array l new location length array' := by
  rw [retaining_eq]
  rcases hstore : array.store with _ | deque
  · have hzero : length = 0 := by
      have := h.empty hstore
      rw [this] at hrange
      exact Nat.eq_zero_of_add_eq_zero_left (Nat.le_zero.mp hrange)
    subst hzero
    refine ⟨_, if_neg (lt_irrefl 0), rfl, rfl, rfl, ?_, fun _ => rfl, fun deque hd => ?_⟩
    · simp
    · rw [hstore] at hd
      cases hd
  · obtain ⟨L, hat⟩ := h.store deque hstore
    have hrelease := releaseValues_gap
      { array with
        store := some deque
        log := array.log ++ if array.retain.isSome then new.map .retain else [] } rfl hat hrange
    obtain ⟨deque', hrelease, -, hcap, hgap⟩ := hrelease
    refine ⟨_, hrelease, rfl, rfl, rfl, ?_, fun hnone => ?_, fun d hd => ?_⟩
    · dsimp only
      split <;> simp
    · rw [hstore] at hnone
      cases hnone
    · rw [hstore] at hd
      obtain rfl := Option.some.inj hd
      exact ⟨deque', L, rfl, hcap, hgap⟩

/-- The gap for the new values, if there is room. -/
theorem makeGap_spec (h : Holds array l) (hrange : location + length ≤ l.length) {new : List α} {newCount : Nat}
    {array' : CFArray α} (hr : Released array l new location length array') (hroom : Room array length newCount) :
    ∃ deque L, array'.makeGap junk location length newCount = some deque ∧ Gap deque l location length newCount L := by
  unfold Room at hroom
  rw [CFArray.makeGap, hr.count]
  cases hstore : array.store with
  | none =>
    rw [hstore] at hroom
    rw [hr.empty hstore]
    obtain ⟨capacity, hround, hpos⟩ := hroom
    have hnil := h.empty hstore
    have hcount : array.count = 0 := by rw [h.count, hnil]; rfl
    obtain ⟨rfl, rfl⟩ : location = 0 ∧ length = 0 := by rw [hnil] at hrange; simp at hrange; omega
    obtain ⟨hlt, hle⟩ := roundUpCapacity_le hround hpos
    obtain ⟨c, rfl⟩ := Int.eq_ofNat_of_zero_le hpos
    have hhalf : ((c : Int) - newCount).tdiv 2 = ((c - newCount) / 2 : Nat) := by
      rw [← Int.ofNat_sub (by omega)]
      exact tdiv_two _
    refine ⟨⟨((c : Int) - newCount).tdiv 2, reallocate junk [] c⟩, (c - newCount) / 2, ?_, hhalf, ?_, ?_,
      fun k hk => absurd hk (Nat.not_lt_zero k), fun k hk => ?_⟩
    · simp only [hround, allocate_eq junk hpos, Option.bind_eq_bind, Option.bind_some, Int.toNat_natCast]
      rfl
    · rw [Deque.capacity, length_reallocate, hnil]
      simp only [List.length_nil]
      omega
    · rw [Deque.capacity, length_reallocate]
      omega
    · rw [hnil] at hk
      exact absurd hk (Nat.not_lt_zero k)
  | some deque =>
    rw [hstore] at hroom
    obtain ⟨deque₁, L, hstore₁, hcap, hgap⟩ := hr.store deque hstore
    rw [hstore₁]
    dsimp only
    split
    · rename_i hne
      have hfits := hroom.resolve_left hne
      rw [h.count, ← hcap] at hfits
      rw [h.count]
      exact reposition_spec hgap hrange hfits
    · rename_i heq
      exact ⟨deque₁, L, rfl, by rw [← not_not.mp heq]; exact hgap⟩

theorem replaceValues_spec (newValues : List α) (h : Holds array l) (hrange : location + length ≤ l.length)
    (hroom : Room array length newValues.length) :
    ∃ array', array.replaceValues junk location length newValues = some array' ∧
      Updates array (l.take location ++ newValues.map array.retained ++ l.drop (location + length))
        (newValues.map array.retained) ((l.drop location).take length) array' := by
  obtain ⟨array₂, hrelease, hr⟩ := releaseValues_released h hrange (newValues.map array.retained)
  obtain ⟨deque, L, hdeque, hgap⟩ := makeGap_spec junk h hrange hr hroom
  have hmap : (newValues.map array.retained).length = newValues.length := List.length_map _
  rw [← hmap] at hgap
  obtain ⟨buckets, hwrite, hat⟩ := hgap.fill hrange
  rw [hmap] at hwrite
  refine ⟨{ array₂ with
      count := array.count - length + newValues.length
      store := some { deque with buckets } }, ?_,
    ⟨?_, fun d hd => ?_, fun hnone => by cases hnone⟩, hr.retain, hr.release, hr.log⟩
  · simp only [CFArray.replaceValues, hrelease, hdeque, hwrite, Option.bind_eq_bind, Option.bind_some]
    rfl
  · rw [length_replaced hrange, h.count, hmap]
  · obtain rfl := Option.some.inj hd
    exact ⟨L, hat⟩

theorem replaceValues_none {newValues : List α} (h : Holds array l) (hrange : location + length ≤ l.length)
    (hroom : ¬ Room array length newValues.length) : array.replaceValues junk location length newValues = none := by
  obtain ⟨array₂, hrelease, hr⟩ := releaseValues_released h hrange (newValues.map array.retained)
  simp only [CFArray.replaceValues, hrelease, Option.bind_eq_bind, Option.bind_some]
  unfold Room at hroom
  rw [CFArray.makeGap, hr.count]
  cases hstore : array.store with
  | none =>
    rw [hstore] at hroom
    rw [hr.empty hstore]
    dsimp only
    cases hround : roundUpCapacity (array.count - length + newValues.length) with
    | none => rfl
    | some capacity =>
      have hneg : ¬ 0 ≤ capacity := fun hpos => hroom ⟨capacity, hround, hpos⟩
      simp only [allocate, if_neg hneg, Option.bind_eq_bind, Option.bind_some, Option.bind_none]
  | some deque =>
    rw [hstore] at hroom
    obtain ⟨deque₁, L, hstore₁, hcap, hgap⟩ := hr.store deque hstore
    rw [hstore₁]
    dsimp only
    rw [not_or] at hroom
    rw [if_pos hroom.1, h.count]
    have hfits := hroom.2
    rw [h.count, ← hcap] at hfits
    cases hrepos : repositionDequeRegions junk deque₁ l.length location length newValues.length with
    | none => rfl
    | some deque₂ =>
      obtain ⟨rfl, hneg⟩ := reposition_stuck hgap hfits hrepos
      have hpos : 0 < newValues.length := by
        by_contra hzero
        refine hfits (.inr ⟨?_, ?_⟩)
        · have := hgap.room
          have := hgap.limit
          omega
        · have := hgap.room
          omega
      have hwrite : writeRange deque₂.buckets (deque₂.leftIdx + (0 : Nat)) (newValues.map array.retained) = none := by
        rw [writeRange, if_neg (by omega)]
      simp only [if_pos hpos, hwrite, Option.bind_some, Option.bind_none]

end Replace

end CFLite.Array
