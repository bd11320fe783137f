import CFLite.Collections.BasicHashItems

/-!
# Enumeration of a `CFBasicHash`

`CFBasicHashGetElements` and `__CFBasicHashFastEnumeration` run over the buckets and
stop early once they have met as many live ones as the table has. A call of the
second one goes on at the bucket where the call before it stopped, with the
countdown from the start.

* `Holds.getBucket_live`, `Holds.getBucket_free`: what a bucket gives;
* `fastEnumeration_spec`: one call gives the next keys, at least one if there are
  any;
* `batches_spec`: any calls that are repeated until one gives nothing give every
  key once;
* `getElements_spec`: the buffers get the first entries, each as often as it
  counts.
-/

namespace CFLite.BasicHash

open Framework

/-! ## The code -/

/-- The buffers of `CFBasicHashGetElements`, `none` for a null pointer, and the
number of elements stored so far. -/
structure Elements where
  offset : Nat
  weakValues : Option (List Word)
  weakKeys : Option (List Word)
  deriving DecidableEq

/-- One element stored at `offset`. -/
def Elements.store (elements : Elements) (bkt : Bucket) : Elements :=
  ⟨elements.offset + 1, elements.weakValues.map (· ++ [bkt.weakValue]), elements.weakKeys.map (· ++ [bkt.weakKey])⟩

/-- `for (cnt = bkt.count; cnt-- && offset < bufferslen;)` -/
def storeRepeated (bufferslen : Int) (bkt : Bucket) : (cnt : Nat) → (elements : Elements) → Elements
  | 0, elements => elements
  | cnt + 1, elements =>
    if elements.offset < bufferslen then storeRepeated bufferslen bkt cnt (elements.store bkt) else elements

namespace CFBasicHash

/-- The loop of `CFBasicHashGetElements`, with `rest` buckets to go. -/
def getElementsLoop (ht : CFBasicHash) (bufferslen : Int) :
    (rest : Nat) → (idx used : Nat) → (elements : Elements) → Except Fault Elements
  | 0, _, _, elements => return elements
  | rest + 1, idx, used, elements => do
    if 0 < used ∧ elements.offset < bufferslen then
      let bkt ← ht.getBucket idx
      if 0 < bkt.count then
        ht.getElementsLoop bufferslen rest (idx + 1) (used - 1) (storeRepeated bufferslen bkt bkt.count elements)
      else ht.getElementsLoop bufferslen rest (idx + 1) used elements
    else return elements

/-- `CFBasicHashGetElements`, with whether there is a buffer for the values and one
for the keys. -/
def getElements (ht : CFBasicHash) (bufferslen : Int) (weakValues weakKeys : Bool) : Except Fault Elements :=
  ht.getElementsLoop bufferslen ht.getNumBuckets 0 ht.usedBuckets
    ⟨0, if weakValues then some [] else none, if weakKeys then some [] else none⟩

/-- The loop of `__CFBasicHashFastEnumeration`, with `rest` buckets to go. Its result
is `state->state` and the items. -/
def fastEnumerationLoop (ht : CFBasicHash) (count : Int) :
    (rest : Nat) → (idx used : Nat) → (items : List Word) → Except Fault (Nat × List Word)
  | 0, idx, _, items => return (idx, items)
  | rest + 1, idx, used, items => do
    if 0 < used ∧ items.length < count then
      let bkt ← ht.getBucket idx
      if 0 < bkt.count then ht.fastEnumerationLoop count rest (idx + 1) (used - 1) (items ++ [bkt.weakKey])
      else ht.fastEnumerationLoop count rest (idx + 1) used items
    else return (idx, items)

/-- `__CFBasicHashFastEnumeration` for a buffer of `count` words. -/
def fastEnumeration (ht : CFBasicHash) (state count : Nat) : Except Fault (Nat × List Word) :=
  ht.fastEnumerationLoop (toCFIndex count) (ht.getNumBuckets - state) state ht.usedBuckets []

/-- Calls with buffers of the given sizes, up to the first one that gives nothing; at
most `calls` of them. The result are the items of each call before. -/
def batches (ht : CFBasicHash) : (calls : Nat) → (sizes : Nat → Nat) → (state : Nat) →
    Except Fault (Option (List (List Word)))
  | 0, _, _ => return none
  | calls + 1, sizes, state => do
    let (state, items) ← ht.fastEnumeration state (sizes 0)
    if items.length = 0 then return some []
    else
      let others ← ht.batches calls (fun k => sizes (k + 1)) state
      return others.map (items :: ·)

end CFBasicHash

/-! ## Buckets -/

section

variable {ht : CFBasicHash} {slots : List (Slot Entry)} {j : Nat} {s : Slot Entry} {e : Entry}

theorem Holds.getBucket_live (h : Holds ht slots) (hs : slots[j]? = some (.live e)) :
    ht.getBucket j = .ok ⟨j, e.key, e.value, e.count⟩ := by
  rw [CFBasicHash.getBucket, h.isEmptyOrDeleted_live hs, ok_bind, h.getValue_live hs, h.getKey_live hs]
  simp only [Bool.false_eq_true, if_false, h.count_live hs, ok_bind]
  rfl

theorem Holds.getBucket_free (h : Holds ht slots) (hs : slots[j]? = some s) (hfree : s.Free) :
    ht.getBucket j = .ok ⟨j, 0, 0, 0⟩ := by
  rw [CFBasicHash.getBucket, h.isEmptyOrDeleted_free hs hfree]
  rfl

/-- The entries from bucket `j` on. -/
theorem entries_drop (hs : slots[j]? = some s) :
    entries (slots.drop j) = s.held.toList ++ entries (slots.drop (j + 1)) := by
  obtain ⟨hj, hget⟩ := List.getElem?_eq_some_iff.mp hs
  rw [List.drop_eq_getElem_cons hj, hget]
  cases s <;> rfl

/-- The keys of the live buckets from bucket `j` on. -/
def keysFrom (slots : List (Slot Entry)) (j : Nat) : List Word := (entries (slots.drop j)).map Entry.key

theorem keysFrom_length : keysFrom slots slots.length = [] := by
  rw [keysFrom, List.drop_length]
  rfl

theorem keysFrom_of_lt (hs : slots[j]? = some s) :
    keysFrom slots j = s.held.toList.map Entry.key ++ keysFrom slots (j + 1) := by
  rw [keysFrom, entries_drop hs, List.map_append, keysFrom]

/-! ## Fast enumeration -/

/-- What a call leaves that starts at bucket `j`: it gives the keys `items`, no more
than there is room for, and fewer only if there are no others. -/
structure Gives (slots : List (Slot Entry)) (count : Int) (j j' : Nat) (items : List Word) : Prop where
  le : j' ≤ slots.length
  keys : items ++ keysFrom slots j' = keysFrom slots j
  room : items.length ≤ count
  rest : items.length < count → keysFrom slots j' = []

theorem fastEnumerationLoop_spec (h : Holds ht slots) {count : Int} {rest used : Nat} {items : List Word}
    (hrest : j + rest = slots.length) (hused : (keysFrom slots j).length ≤ used) (hitems : items.length ≤ count) :
    ∃ j' new, ht.fastEnumerationLoop count rest j used items = .ok (j', items ++ new) ∧
      Gives slots (count - items.length) j j' new := by
  induction rest generalizing j used items with
  | zero =>
    obtain rfl : j = slots.length := hrest
    exact ⟨slots.length, [], by rw [List.append_nil]; rfl, le_rfl, rfl, by rw [List.length_nil]; omega,
      fun _ => keysFrom_length⟩
  | succ rest ih =>
    rw [CFBasicHash.fastEnumerationLoop]
    by_cases hgo : 0 < used ∧ (items.length : Int) < count
    swap
    · -- the countdown or the buffer ends the call
      rw [if_neg hgo]
      refine ⟨j, [], by rw [List.append_nil]; rfl, by omega, rfl, by rw [List.length_nil]; omega, fun hlt => ?_⟩
      rw [List.length_nil] at hlt
      exact List.eq_nil_of_length_eq_zero (by omega)
    rw [if_pos hgo]
    obtain ⟨s, hs⟩ : ∃ s, slots[j]? = some s := ⟨_, List.getElem?_eq_getElem (by omega)⟩
    have hkeys := keysFrom_of_lt hs
    rcases s.free_or_live with hfree | ⟨e, rfl⟩
    · rw [show s.held = none from hfree, Option.toList_none, List.map_nil, List.nil_append] at hkeys
      rw [h.getBucket_free hs hfree, ok_bind, if_neg (lt_irrefl 0)]
      rw [hkeys] at hused
      obtain ⟨j', new, hloop, hgives⟩ := ih (by omega) hused hitems
      exact ⟨j', new, hloop, hgives.le, by rw [hgives.keys, hkeys], hgives.room, hgives.rest⟩
    · have hkeys : keysFrom slots j = e.key :: keysFrom slots (j + 1) := hkeys
      rw [hkeys, List.length_cons] at hused
      rw [h.getBucket_live hs, ok_bind, if_pos (h.fits_of_live hs).pos]
      have hlen : ((items ++ [e.key]).length : Int) = items.length + 1 := by simp
      obtain ⟨j', new, hloop, hgives⟩ := ih (show j + 1 + rest = slots.length by omega)
        (show (keysFrom slots (j + 1)).length ≤ used - 1 by omega)
        (show ((items ++ [e.key]).length : Int) ≤ count by omega)
      have hroom := hgives.room
      have hlast := hgives.rest
      refine ⟨j', e.key :: new, ?_, hgives.le, by rw [List.cons_append, hgives.keys, hkeys], ?_, fun hlt => hlast ?_⟩
      · rw [hloop, List.append_assoc, List.singleton_append]
      · rw [List.length_cons]
        omega
      · rw [List.length_cons] at hlt
        omega

/-- One call with room for at least one key. -/
theorem fastEnumeration_spec (h : Valid ht slots) (hj : j ≤ slots.length) {count : Nat} (hcount : count < 2 ^ 63) :
    ∃ j' items, ht.fastEnumeration j count = .ok (j', items) ∧ Gives slots count j j' items := by
  have hbuckets : ht.getNumBuckets = slots.length := h.holds.length.symm
  have hsize : CFBasicHash.toCFIndex count = count := toCFIndex_of_le (Nat.le_sub_one_of_lt hcount)
  have hused : (keysFrom slots j).length ≤ ht.usedBuckets := by
    rw [h.used, keysFrom, List.length_map]
    exact List.Sublist.length_le ((List.drop_sublist j slots).filterMap _)
  obtain ⟨j', new, hloop, hgives⟩ := fastEnumerationLoop_spec h.holds (show j + (slots.length - j) = slots.length by omega)
    hused (show (([] : List Word).length : Int) ≤ count from Int.natCast_nonneg count)
  refine ⟨j', new, ?_, ?_⟩
  · rw [CFBasicHash.fastEnumeration, hsize, hbuckets, hloop]
    rfl
  · rw [List.length_nil] at hgives
    simpa using hgives

/-- Calls repeated from bucket `j` on until one gives nothing. -/
theorem batches_spec (h : Valid ht slots) (hj : j ≤ slots.length) {calls : Nat} {sizes : Nat → Nat}
    (hsizes : ∀ k, 0 < sizes k ∧ sizes k < 2 ^ 63) (hcalls : (keysFrom slots j).length < calls) :
    ∃ batches, ht.batches calls sizes j = .ok (some batches) ∧ batches.flatten = keysFrom slots j ∧
      ∀ k items, batches[k]? = some items → items.length ≤ sizes k := by
  induction calls generalizing j sizes with
  | zero => omega
  | succ calls ih =>
    obtain ⟨j', items, hcall, hgives⟩ := fastEnumeration_spec h hj (hsizes 0).2
    rw [CFBasicHash.batches, hcall, ok_bind]
    dsimp only
    have hkeys := hgives.keys
    have hsize := (hsizes 0).1
    split
    · rename_i hnone
      obtain rfl := List.eq_nil_of_length_eq_zero hnone
      refine ⟨[], rfl, ?_, fun k items hk => by simp at hk⟩
      have hend := hgives.rest (by rw [List.length_nil]; omega)
      rw [← hkeys, hend]
      rfl
    · rename_i hsome
      have hfewer := congrArg List.length hkeys
      rw [List.length_append] at hfewer
      obtain ⟨others, hothers, hflatten, hroom⟩ := ih hgives.le (fun k => hsizes (k + 1))
        (show (keysFrom slots j').length < calls by omega)
      refine ⟨items :: others, by rw [hothers]; rfl, by rw [List.flatten_cons, hflatten, hkeys], fun k batch hk => ?_⟩
      cases k with
      | zero =>
        obtain rfl := Option.some.inj hk
        have := hgives.room
        omega
      | succ k => exact hroom k batch hk

/-! ## Elements -/

/-- The buffers with these entries stored. -/
def elementsOf (weakValues weakKeys : Bool) (l : List Entry) : Elements :=
  ⟨l.length, if weakValues then some (l.map Entry.value) else none, if weakKeys then some (l.map Entry.key) else none⟩

/-- The entries from bucket `j` on, each as often as it counts. -/
def repeatedFrom (slots : List (Slot Entry)) (j : Nat) : List Entry :=
  (entries (slots.drop j)).flatMap fun e => List.replicate e.count e

theorem repeatedFrom_of_lt (hs : slots[j]? = some s) : repeatedFrom slots j =
    s.held.toList.flatMap (fun e => List.replicate e.count e) ++ repeatedFrom slots (j + 1) := by
  rw [repeatedFrom, entries_drop hs, List.flatMap_append, repeatedFrom]

theorem elementsOf_store (weakValues weakKeys : Bool) (l : List Entry) (e : Entry) (idx : Int) :
    (elementsOf weakValues weakKeys l).store ⟨idx, e.key, e.value, e.count⟩ =
      elementsOf weakValues weakKeys (l ++ [e]) := by
  cases weakValues <;> cases weakKeys <;> simp [elementsOf, Elements.store]

theorem storeRepeated_spec (weakValues weakKeys : Bool) {bufferslen : Int} {l : List Entry} (e : Entry) (idx : Int)
    {cnt : Nat} (hl : l.length ≤ bufferslen.toNat) :
    storeRepeated bufferslen ⟨idx, e.key, e.value, e.count⟩ cnt (elementsOf weakValues weakKeys l) =
      elementsOf weakValues weakKeys ((l ++ List.replicate cnt e).take bufferslen.toNat) := by
  induction cnt generalizing l with
  | zero => rw [List.replicate_zero, List.append_nil, List.take_of_length_le hl, storeRepeated]
  | succ cnt ih =>
    have hoffset : (elementsOf weakValues weakKeys l).offset = l.length := rfl
    rw [storeRepeated, hoffset]
    split
    · rename_i hlt
      rw [elementsOf_store, ih (by rw [List.length_append, List.length_singleton]; omega), List.append_assoc,
        List.singleton_append, ← List.replicate_succ]
    · rename_i hfull
      rw [show bufferslen.toNat = l.length by omega, List.take_left]

/-- What is cut off before more is added is not there afterwards either. -/
theorem take_take_append {α : Type} (m : Nat) (l r : List α) : (l.take m ++ r).take m = (l ++ r).take m := by
  rcases Nat.le_total l.length m with hle | hle
  · rw [List.take_of_length_le hle]
  · have hlen : (l.take m).length = m := by
      rw [List.length_take]
      exact min_eq_left hle
    rw [List.take_append_of_le_length hlen.ge, List.take_append_of_le_length hle, List.take_take, min_self]

theorem getElementsLoop_spec (h : Holds ht slots) (weakValues weakKeys : Bool) {bufferslen : Int} {rest used : Nat}
    {l : List Entry} (hrest : j + rest = slots.length) (hused : (keysFrom slots j).length ≤ used)
    (hl : l.length ≤ bufferslen.toNat) :
    ht.getElementsLoop bufferslen rest j used (elementsOf weakValues weakKeys l) =
      .ok (elementsOf weakValues weakKeys ((l ++ repeatedFrom slots j).take bufferslen.toNat)) := by
  induction rest generalizing j used l with
  | zero =>
    obtain rfl : j = slots.length := hrest
    rw [repeatedFrom, List.drop_length]
    show Except.ok _ = _
    rw [entries_nil, List.flatMap_nil, List.append_nil, List.take_of_length_le hl]
  | succ rest ih =>
    have hoffset : (elementsOf weakValues weakKeys l).offset = l.length := rfl
    rw [CFBasicHash.getElementsLoop, hoffset]
    by_cases hgo : 0 < used ∧ (l.length : Int) < bufferslen
    swap
    · -- no live bucket is left, or the buffers are full
      rw [if_neg hgo]
      rcases Nat.eq_zero_or_pos used with rfl | hpos
      · have hnone : entries (slots.drop j) = [] := by
          rw [keysFrom, List.length_map] at hused
          exact List.eq_nil_of_length_eq_zero (Nat.le_zero.mp hused)
        rw [repeatedFrom, hnone, List.flatMap_nil, List.append_nil, List.take_of_length_le hl]
        rfl
      · rw [show bufferslen.toNat = l.length by omega, List.take_left]
        rfl
    rw [if_pos hgo]
    obtain ⟨s, hs⟩ : ∃ s, slots[j]? = some s := ⟨_, List.getElem?_eq_getElem (by omega)⟩
    have hkeys := keysFrom_of_lt hs
    rw [repeatedFrom_of_lt hs]
    rcases s.free_or_live with hfree | ⟨e, rfl⟩
    · rw [show s.held = none from hfree, Option.toList_none, List.map_nil, List.nil_append] at hkeys
      rw [hkeys] at hused
      rw [h.getBucket_free hs hfree, ok_bind, if_neg (lt_irrefl 0), show s.held = none from hfree, Option.toList_none,
        List.flatMap_nil, List.nil_append]
      exact ih (by omega) hused hl
    · have hkeys : keysFrom slots j = e.key :: keysFrom slots (j + 1) := hkeys
      rw [hkeys, List.length_cons] at hused
      rw [h.getBucket_live hs, ok_bind, if_pos (h.fits_of_live hs).pos, storeRepeated_spec weakValues weakKeys e j hl,
        ih (by omega) (by omega) (by rw [List.length_take]; omega), take_take_append, List.append_assoc]
      show _ = Except.ok (elementsOf _ _ ((l ++ ([e].flatMap _ ++ _)).take _))
      rw [List.flatMap_singleton]

theorem getElements_spec (h : Valid ht slots) (bufferslen : Int) (weakValues weakKeys : Bool) :
    ht.getElements bufferslen weakValues weakKeys =
      .ok (elementsOf weakValues weakKeys ((repeatedFrom slots 0).take bufferslen.toNat)) := by
  have hused : (keysFrom slots 0).length ≤ ht.usedBuckets := by rw [h.used, keysFrom, List.length_map, List.drop_zero]
  exact getElementsLoop_spec h.holds weakValues weakKeys ((Nat.zero_add _).trans h.holds.length.symm) hused
    (show ([] : List Entry).length ≤ bufferslen.toNat from Nat.zero_le _)

/-- Fast enumeration from the first bucket on, with buffers of any sizes, gives the
keys of the live buckets in their order, and the buffers of elements get the first
entries in the same order, each as often as it counts. -/
theorem enumeration_complete {callbacks : Callbacks} (haccepted : callbacks.Accepted) (h : Reached callbacks ht) :
    ∃ slots, Holds ht slots ∧
      (∀ sizes : Nat → Nat, (∀ k, 0 < sizes k ∧ sizes k < 2 ^ 63) → ∀ calls, (entries slots).length < calls →
        ∃ batches, ht.batches calls sizes 0 = .ok (some batches) ∧ batches.flatten = (entries slots).map Entry.key ∧
          ∀ k items, batches[k]? = some items → items.length ≤ sizes k) ∧
      ∀ bufferslen weakValues weakKeys, ht.getElements bufferslen weakValues weakKeys =
        .ok (elementsOf weakValues weakKeys
          (((entries slots).flatMap fun e => List.replicate e.count e).take bufferslen.toNat)) := by
  obtain ⟨-, slots, hvalid, -⟩ := h.owns haccepted
  have hall : keysFrom slots 0 = (entries slots).map Entry.key := by rw [keysFrom, List.drop_zero]
  refine ⟨slots, hvalid.holds, fun sizes hsizes calls hcalls => ?_, fun bufferslen weakValues weakKeys => ?_⟩
  · rw [← hall]
    exact batches_spec hvalid (Nat.zero_le _) hsizes (by rw [hall, List.length_map]; exact hcalls)
  · rw [getElements_spec hvalid, repeatedFrom, List.drop_zero]

end

/-- A table with one entry, enumerated one key at a time. -/
theorem enumeration_complete_words : ∃ ht, (Operation.addValue 5 50).run (.create .linear false true true false .words) =
    .ok ht ∧ ∃ slots, Holds ht slots ∧ ∀ calls, (entries slots).length < calls →
      ∃ batches, ht.batches calls (fun _ => 1) 0 = .ok (some batches) ∧
        batches.flatten = (entries slots).map Entry.key := by
  obtain ⟨ht, hrun⟩ : ∃ ht, (Operation.addValue 5 50).run (.create .linear false true true false .words) = .ok ht :=
    ⟨_, rfl⟩
  obtain ⟨slots, hholds, hbatches, -⟩ := enumeration_complete Callbacks.words_accepted (.operation _ (.create ..) hrun)
  refine ⟨ht, hrun, slots, hholds, fun calls hcalls => ?_⟩
  obtain ⟨batches, hok, hflatten, -⟩ := hbatches (fun _ => 1) (fun _ => ⟨by decide, by decide⟩) calls hcalls
  exact ⟨batches, hok, hflatten⟩

end CFLite.BasicHash
