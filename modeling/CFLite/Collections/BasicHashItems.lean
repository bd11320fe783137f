import CFLite.Collections.BasicHashRuns

/-!
# A `CFBasicHash` as a multiset of items

What a table is for: items that are looked up by their keys, each with a value and
a multiplicity. With callbacks whose equality is an equivalence that the hash codes
respect, a lookup finds the item of its key wherever the history of the table has
put it, and every operation does to the table what it does to the items.

* `Item`, `Operation.onItems`: the items, and the operations on them;
* `Represents`: a table holds the items, every one where a lookup finds it;
* `represents_run`, `represents_createCopy`: what an operation leaves;
* `table_reports_items`: what a table reports after any run.
-/

namespace CFLite.BasicHash

open Framework

/-! ## Items -/

/-- A key, its value and how many times it was added. -/
structure Item where
  key : Word
  value : Word
  count : Nat
  deriving DecidableEq

/-- Callbacks that a table can rely on. The word that is retained for a key is equal
to the key; a table without keys has its values for keys. -/
structure Callbacks.Lawful (callbacks : Callbacks) (hasKeys : Bool) : Prop extends callbacks.Accepted where
  refl : ∀ key, callbacks.equateKeys key key
  symm : ∀ {key key'}, callbacks.equateKeys key key' → callbacks.equateKeys key' key
  trans : ∀ {key key' key''}, callbacks.equateKeys key key' → callbacks.equateKeys key' key'' →
    callbacks.equateKeys key key''
  hash : ∀ {key key'}, callbacks.equateKeys key key' → callbacks.hashKey key = callbacks.hashKey key'
  retained : ∀ key, callbacks.equateKeys (if hasKeys then callbacks.retainKey key else callbacks.retainValue key) key

/-- The item that is added for a key. -/
def Callbacks.newItem (callbacks : Callbacks) (hasKeys : Bool) (stackKey stackValue : Word) : Item where
  key := if hasKeys then callbacks.retainKey stackKey else callbacks.retainValue stackValue
  value := callbacks.retainValue stackValue
  count := 1

/-- The item with another value, and with the key that came with it. -/
def Callbacks.replacedItem (callbacks : Callbacks) (hasKeys : Bool) (stackKey stackValue : Word) (i : Item) : Item :=
  { callbacks.newItem hasKeys stackKey stackValue with count := i.count }

/-- One more, if the table counts and not beyond `LONG_MAX`. -/
def Item.more (hasCounts : Bool) (i : Item) : Item :=
  if hasCounts ∧ i.count < longMax then { i with count := i.count + 1 } else i

/-- One less; an item that was counted to `LONG_MAX` stays. -/
def Item.less (i : Item) : Item := if i.count < longMax then { i with count := i.count - 1 } else i

namespace Operation

/-- The operation on the items. -/
def onItems (callbacks : Callbacks) (hasKeys hasCounts : Bool) (items : List Item) : Operation → List Item
  | addValue stackKey stackValue =>
    if items.any fun i => callbacks.equateKeys i.key stackKey then
      items.map fun i => if callbacks.equateKeys i.key stackKey then i.more hasCounts else i
    else callbacks.newItem hasKeys stackKey stackValue :: items
  | setValue stackKey stackValue =>
    if items.any fun i => callbacks.equateKeys i.key stackKey then
      items.map fun i =>
        if callbacks.equateKeys i.key stackKey then callbacks.replacedItem hasKeys stackKey stackValue i else i
    else callbacks.newItem hasKeys stackKey stackValue :: items
  | replaceValue stackKey stackValue =>
    items.map fun i =>
      if callbacks.equateKeys i.key stackKey then callbacks.replacedItem hasKeys stackKey stackValue i else i
  | removeValue stackKey =>
    items.filterMap fun i =>
      if callbacks.equateKeys i.key stackKey then (if 1 < i.count then some i.less else none) else some i
  | removeAllValues => []
  | setCapacity _ => items

/-- In a table without keys the value is passed as the key. -/
def Keyed (hasKeys : Bool) : Operation → Prop
  | addValue stackKey stackValue | setValue stackKey stackValue | replaceValue stackKey stackValue =>
    hasKeys = false → stackKey = stackValue
  | removeValue _ | removeAllValues | setCapacity _ => True

/-- The operation asks for no more than the greatest capacity; a table that grows
fast needs one row more. -/
def Within (callbacks : Callbacks) (fastGrow : Bool) (items : List Item) : Operation → Prop
  | addValue stackKey _ | setValue stackKey _ =>
    (∀ i ∈ items, ¬ callbacks.equateKeys i.key stackKey) →
      items.length + 1 ≤ tableCapacity (if fastGrow then lastIdx - 1 else lastIdx)
  | setCapacity capacity =>
    capacity ≤ tableCapacity lastIdx ∧
      (fastGrow → capacity = items.length + 1 → capacity ≤ tableCapacity (lastIdx - 1))
  | _ => True

/-- The operation does not depend on the order of the items. -/
theorem onItems_perm (op : Operation) (callbacks : Callbacks) (hasKeys hasCounts : Bool) {items items' : List Item}
    (h : items.Perm items') :
    (op.onItems callbacks hasKeys hasCounts items).Perm (op.onItems callbacks hasKeys hasCounts items') := by
  have hany : ∀ p : Item → Bool, items.any p = items'.any p := fun p => h.any_eq
  cases op with
  | addValue stackKey stackValue =>
    rw [onItems, onItems, hany]
    split
    · exact h.map _
    · exact h.cons _
  | setValue stackKey stackValue =>
    rw [onItems, onItems, hany]
    split
    · exact h.map _
    · exact h.cons _
  | replaceValue stackKey stackValue => exact h.map _
  | removeValue stackKey => exact h.filterMap _
  | removeAllValues => exact List.Perm.refl _
  | setCapacity capacity => exact h

end Operation

/-! ## Tables and items -/

def Entry.item (e : Entry) : Item := ⟨e.key, e.value, e.count⟩

/-- The cached hash code of an entry is that of its key. -/
def Coded (ht : CFBasicHash) (e : Entry) : Prop := ht.hasHashCache → e.hash = ht.callbacks.hashKey e.key

theorem Coded.rehashCode {ht : CFBasicHash} {e : Entry} (h : Coded ht e) :
    rehashCode ht e = ht.callbacks.hashKey e.key := by
  unfold BasicHash.rehashCode
  by_cases hk : ht.hasHashCache
  · rw [if_pos hk, h hk]
    exact ite_self _
  · rw [if_neg hk]
    exact if_pos rfl

/-- The table `ht`, with the buckets `slots`, holds the items. -/
structure Represents (callbacks : Callbacks) (hasKeys hasCounts : Bool) (ht : CFBasicHash) (slots : List (Slot Entry))
    (items : List Item) : Prop where
  distinct : items.Pairwise fun i i' => ¬ callbacks.equateKeys i.key i'.key
  valid : Valid ht slots
  callbacks : ht.callbacks = callbacks
  hasKeys : ht.hasKeys = hasKeys
  hasCounts : ht.hasCounts = hasCounts
  paths : OnPaths ht slots
  coded : ∀ e ∈ entries slots, Coded ht e
  perm : ((entries slots).map Entry.item).Perm items

section

variable {callbacks : Callbacks} {hasKeys hasCounts : Bool} {ht : CFBasicHash} {slots : List (Slot Entry)}
  {items : List Item} {stackKey stackValue : Word} {e : Entry} {rest : List Entry}

theorem sameEntry_equate (hl : callbacks.Lawful hasKeys) (hcallbacks : ht.callbacks = callbacks) {hashCode : Word}
    (h : sameEntry ht stackKey hashCode e) : callbacks.equateKeys e.key stackKey := by
  unfold sameEntry at h
  rcases Bool.or_eq_true_iff.mp h with heq | hand
  · rw [of_decide_eq_true heq]
    exact hl.refl _
  · rw [← hcallbacks]
    exact (Bool.and_eq_true_iff.mp hand).2

/-- A lookup misses no entry whose key is equal. -/
theorem lookup_complete (hl : callbacks.Lawful hasKeys) (h : Represents callbacks hasKeys hasCounts ht slots items)
    (he : e ∈ entries slots) (hequal : callbacks.equateKeys e.key stackKey) :
    ∃ j e', lookup ht slots stackKey = .found j e' := by
  obtain ⟨j, hj⟩ := mem_entries_iff.mp he
  have hcode : rehashCode ht e = ht.callbacks.hashKey stackKey := by
    rw [(h.coded e he).rehashCode, h.callbacks]
    exact hl.hash hequal
  have hreach : Reaches slots (pathOf ht (rehashCode ht e)) j := h.paths hj
  rw [hcode] at hreach
  have hsame : sameEntry ht stackKey (ht.callbacks.hashKey stackKey) e := by
    have hhash : (!ht.hasHashCache || decide (e.hash = ht.callbacks.hashKey stackKey)) = true := by
      by_cases hk : ht.hasHashCache
      · have heq : e.hash = ht.callbacks.hashKey stackKey := by
          rw [h.coded e he hk, h.callbacks]
          exact hl.hash hequal
        rw [decide_eq_true heq, Bool.or_true]
      · rw [Bool.eq_false_iff.mpr hk]
        rfl
    unfold sameEntry
    rw [hhash, Bool.true_and, h.callbacks, hequal, Bool.or_true]
  unfold lookup
  rw [if_neg fun h0 => ?_]
  · exact search_of_reaches hreach hj hsame none
  · have hlen : slots.length = 0 := by
      rw [h.valid.holds.length, h0]
      rfl
    rw [List.eq_nil_of_length_eq_zero hlen] at hj
    cases hj

/-- What is looked up: the one item of the key, or there is none. -/
theorem represents_lookup (hl : callbacks.Lawful hasKeys) (h : Represents callbacks hasKeys hasCounts ht slots items)
    (stackKey : Word) :
    (∃ j e rest, lookup ht slots stackKey = .found j e ∧ slots[j]? = some (.live e) ∧
      (entries slots).Perm (e :: rest) ∧ callbacks.equateKeys e.key stackKey ∧
      (∀ r ∈ rest, ¬ callbacks.equateKeys r.key stackKey)) ∨
    (∃ vacant, lookup ht slots stackKey = .vacant vacant ∧
      ∀ r ∈ entries slots, ¬ callbacks.equateKeys r.key stackKey) := by
  cases hlook : lookup ht slots stackKey with
  | found j e =>
    obtain ⟨hs, hsame⟩ := lookup_found hlook
    obtain ⟨rest, hrest⟩ := exists_perm_cons hs
    have hequal := sameEntry_equate hl h.callbacks hsame
    refine .inl ⟨j, e, rest, rfl, hs, hrest, hequal, fun r hr hequal' => ?_⟩
    have hperm : items.Perm (e.item :: rest.map Entry.item) := h.perm.symm.trans (hrest.map Entry.item)
    have hpairs : (e.item :: rest.map Entry.item).Pairwise fun i i' => ¬ callbacks.equateKeys i.key i'.key := by
      refine (hperm.pairwise_iff ?_).mp h.distinct
      exact fun hne heq => hne (hl.symm heq)
    refine (List.pairwise_cons.mp hpairs).1 r.item (List.mem_map_of_mem hr) ?_
    exact hl.trans hequal (hl.symm hequal')
  | vacant vacant =>
    refine .inr ⟨vacant, rfl, fun r hr hequal => ?_⟩
    obtain ⟨j, e', hfound⟩ := lookup_complete hl h hr hequal
    rw [hfound] at hlook
    cases hlook

/-! ## What an operation leaves -/

theorem equate_importedKey (hl : callbacks.Lawful hasKeys) (hcallbacks : ht.callbacks = callbacks)
    (hkeys : ht.hasKeys = hasKeys) (hkeyed : hasKeys = false → stackKey = stackValue) :
    callbacks.equateKeys (importedKey ht stackKey stackValue) stackKey := by
  have hretained := hl.retained stackKey
  subst hcallbacks hkeys
  unfold importedKey
  cases hk : ht.hasKeys with
  | true => rwa [hk, if_pos rfl] at hretained
  | false =>
    rw [hk, if_neg Bool.false_ne_true] at hretained
    rw [← hkeyed hk]
    exact hretained

theorem coded_newEntry (hl : callbacks.Lawful hasKeys) (hcallbacks : ht.callbacks = callbacks)
    (hkeys : ht.hasKeys = hasKeys) (hkeyed : hasKeys = false → stackKey = stackValue) :
    Coded ht (newEntry ht stackKey stackValue) := fun _ => by
  show ht.callbacks.hashKey stackKey = ht.callbacks.hashKey (importedKey ht stackKey stackValue)
  rw [hcallbacks]
  exact (hl.hash (equate_importedKey hl hcallbacks hkeys hkeyed)).symm

theorem coded_replaced (hl : callbacks.Lawful hasKeys) (hcallbacks : ht.callbacks = callbacks)
    (hkeys : ht.hasKeys = hasKeys) (hkeyed : hasKeys = false → stackKey = stackValue)
    (hequal : callbacks.equateKeys e.key stackKey) (he : Coded ht e) : Coded ht (replaced ht stackKey stackValue e) := by
  intro hk
  show e.hash = ht.callbacks.hashKey (importedKey ht stackKey stackValue)
  rw [he hk, hcallbacks]
  exact hl.hash (hl.trans hequal (hl.symm (equate_importedKey hl hcallbacks hkeys hkeyed)))

/-- An operation leaves the other entries and at most one for its key. -/
theorem onEntries_cases (hl : callbacks.Lawful hasKeys) (hcallbacks : ht.callbacks = callbacks)
    (hkeys : ht.hasKeys = hasKeys) (op : Operation) (hop : op.key? = some stackKey) (hkeyed : op.Keyed hasKeys)
    {found : Option Entry} (hfound : ∀ e, found = some e → callbacks.equateKeys e.key stackKey ∧ Coded ht e)
    (rest : List Entry) :
    (∃ e, op.onEntries ht found rest = e :: rest ∧ callbacks.equateKeys e.key stackKey ∧ Coded ht e) ∨
      op.onEntries ht found rest = rest := by
  cases op with
  | addValue k v =>
    obtain rfl : k = stackKey := Option.some.inj hop
    cases found with
    | some e =>
      obtain ⟨hequal, hcoded⟩ := hfound e rfl
      refine .inl ⟨_, rfl, ?_⟩
      split
      · exact ⟨hequal, hcoded⟩
      · exact ⟨hequal, hcoded⟩
    | none =>
      exact .inl ⟨_, rfl, equate_importedKey hl hcallbacks hkeys hkeyed, coded_newEntry hl hcallbacks hkeys hkeyed⟩
  | setValue k v =>
    obtain rfl : k = stackKey := Option.some.inj hop
    refine .inl ?_
    cases found with
    | some e =>
      obtain ⟨hequal, hcoded⟩ := hfound e rfl
      exact ⟨_, rfl, equate_importedKey hl hcallbacks hkeys hkeyed,
        coded_replaced hl hcallbacks hkeys hkeyed hequal hcoded⟩
    | none => exact ⟨_, rfl, equate_importedKey hl hcallbacks hkeys hkeyed, coded_newEntry hl hcallbacks hkeys hkeyed⟩
  | replaceValue k v =>
    obtain rfl : k = stackKey := Option.some.inj hop
    cases found with
    | some e =>
      obtain ⟨hequal, hcoded⟩ := hfound e rfl
      exact .inl ⟨_, rfl, equate_importedKey hl hcallbacks hkeys hkeyed,
        coded_replaced hl hcallbacks hkeys hkeyed hequal hcoded⟩
    | none => exact .inr rfl
  | removeValue k =>
    cases found with
    | some e =>
      obtain ⟨hequal, hcoded⟩ := hfound e rfl
      rw [Operation.onEntries]
      split
      · refine .inl ⟨_, rfl, ?_⟩
        split
        · exact ⟨hequal, hcoded⟩
        · exact ⟨hequal, hcoded⟩
      · exact .inr rfl
    | none => exact .inr rfl
  | removeAllValues => cases hop
  | setCapacity capacity => cases hop

theorem keepsCodes (hl : callbacks.Lawful hasKeys) (hcallbacks : ht.callbacks = callbacks)
    (hkeys : ht.hasKeys = hasKeys) (op : Operation) (hop : op.key? = some stackKey) (hkeyed : op.Keyed hasKeys)
    {found : Option Entry} (hfound : ∀ e, found = some e → callbacks.equateKeys e.key stackKey ∧ Coded ht e) :
    op.KeepsCodes ht found := by
  have hnew : ∀ {v : Word}, (hasKeys = false → stackKey = v) →
      rehashCode ht (newEntry ht stackKey v) = ht.callbacks.hashKey stackKey := fun {v} hkeyed => by
    rw [(coded_newEntry hl hcallbacks hkeys hkeyed).rehashCode, hcallbacks]
    exact hl.hash (equate_importedKey hl hcallbacks hkeys hkeyed)
  have hreplaced : ∀ {v : Word}, (hasKeys = false → stackKey = v) → ∀ e, found = some e →
      rehashCode ht (replaced ht stackKey v e) = rehashCode ht e := fun {v} hkeyed e he => by
    obtain ⟨hequal, hcoded⟩ := hfound e he
    rw [(coded_replaced hl hcallbacks hkeys hkeyed hequal hcoded).rehashCode, hcoded.rehashCode, hcallbacks]
    exact hl.hash (hl.trans (equate_importedKey hl hcallbacks hkeys hkeyed) (hl.symm hequal))
  cases op with
  | addValue k v =>
    obtain rfl : k = stackKey := Option.some.inj hop
    exact hnew hkeyed
  | setValue k v =>
    obtain rfl : k = stackKey := Option.some.inj hop
    exact ⟨hnew hkeyed, hreplaced hkeyed⟩
  | replaceValue k v =>
    obtain rfl : k = stackKey := Option.some.inj hop
    exact hreplaced hkeyed
  | removeValue k => trivial
  | removeAllValues => trivial
  | setCapacity capacity => trivial

/-- The operation on the items is that on the entries: with the entry of the key first, -/
theorem onItems_found (hcallbacks : ht.callbacks = callbacks) (hkeys : ht.hasKeys = hasKeys)
    (hcounts : ht.hasCounts = hasCounts) (op : Operation) (hop : op.key? = some stackKey)
    (hequal : callbacks.equateKeys e.key stackKey) (hrest : ∀ r ∈ rest, ¬ callbacks.equateKeys r.key stackKey) :
    op.onItems callbacks hasKeys hasCounts (e.item :: rest.map Entry.item) =
      (op.onEntries ht (some e) rest).map Entry.item := by
  subst hcallbacks hkeys hcounts
  have hany : ((e.item :: rest.map Entry.item).any fun i => ht.callbacks.equateKeys i.key stackKey) = true := by
    rw [List.any_cons]
    exact Bool.or_eq_true_iff.mpr (.inl hequal)
  have hmap : ∀ f : Item → Item, (e.item :: rest.map Entry.item).map
      (fun i => if ht.callbacks.equateKeys i.key stackKey then f i else i) = f e.item :: rest.map Entry.item := by
    intro f
    rw [List.map_cons, if_pos (show ht.callbacks.equateKeys e.item.key stackKey from hequal), List.map_map]
    congr 1
    exact List.map_congr_left fun r hr => if_neg (hrest r hr)
  cases op with
  | addValue k v =>
    obtain rfl : k = stackKey := Option.some.inj hop
    rw [Operation.onItems, if_pos hany, hmap, Operation.onEntries]
    rw [List.map_cons]
    congr 1
    unfold Item.more
    by_cases hc : ht.hasCounts ∧ e.count < longMax
    · rw [if_pos hc, if_pos (show ht.hasCounts ∧ e.item.count < longMax from hc)]
      rfl
    · rw [if_neg hc, if_neg (show ¬ (ht.hasCounts ∧ e.item.count < longMax) from hc)]
  | setValue k v =>
    obtain rfl : k = stackKey := Option.some.inj hop
    rw [Operation.onItems, if_pos hany, hmap]
    rfl
  | replaceValue k v =>
    obtain rfl : k = stackKey := Option.some.inj hop
    rw [Operation.onItems, hmap]
    rfl
  | removeValue k =>
    obtain rfl : k = stackKey := Option.some.inj hop
    have hkeep : (rest.map Entry.item).filterMap (fun i => if ht.callbacks.equateKeys i.key k then
        (if 1 < i.count then some i.less else none) else some i) = rest.map Entry.item := by
      rw [List.filterMap_map, ← List.filterMap_eq_map]
      exact List.filterMap_congr fun r hr => if_neg (hrest r hr)
    rw [Operation.onItems, List.filterMap_cons,
      if_pos (show ht.callbacks.equateKeys e.item.key k from hequal), hkeep, Operation.onEntries]
    by_cases hone : 1 < e.count
    · rw [if_pos (show 1 < e.item.count from hone), if_pos hone, List.map_cons]
      dsimp only
      congr 1
      unfold Item.less
      by_cases hlt : e.count < longMax
      · rw [if_pos hlt, if_pos (show e.item.count < longMax from hlt)]
        rfl
      · rw [if_neg hlt, if_neg (show ¬ e.item.count < longMax from hlt)]
    · rw [if_neg (show ¬ 1 < e.item.count from hone), if_neg hone]
  | removeAllValues => cases hop
  | setCapacity capacity => cases hop

/-- and without one. -/
theorem onItems_none (hcallbacks : ht.callbacks = callbacks) (hkeys : ht.hasKeys = hasKeys) (op : Operation)
    (hop : op.key? = some stackKey) (hrest : ∀ r ∈ rest, ¬ callbacks.equateKeys r.key stackKey) :
    op.onItems callbacks hasKeys hasCounts (rest.map Entry.item) = (op.onEntries ht none rest).map Entry.item := by
  subst hcallbacks hkeys
  have hany : ((rest.map Entry.item).any fun i => ht.callbacks.equateKeys i.key stackKey) ≠ true := by
    intro h
    obtain ⟨i, hi, hequal⟩ := List.any_eq_true.mp h
    obtain ⟨r, hr, rfl⟩ := List.mem_map.mp hi
    exact hrest r hr hequal
  cases op with
  | addValue k v =>
    obtain rfl : k = stackKey := Option.some.inj hop
    rw [Operation.onItems, if_neg hany]
    rfl
  | setValue k v =>
    obtain rfl : k = stackKey := Option.some.inj hop
    rw [Operation.onItems, if_neg hany]
    rfl
  | replaceValue k v =>
    obtain rfl : k = stackKey := Option.some.inj hop
    rw [Operation.onItems, List.map_map]
    exact List.map_congr_left fun r hr => if_neg (hrest r hr)
  | removeValue k =>
    obtain rfl : k = stackKey := Option.some.inj hop
    rw [Operation.onItems, List.filterMap_map]
    show _ = rest.map Entry.item
    rw [← List.filterMap_eq_map]
    exact List.filterMap_congr fun r hr => if_neg (hrest r hr)
  | removeAllValues => cases hop
  | setCapacity capacity => cases hop

/-- A table with other entries of other items. -/
theorem Represents.becomes (hl : callbacks.Lawful hasKeys) (h : Represents callbacks hasKeys hasCounts ht slots items)
    {ht' : CFBasicHash} {slots' : List (Slot Entry)} {after : List Entry} {events : List Event} {items' : List Item}
    (hb : Becomes ht slots after events ht' slots') (hpaths : OnPaths ht' slots') (hcoded : ∀ e ∈ after, Coded ht e)
    (hperm : (after.map Entry.item).Perm items')
    (hdistinct : (after.map Entry.item).Pairwise fun i i' => ¬ callbacks.equateKeys i.key i'.key) :
    Represents callbacks hasKeys hasCounts ht' slots' items' where
  distinct := (hperm.pairwise_iff fun hne heq => hne (hl.symm heq)).mp hdistinct
  valid := hb.valid
  callbacks := hb.kept.callbacks.trans h.callbacks
  hasKeys := hb.kept.hasKeys.trans h.hasKeys
  hasCounts := hb.kept.hasCounts.trans h.hasCounts
  paths := hpaths
  coded e he hk := by
    rw [hb.kept.callbacks]
    exact hcoded e (hb.perm.mem_iff.mp he) (hb.kept.hasHashCache ▸ hk)
  perm := (hb.perm.map Entry.item).trans hperm

/-- An operation for which there is a size does to the table what it does to the items. -/
theorem represents_run (hl : callbacks.Lawful hasKeys) (h : Represents callbacks hasKeys hasCounts ht slots items)
    (op : Operation) (hlegal : op.Legal) (hkeyed : op.Keyed hasKeys) (hreq : op.Requests ht (op.found ht slots)) :
    ∃ ht' slots', op.run ht = .ok ht' ∧
      Represents callbacks hasKeys hasCounts ht' slots' (op.onItems callbacks hasKeys hasCounts items) := by
  have haccepted : ht.callbacks.Accepted := h.callbacks ▸ hl.toAccepted
  -- what is left is represented as soon as the entries after the operation are
  have finish : ∀ {rest : List Entry}, (entries slots).Perm ((op.found ht slots).toList ++ rest) →
      op.KeepsCodes ht (op.found ht slots) → (∀ e ∈ op.onEntries ht (op.found ht slots) rest, Coded ht e) →
      ((op.onEntries ht (op.found ht slots) rest).map Entry.item).Perm (op.onItems callbacks hasKeys hasCounts items) →
      ((op.onEntries ht (op.found ht slots) rest).map Entry.item).Pairwise
        (fun i i' => ¬ callbacks.equateKeys i.key i'.key) →
      ∃ ht' slots', op.run ht = .ok ht' ∧
        Represents callbacks hasKeys hasCounts ht' slots' (op.onItems callbacks hasKeys hasCounts items) := by
    intro rest hrest hkeeps hcoded hperm hdistinct
    obtain ⟨ht', slots', events, hrun, hsteps, hpaths⟩ := op.run_spec h.valid haccepted hlegal hreq hrest
    exact ⟨ht', slots', hrun, h.becomes hl hsteps.becomes (hpaths hkeeps h.paths) hcoded hperm hdistinct⟩
  have hpairs : ∀ {es : List Entry}, (entries slots).Perm es →
      (es.map Entry.item).Pairwise fun i i' => ¬ callbacks.equateKeys i.key i'.key := fun {es} hes => by
    have hperm : items.Perm (es.map Entry.item) := h.perm.symm.trans (hes.map Entry.item)
    refine (hperm.pairwise_iff ?_).mp h.distinct
    exact fun hne heq => hne (hl.symm heq)
  cases hop : op.key? with
  | none =>
    have hnone : op.found ht slots = none := by
      rw [Operation.found, hop]
      rfl
    have hrest : (entries slots).Perm ((op.found ht slots).toList ++ entries slots) := by
      rw [hnone]
      exact List.Perm.refl _
    cases op with
    | addValue k v => cases hop
    | setValue k v => cases hop
    | replaceValue k v => cases hop
    | removeValue k => cases hop
    | removeAllValues =>
      exact finish hrest trivial (fun e he => absurd he List.not_mem_nil) (List.Perm.refl _) List.Pairwise.nil
    | setCapacity capacity => exact finish hrest trivial h.coded h.perm (hpairs (List.Perm.refl _))
  | some stackKey =>
    have after : ∀ {found : Option Entry} {rest : List Entry}, op.found ht slots = found →
        (entries slots).Perm (found.toList ++ rest) → (∀ r ∈ rest, ¬ callbacks.equateKeys r.key stackKey) →
        (∀ e, found = some e → callbacks.equateKeys e.key stackKey ∧ Coded ht e) →
        (op.onItems callbacks hasKeys hasCounts ((found.toList ++ rest).map Entry.item)) =
          (op.onEntries ht found rest).map Entry.item →
        ∃ ht' slots', op.run ht = .ok ht' ∧
          Represents callbacks hasKeys hasCounts ht' slots' (op.onItems callbacks hasKeys hasCounts items) := by
      intro found rest hfound hrest hother hsame hitems
      have hcodedRest : ∀ r ∈ rest, Coded ht r := fun r hr =>
        h.coded r (hrest.mem_iff.mpr (List.mem_append_right _ hr))
      have hcases := onEntries_cases hl h.callbacks h.hasKeys op hop hkeyed hsame rest
      subst hfound
      refine finish hrest (keepsCodes hl h.callbacks h.hasKeys op hop hkeyed hsame) ?_ ?_ ?_
      · rcases hcases with ⟨e, he, -, hcoded⟩ | he
        · rw [he]
          exact List.forall_mem_cons.mpr ⟨hcoded, hcodedRest⟩
        · rw [he]
          exact hcodedRest
      · rw [← hitems]
        exact op.onItems_perm callbacks hasKeys hasCounts ((hrest.map Entry.item).symm.trans h.perm)
      · have hpairsRest : (rest.map Entry.item).Pairwise fun i i' => ¬ callbacks.equateKeys i.key i'.key := by
          have hall := hpairs hrest
          rw [List.map_append] at hall
          exact (List.pairwise_append.mp hall).2.1
        rcases hcases with ⟨e, he, hequal, -⟩ | he
        · rw [he, List.map_cons]
          refine List.pairwise_cons.mpr ⟨fun i hi hequal' => ?_, hpairsRest⟩
          obtain ⟨r, hr, rfl⟩ := List.mem_map.mp hi
          exact hother r hr (hl.trans (hl.symm hequal') hequal)
        · rw [he]
          exact hpairsRest
    rcases represents_lookup hl h stackKey with ⟨j, e, rest, hlook, hs, hrest, hequal, hother⟩ | ⟨vacant, hlook, hother⟩
    · refine after (Operation.found_eq_some hop hlook) hrest hother (fun e' he' => ?_)
        (onItems_found h.callbacks h.hasKeys h.hasCounts op hop hequal hother)
      obtain rfl := Option.some.inj he'
      exact ⟨hequal, h.coded e (mem_entries_iff.mpr ⟨j, hs⟩)⟩
    · exact after (Operation.found_eq_none hop hlook) (List.Perm.refl _) hother (fun e' he' => absurd he'.symm (Option.some_ne_none e'))
        (onItems_none h.callbacks h.hasKeys op hop hother)

/-- The item of a copy. -/
def Callbacks.copiedItem (callbacks : Callbacks) (hasKeys : Bool) (i : Item) : Item :=
  callbacks.replacedItem hasKeys i.key i.value i

theorem represents_createCopy (hl : callbacks.Lawful hasKeys)
    (h : Represents callbacks hasKeys hasCounts ht slots items) (junk : Nat → Word) :
    ∃ ht' slots', ht.createCopy junk = .ok ht' ∧
      Represents callbacks hasKeys hasCounts ht' slots' (items.map (callbacks.copiedItem hasKeys)) := by
  obtain ⟨ht', hcopy, hvalid, -, hstyle, -, hkeys, hcounts, hcache, -, hcallbacks, hidx⟩ :=
    createCopy_spec h.valid (h.callbacks ▸ hl.toAccepted) junk
  have hequal : ∀ e ∈ entries slots, callbacks.equateKeys (copied ht e).key e.key := fun e he => by
    refine equate_importedKey hl h.callbacks h.hasKeys fun hk => ?_
    exact (h.valid.holds.fits e he).keyed (h.hasKeys.trans hk)
  have hcoded : ∀ e ∈ entries slots, Coded ht' (copied ht e) := fun e he hk => by
    show e.hash = ht'.callbacks.hashKey (copied ht e).key
    rw [hcallbacks, h.coded e he (hcache ▸ hk), h.callbacks]
    exact (hl.hash (hequal e he)).symm
  have hitem : ∀ e : Entry, (copied ht e).item = callbacks.copiedItem hasKeys e.item := fun e => by
    rw [← h.callbacks, ← h.hasKeys]
    rfl
  refine ⟨ht', copiedSlots ht slots, hcopy, ?_, hvalid, hcallbacks.trans h.callbacks, hkeys.trans h.hasKeys,
    hcounts.trans h.hasCounts, ?_, ?_, ?_⟩
  · -- the items of a copy have equal keys
    refine List.pairwise_map.mpr (h.distinct.imp_of_mem fun {i i'} hi hi' hne hequal' => hne ?_)
    have hkey : ∀ i ∈ items, callbacks.equateKeys (callbacks.copiedItem hasKeys i).key i.key := fun i hi => by
      obtain ⟨e, he, rfl⟩ := List.mem_map.mp (h.perm.mem_iff.mpr hi)
      rw [← hitem]
      exact hequal e he
    exact hl.trans (hl.symm (hkey i hi)) (hl.trans hequal' (hkey i' hi'))
  · refine h.paths.copied hstyle hidx fun e he => ?_
    rw [(hcoded e he).rehashCode, (h.coded e he).rehashCode, hcallbacks, h.callbacks]
    exact hl.hash (hequal e he)
  · intro e he
    rw [copiedSlots, entries_map] at he
    obtain ⟨e₀, he₀, rfl⟩ := List.mem_map.mp he
    exact hcoded e₀ he₀
  · rw [copiedSlots, entries_map, List.map_map]
    refine List.Perm.trans ?_ (h.perm.map _)
    rw [List.map_map]
    exact List.Perm.of_eq (List.map_congr_left fun e _ => hitem e)

/-! ## What a table reports -/

/-- All the multiplicities. -/
def total (items : List Item) : Nat := (items.map Item.count).sum

/-- A table reports the items: the one of a key with its bucket, and how many there are. -/
structure Reports (callbacks : Callbacks) (ht : CFBasicHash) (items : List Item) : Prop where
  found : ∀ i ∈ items, ∀ key, reserved key = false → callbacks.equateKeys i.key key →
    (∃ idx < ht.getNumBuckets, ht.findBucket key = .ok ⟨idx, i.key, i.value, i.count⟩) ∧
      ht.getCountOfKey key = .ok i.count
  absent : ∀ key, (∀ i ∈ items, ¬ callbacks.equateKeys i.key key) →
    (∃ bkt, ht.findBucket key = .ok bkt ∧ bkt.count = 0) ∧ ht.getCountOfKey key = .ok 0
  count : total items ≤ longMax → ht.getCount = .ok (total items)

theorem toCFIndex_of_le {n : Nat} (h : n ≤ longMax) : CFBasicHash.toCFIndex n = n := by
  unfold CFBasicHash.toCFIndex
  unfold longMax at h
  exact Int.bmod_eq_of_le (by omega) (by omega)

/-- The sum over the buckets. -/
theorem sum_rawCount (slots : List (Slot Entry)) :
    (slots.map rawCount).sum = ((entries slots).map Entry.count).sum := by
  induction slots with
  | nil => rfl
  | cons s slots ih =>
    rw [List.map_cons, List.sum_cons, ih]
    cases s with
    | empty => exact Nat.zero_add _
    | deleted => exact Nat.zero_add _
    | live e => rfl

theorem foldlM_getSlotCount (h : Holds ht slots) (hk : ht.hasCounts) {i : Nat} (hi : i ≤ slots.length) :
    (List.range i).foldlM (fun total (idx : Nat) => do return total + (← ht.getSlotCount idx)) 0 =
      (.ok ((slots.take i).map rawCount).sum : Except Fault Nat) := by
  induction i with
  | zero => rfl
  | succ i ih =>
    have hs : slots[i]? = some slots[i] := List.getElem?_eq_getElem hi
    rw [List.range_succ, List.foldlM_append, ih (Nat.le_of_succ_le hi), ok_bind, List.foldlM_cons,
      CFBasicHash.getSlotCount, h.cell_counts hk hs, List.take_add_one, hs, List.map_append, List.sum_append]
    rfl

theorem Represents.count_le (h : Represents callbacks hasKeys hasCounts ht slots items) {i : Item} (hi : i ∈ items) :
    0 < i.count ∧ i.count ≤ longMax := by
  obtain ⟨e, he, rfl⟩ := List.mem_map.mp (h.perm.mem_iff.mpr hi)
  have hfits := h.valid.holds.fits e he
  refine ⟨hfits.pos, hfits.count.trans ?_⟩
  split
  · exact (countMax_mono h.valid.holds.width).trans (le_of_eq countMax_three)
  · decide

theorem Represents.total_eq (h : Represents callbacks hasKeys hasCounts ht slots items) :
    total items = ((entries slots).map Entry.count).sum := by
  unfold total
  rw [← (h.perm.map Item.count).sum_eq, List.map_map]
  rfl

theorem Represents.usedBuckets_eq (h : Represents callbacks hasKeys hasCounts ht slots items) :
    ht.usedBuckets = items.length := by
  rw [h.valid.used, ← h.perm.length_eq, List.length_map]

/-- The count in 64 bits. -/
theorem Represents.getCount_eq (h : Represents callbacks hasKeys hasCounts ht slots items) :
    ht.getCount = .ok (CFBasicHash.toCFIndex (total items)) := by
  unfold CFBasicHash.getCount
  by_cases hk : ht.hasCounts
  · have hfold := foldlM_getSlotCount h.valid.holds hk le_rfl
    rw [List.take_length, sum_rawCount, ← h.total_eq, h.valid.holds.length] at hfold
    rw [if_pos hk]
    unfold CFBasicHash.getNumBuckets
    rw [hfold, ok_bind]
    rfl
  · -- without counts every entry is there once
    have hone : ∀ e ∈ entries slots, e.count = 1 := fun e he => by
      have hfits := h.valid.holds.fits e he
      have hle := hfits.count
      rw [if_neg hk] at hle
      exact le_antisymm hle hfits.pos
    have hsum : total items = ht.usedBuckets := by
      rw [h.total_eq, h.valid.used, List.map_congr_left hone, List.map_const', List.sum_replicate, smul_eq_mul, mul_one]
    have hmax : ht.usedBuckets ≤ longMax :=
      (h.valid.cap.trans (tableCapacity_mono h.valid.idx le_rfl)).trans (by decide)
    rw [if_neg hk, hsum, toCFIndex_of_le hmax]
    rfl

theorem represents_reports (hl : callbacks.Lawful hasKeys)
    (h : Represents callbacks hasKeys hasCounts ht slots items) : Reports callbacks ht items where
  found := by
    intro i hi key hkey hequal
    obtain ⟨e₀, he₀, rfl⟩ := List.mem_map.mp (h.perm.mem_iff.mpr hi)
    have hfind := findBucketUnchecked_eq h.valid.holds h.valid.idx key
    rcases represents_lookup hl h key with ⟨j, e, rest, hlook, hs, hrest, -, hother⟩ | ⟨vacant, -, hother⟩
    · -- the entry that is found is the only one for the key
      obtain rfl : e₀ = e := by
        rcases List.mem_cons.mp (hrest.mem_iff.mp he₀) with heq | hmem
        · exact heq
        · exact absurd hequal (hother e₀ hmem)
      rw [hlook] at hfind
      refine ⟨⟨j, ?_, ?_⟩, ?_⟩
      · have hj := (List.getElem?_eq_some_iff.mp hs).1
        rwa [h.valid.holds.length] at hj
      · unfold CFBasicHash.findBucket
        rw [if_neg (by rw [hkey]; exact Bool.false_ne_true)]
        exact hfind
      · have hused : ht.usedBuckets ≠ 0 := by
          rw [h.valid.used]
          exact (List.length_pos_of_mem he₀).ne'
        unfold CFBasicHash.getCountOfKey
        rw [if_neg (by rw [hkey]; exact Bool.false_ne_true), if_neg hused, hfind]
        exact congrArg Except.ok (toCFIndex_of_le (h.count_le hi).2)
    · exact absurd hequal (hother e₀ he₀)
  absent := by
    intro key hnone
    have hfind := findBucketUnchecked_eq h.valid.holds h.valid.idx key
    have hvacant : ∃ vacant, ht.findBucketUnchecked key = .ok ⟨idxOf vacant, 0, 0, 0⟩ := by
      rcases represents_lookup hl h key with ⟨j, e, rest, -, -, hrest, hequal, -⟩ | ⟨vacant, hlook, -⟩
      · have hmem : e.item ∈ items :=
          h.perm.mem_iff.mp (List.mem_map_of_mem (hrest.mem_iff.mpr List.mem_cons_self))
        exact absurd hequal (hnone _ hmem)
      · exact ⟨vacant, by rw [hfind, hlook]; rfl⟩
    obtain ⟨vacant, hfind⟩ := hvacant
    refine ⟨?_, ?_⟩
    · unfold CFBasicHash.findBucket
      split
      · exact ⟨_, rfl, rfl⟩
      · exact ⟨_, hfind, rfl⟩
    · unfold CFBasicHash.getCountOfKey
      split
      · rfl
      · split
        · rfl
        · rw [hfind, ok_bind]
          exact congrArg Except.ok (toCFIndex_of_le (Nat.zero_le _))
  count := fun hmax => by rw [h.getCount_eq, toCFIndex_of_le hmax]

/-! ## Runs -/

/-- A table at some point of a run of legal operations and copies, with the items that
the run leaves. -/
inductive Follows (callbacks : Callbacks) (hasKeys hasCounts : Bool) : CFBasicHash → List Item → Prop
  | create (hashStyle : HashStyle) (fastGrow hasHashCache : Bool) :
    Follows callbacks hasKeys hasCounts (.create hashStyle fastGrow hasKeys hasCounts hasHashCache callbacks) []
  | operation {ht ht' : CFBasicHash} {items : List Item} (op : Operation) :
    Follows callbacks hasKeys hasCounts ht items → op.Legal → op.Keyed hasKeys → op.run ht = .ok ht' →
    Follows callbacks hasKeys hasCounts ht' (op.onItems callbacks hasKeys hasCounts items)
  | createCopy {ht ht' : CFBasicHash} {items : List Item} (junk : Nat → Word) :
    Follows callbacks hasKeys hasCounts ht items → ht.createCopy junk = .ok ht' →
    Follows callbacks hasKeys hasCounts ht' (items.map (callbacks.copiedItem hasKeys))

theorem represents_create (callbacks : Callbacks) (hasKeys hasCounts : Bool) (hashStyle : HashStyle)
    (fastGrow hasHashCache : Bool) :
    Represents callbacks hasKeys hasCounts (.create hashStyle fastGrow hasKeys hasCounts hasHashCache callbacks) [] [] where
  distinct := List.Pairwise.nil
  valid := valid_create ..
  callbacks := rfl
  hasKeys := rfl
  hasCounts := rfl
  paths := fun _ _ he => nomatch he
  coded := fun _ he => absurd he List.not_mem_nil
  perm := List.Perm.refl _

/-- The items of a run are those of the table. -/
theorem Follows.represents (hl : callbacks.Lawful hasKeys) (h : Follows callbacks hasKeys hasCounts ht items) :
    ∃ slots, Represents callbacks hasKeys hasCounts ht slots items := by
  induction h with
  | create hashStyle fastGrow hasHashCache => exact ⟨[], represents_create ..⟩
  | @operation ht ht' items op _ hlegal hkeyed hrun ih =>
    obtain ⟨slots, hr⟩ := ih
    by_cases hreq : op.Requests ht (op.found ht slots)
    · obtain ⟨ht₁, slots', hok, hr'⟩ := represents_run hl hr op hlegal hkeyed hreq
      obtain rfl : ht₁ = ht' := Except.ok.inj (hok.symm.trans hrun)
      exact ⟨slots', hr'⟩
    · obtain ⟨fault, herror, -⟩ := op.run_error hr.valid hlegal hreq
      rw [herror] at hrun
      cases hrun
  | @createCopy ht ht' items junk _ hcopy ih =>
    obtain ⟨slots, hr⟩ := ih
    obtain ⟨ht₁, slots', hok, hr'⟩ := represents_createCopy hl hr junk
    obtain rfl : ht₁ = ht' := Except.ok.inj (hok.symm.trans hcopy)
    exact ⟨slots', hr'⟩

/-- No entry is found exactly if no item has the key. -/
theorem found_eq_none_iff (hl : callbacks.Lawful hasKeys) (h : Represents callbacks hasKeys hasCounts ht slots items)
    (op : Operation) (hop : op.key? = some stackKey) :
    op.found ht slots = none ↔ ∀ i ∈ items, ¬ callbacks.equateKeys i.key stackKey := by
  rcases represents_lookup hl h stackKey with ⟨j, e, rest, hlook, -, hrest, hequal, -⟩ | ⟨vacant, hlook, hother⟩
  · rw [Operation.found_eq_some hop hlook]
    have hmem : e.item ∈ items := h.perm.mem_iff.mp (List.mem_map_of_mem (hrest.mem_iff.mpr List.mem_cons_self))
    exact ⟨(fun he => nomatch he), fun hno => absurd hequal (hno _ hmem)⟩
  · rw [Operation.found_eq_none hop hlook]
    refine ⟨fun _ i hi => ?_, fun _ => rfl⟩
    obtain ⟨e, he, rfl⟩ := List.mem_map.mp (h.perm.mem_iff.mpr hi)
    exact hother e he

/-- There is a size for an operation that asks for no more than the greatest capacity,
and in a table that does not grow fast only then. -/
theorem requests_of_within (hl : callbacks.Lawful hasKeys) (h : Represents callbacks hasKeys hasCounts ht slots items)
    (op : Operation) :
    (op.Within callbacks ht.fastGrow items → op.Requests ht (op.found ht slots)) ∧
      (ht.fastGrow = false → op.Requests ht (op.found ht slots) → op.Within callbacks ht.fastGrow items) := by
  have hused := h.usedBuckets_eq
  have hmax := h.valid.cap.trans (tableCapacity_mono h.valid.idx le_rfl)
  have hprev : tableCapacity (lastIdx - 1) ≤ tableCapacity lastIdx := by decide
  -- one more entry, with a new key
  have one : ∀ {k : Word}, op.key? = some k →
      (((∀ i ∈ items, ¬ callbacks.equateKeys i.key k) →
          items.length + 1 ≤ tableCapacity (if ht.fastGrow then lastIdx - 1 else lastIdx)) →
        op.found ht slots = none → ht.usedBuckets = tableCapacity ht.numBucketsIdx → Requestable ht 1) ∧
      (ht.fastGrow = false →
        (op.found ht slots = none → ht.usedBuckets = tableCapacity ht.numBucketsIdx → Requestable ht 1) →
        (∀ i ∈ items, ¬ callbacks.equateKeys i.key k) →
          items.length + 1 ≤ tableCapacity (if ht.fastGrow then lastIdx - 1 else lastIdx)) := by
    intro k hop
    have hnone := found_eq_none_iff hl h op hop
    refine ⟨fun hwithin hfound _ => ?_, fun hfast hreq hno => ?_⟩
    · have hle := hwithin (hnone.mp hfound)
      refine ⟨?_, fun hf _ => ?_⟩
      · show ht.usedBuckets + 1 ≤ _
        split at hle <;> omega
      · rw [if_pos hf] at hle
        omega
    · rw [hfast, if_neg Bool.false_ne_true]
      by_cases hfull : ht.usedBuckets = tableCapacity ht.numBucketsIdx
      · have hle : ht.usedBuckets + 1 ≤ _ := (hreq (hnone.mpr hno) hfull).1
        omega
      · have hcap := h.valid.cap
        have hidx := tableCapacity_mono h.valid.idx le_rfl
        omega
  cases op with
  | addValue k v => exact one rfl
  | setValue k v => exact one rfl
  | replaceValue k v => exact ⟨fun _ => trivial, fun _ _ => trivial⟩
  | removeValue k => exact ⟨fun _ => trivial, fun _ _ => trivial⟩
  | removeAllValues => exact ⟨fun _ => trivial, fun _ _ => trivial⟩
  | setCapacity capacity =>
    refine ⟨fun hwithin hlt => ⟨?_, fun hf hone => ?_⟩, fun hfast hreq => ⟨?_, fun hf => ?_⟩⟩
    · have := hwithin.1
      omega
    · have := hwithin.2 hf (by omega)
      omega
    · by_cases hlt : (ht.usedBuckets : Int) < capacity
      · have := (hreq hlt).1
        omega
      · omega
    · rw [hfast] at hf
      cases hf

/-- A table refines its items: at any point of a run it reports them, and a legal
operation that asks for no more than the greatest capacity ends; a table that does
not grow fast halts at any other. -/
theorem table_reports_items (hl : callbacks.Lawful hasKeys) (h : Follows callbacks hasKeys hasCounts ht items) :
    Reports callbacks ht items ∧
    ∀ op : Operation, op.Legal → op.Keyed hasKeys →
      (op.Within callbacks ht.fastGrow items → ∃ ht', op.run ht = .ok ht') ∧
      (ht.fastGrow = false → ¬ op.Within callbacks ht.fastGrow items → op.run ht = .error .halt) := by
  obtain ⟨slots, hr⟩ := h.represents hl
  refine ⟨represents_reports hl hr, fun op hlegal hkeyed => ?_⟩
  obtain ⟨hreq, hback⟩ := requests_of_within hl hr op
  refine ⟨fun hwithin => ?_, fun hfast hno => ?_⟩
  · obtain ⟨ht', _, hrun, -⟩ := represents_run hl hr op hlegal hkeyed (hreq hwithin)
    exact ⟨ht', hrun⟩
  · obtain ⟨fault, herror, hfault⟩ := op.run_error hr.valid hlegal fun hreq => hno (hback hfast hreq)
    rw [herror, hfault hfast]

end

theorem Callbacks.words_lawful (hasKeys : Bool) : Callbacks.words.Lawful hasKeys where
  toAccepted := Callbacks.words_accepted
  refl := fun _ => beq_self_eq_true _
  symm := fun h => by
    rw [eq_of_beq h]
    exact beq_self_eq_true _
  trans := fun h h' => by
    rw [eq_of_beq h]
    exact h'
  hash := fun h => eq_of_beq h
  retained := fun _ => by
    split <;> exact beq_self_eq_true _

/-- The words 0 and `~0` as keys. -/
theorem table_reports_items_words :
    ∃ ht, (Operation.addValue 0 allOnes).run (.create .double false true true true .words) = .ok ht ∧
      Reports .words ht [⟨0, allOnes, 1⟩] := by
  obtain ⟨ht, hrun⟩ : ∃ ht, (Operation.addValue 0 allOnes).run (.create .double false true true true .words) = .ok ht :=
    ⟨_, rfl⟩
  have hfollows : Follows .words true true ht [⟨0, allOnes, 1⟩] :=
    .operation (.addValue 0 allOnes) (.create ..) (by decide) (fun h => nomatch h) hrun
  exact ⟨ht, hrun, (table_reports_items (Callbacks.words_lawful true) hfollows).1⟩

/-- A key that is added `n` times is counted up to `LONG_MAX`. -/
theorem represents_adds {n : Nat} (hn : 1 ≤ n) :
    ∃ ht slots, (List.replicate n (Operation.addValue 5 50)).foldlM Operation.run
        (.create .linear false true true false .words) = .ok ht ∧
      Represents .words true true ht slots [⟨5, 50, min n longMax⟩] := by
  have hl := Callbacks.words_lawful true
  have hlegal : (Operation.addValue 5 50).Legal := by decide
  induction n, hn using Nat.le_induction with
  | base =>
    have hstart := represents_create .words true true .linear false false
    obtain ⟨ht, slots, hrun, hr⟩ := represents_run hl hstart (.addValue 5 50) hlegal (fun h => nomatch h)
      ((requests_of_within hl hstart _).1 fun _ => by decide)
    exact ⟨ht, slots, by rw [List.replicate_one, List.foldlM_cons, hrun]; rfl, hr⟩
  | succ n _ ih =>
    obtain ⟨ht, slots, hrun, hr⟩ := ih
    obtain ⟨ht', slots', hrun', hr'⟩ := represents_run hl hr (.addValue 5 50) hlegal (fun h => nomatch h)
      ((requests_of_within hl hr _).1 fun hno => absurd (beq_self_eq_true _) (hno _ List.mem_cons_self))
    refine ⟨ht', slots', ?_, ?_⟩
    · rw [List.replicate_succ', List.foldlM_append, hrun, ok_bind, List.foldlM_cons, hrun']
      rfl
    · have hitems : (Operation.addValue 5 50).onItems .words true true [⟨5, 50, min n longMax⟩] =
          [⟨5, 50, min (n + 1) longMax⟩] := by
        show [Item.more true ⟨5, 50, min n longMax⟩] = _
        unfold Item.more
        by_cases hlt : n < longMax
        · rw [if_pos ⟨rfl, by show min n longMax < longMax; omega⟩]
          show [Item.mk 5 50 (min n longMax + 1)] = _
          rw [Nat.min_eq_left hlt.le, Nat.min_eq_left hlt]
        · rw [if_neg fun h => absurd h.2 (by show ¬ min n longMax < longMax; omega),
            Nat.min_eq_right (by omega), Nat.min_eq_right (by omega)]
      rwa [hitems] at hr'

/-- A multiplicity does not pass `LONG_MAX`, and no table has more than the greatest
capacity. -/
theorem adds_saturate_and_capacity_halts :
    (∃ ht, (List.replicate (2 ^ 63) (Operation.addValue 5 50)).foldlM Operation.run
        (.create .linear false true true false .words) = .ok ht ∧ ht.getCountOfKey 5 = .ok (2 ^ 63 - 1)) ∧
      (Operation.setCapacity 3241355161).run (.create .linear false true true false .words) = .error .halt := by
  refine ⟨?_, ?_⟩
  swap
  · obtain ⟨fault, herror, hfault⟩ := (Operation.setCapacity 3241355161).run_error
      (valid_create .linear false true true false .words) trivial fun hreq => absurd (hreq (by decide)).1 (by decide)
    rw [herror, hfault rfl]
  obtain ⟨ht, slots, hrun, hr⟩ := represents_adds (show 1 ≤ 2 ^ 63 by norm_num)
  rw [Nat.min_eq_right (show longMax ≤ 2 ^ 63 by decide)] at hr
  have hcount := ((represents_reports (Callbacks.words_lawful true) hr).found _ List.mem_cons_self 5 (by decide)
    (beq_self_eq_true _)).2
  refine ⟨ht, hrun, hcount.trans (congrArg Except.ok ?_)⟩
  show ((longMax : Nat) : Int) = 2 ^ 63 - 1
  norm_num [longMax]

end CFLite.BasicHash
