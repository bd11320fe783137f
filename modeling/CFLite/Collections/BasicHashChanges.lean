import CFLite.Collections.BasicHashBuckets

/-!
# Changing one bucket of a `CFBasicHash`

What is written and ejected when a bucket is filled, replaced, counted, cleared or
moved. Each of these changes one slot, and ejects what was live in it.

* `Kept`: what no change of a table changes;
* `setValue_eq`, `setKey_eq`, `incSlotCount_eq`, `decSlotCount_eq`: one array;
* `fillBucket_spec`, `replaceValueAt_spec`, `clearBucket_spec`, `moveBucket_spec`:
  all of them.
-/

namespace CFLite.BasicHash

open Framework

/-- What stays the same in a table. -/
structure Kept (ht ht' : CFBasicHash) : Prop where
  isMutable : ht'.isMutable = ht.isMutable
  hashStyle : ht'.hashStyle = ht.hashStyle
  fastGrow : ht'.fastGrow = ht.fastGrow
  hasKeys : ht'.hasKeys = ht.hasKeys
  hasCounts : ht'.hasCounts = ht.hasCounts
  hasHashCache : ht'.hasHashCache = ht.hasHashCache
  finalized : ht'.finalized = ht.finalized
  callbacks : ht'.callbacks = ht.callbacks

namespace Kept

variable {ht ht' ht'' : CFBasicHash}

theorem refl (ht : CFBasicHash) : Kept ht ht := ⟨rfl, rfl, rfl, rfl, rfl, rfl, rfl, rfl⟩

theorem trans (h : Kept ht ht') (h' : Kept ht' ht'') : Kept ht ht'' :=
  ⟨h'.isMutable.trans h.isMutable, h'.hashStyle.trans h.hashStyle, h'.fastGrow.trans h.fastGrow,
    h'.hasKeys.trans h.hasKeys, h'.hasCounts.trans h.hasCounts, h'.hasHashCache.trans h.hasHashCache,
    h'.finalized.trans h.finalized, h'.callbacks.trans h.callbacks⟩

end Kept

theorem countMax_mono {w w' : Nat} (h : w ≤ w') : countMax w ≤ countMax w' := by
  have h1 : 2 ^ w ≤ 2 ^ w' := Nat.pow_le_pow_right (by norm_num) h
  have h2 : 2 ^ (8 * 2 ^ w - 1) ≤ 2 ^ (8 * 2 ^ w' - 1) := Nat.pow_le_pow_right (by norm_num) (by omega)
  exact Nat.sub_le_sub_right h2 1

theorem countMax_three : countMax 3 = longMax := rfl

theorem countMax_pos (w : Nat) : 0 < countMax w := lt_of_lt_of_le (by decide) (countMax_mono (Nat.zero_le w))

section

variable {ht ht' : CFBasicHash} {slots : List (Slot Entry)} {j : Nat} {s : Slot Entry} {e : Entry}

theorem set_of_getElem? {α : Type} {xs : List α} {x : α} (h : xs[j]? = some x) : xs.set j x = xs := by
  obtain ⟨hj, rfl⟩ := List.getElem?_eq_some_iff.mp h
  exact List.set_getElem_self hj

/-- What is ejected from the array of values, or of keys, when `s` is overwritten. -/
def valueEjects : Slot Entry → List Event
  | .live e => [.ejectValue e.value]
  | _ => []

def keyEjects : Slot Entry → List Event
  | .live e => [.ejectKey e.key]
  | _ => []

theorem valueEjects_free (h : s.Free) : valueEjects s = [] := by
  cases s <;> first | rfl | cases h

theorem keyEjects_free (h : s.Free) : keyEjects s = [] := by
  cases s <;> first | rfl | cases h

theorem setValue_eq (hv : ht.values[j]? = some (rawValue s)) (hs : ∀ e, s = .live e → reserved e.value = false)
    (value : Word) (literal : Bool) :
    ht.setValue j value false literal =
      .ok { ht with values := ht.values.set j (if literal then value else stored value)
                    log := ht.log ++ valueEjects s } := by
  unfold CFBasicHash.setValue
  simp only [Bool.false_eq_true, if_false, cell_of_getElem? hv, setCell_of_getElem? hv, ok_bind, Bool.false_or]
  cases s with
  | empty => simp [rawValue, valueEjects, pure_eq_ok]
  | deleted => simp [rawValue, valueEjects, pure_eq_ok]
  | live e =>
    rw [rawValue, decide_eq_false (stored_ne_zero _), decide_eq_false (stored_ne_allOnes _),
      unstored_stored (hs e rfl)]
    rfl

theorem setKey_eq (hk : ht.hasKeys) (hv : ht.keys[j]? = some (rawKey s))
    (hs : ∀ e, s = .live e → reserved e.key = false) (key : Word) (literal : Bool) :
    ht.setKey j key false literal =
      .ok { ht with keys := ht.keys.set j (if literal then key else stored key)
                    log := ht.log ++ keyEjects s } := by
  unfold CFBasicHash.setKey
  simp only [hk, Bool.not_true, Bool.false_eq_true, if_false, cell_of_getElem? hv, setCell_of_getElem? hv, ok_bind,
    Bool.false_or]
  cases s with
  | empty => simp [rawKey, keyEjects, pure_eq_ok]
  | deleted => simp [rawKey, keyEjects, pure_eq_ok]
  | live e =>
    rw [rawKey, decide_eq_false (stored_ne_zero _), decide_eq_false (stored_ne_allOnes _),
      unstored_stored (hs e rfl)]
    rfl

/-- A count below `LONG_MAX` is counted up, in a wider array if it has to be. -/
theorem incSlotCount_eq {count : Nat} (hc : ht.counts[j]? = some count) (hw : ht.countsWidth ≤ 3)
    (hcount : count ≤ countMax ht.countsWidth) (hlt : count < longMax) :
    ∃ width, ht.countsWidth ≤ width ∧ width ≤ 3 ∧ count + 1 ≤ countMax width ∧
      (count < countMax ht.countsWidth → width = ht.countsWidth) ∧
      ht.incSlotCount j = .ok { ht with countsWidth := width, counts := ht.counts.set j (count + 1) } := by
  unfold CFBasicHash.incSlotCount
  rw [CFBasicHash.incSlotCountWithin, CFBasicHash.getSlotCount, cell_of_getElem? hc, ok_bind]
  by_cases hroom : count < countMax ht.countsWidth
  · refine ⟨ht.countsWidth, le_rfl, hw, hroom, fun _ => rfl, ?_⟩
    rw [if_pos hroom, setCell_of_getElem? hc]
    rfl
  · have hmax : count = countMax ht.countsWidth := le_antisymm hcount (Nat.not_lt.mp hroom)
    have hw3 : ht.countsWidth < 3 := by
      refine lt_of_le_of_ne hw fun h3 => ?_
      rw [h3, countMax_three] at hmax
      omega
    have hnext : count < countMax (ht.countsWidth + 1) := by
      have hpow : 2 ^ ht.countsWidth < 2 ^ (ht.countsWidth + 1) := Nat.pow_lt_pow_right (by norm_num) (Nat.lt_succ_self _)
      have hone : 1 ≤ 2 ^ ht.countsWidth := Nat.one_le_two_pow
      have hlt' : 2 ^ (8 * 2 ^ ht.countsWidth - 1) < 2 ^ (8 * 2 ^ (ht.countsWidth + 1) - 1) :=
        Nat.pow_lt_pow_right (by norm_num) (by omega)
      have hpos : 1 ≤ 2 ^ (8 * 2 ^ ht.countsWidth - 1) := Nat.one_le_two_pow
      rw [hmax, countMax, countMax]
      omega
    refine ⟨ht.countsWidth + 1, Nat.le_succ _, hw3, hnext, fun h => absurd h hroom, ?_⟩
    rw [if_neg hroom, CFBasicHash.bumpCounts, if_pos hw3, pure_eq_ok, ok_bind, CFBasicHash.incSlotCountWithin]
    simp only [CFBasicHash.getSlotCount, cell_of_getElem? hc, ok_bind, if_pos hnext, setCell_of_getElem? hc]
    rfl

theorem decSlotCount_eq {count : Nat} (hc : ht.counts[j]? = some count) (hpos : 0 < count)
    (hcount : count ≤ countMax ht.countsWidth) :
    ht.decSlotCount j = .ok { ht with counts := ht.counts.set j (count - 1) } := by
  have hcells : countMax ht.countsWidth < 2 ^ (8 * 2 ^ ht.countsWidth) := by
    have : 2 ^ (8 * 2 ^ ht.countsWidth - 1) ≤ 2 ^ (8 * 2 ^ ht.countsWidth) :=
      Nat.pow_le_pow_right (by norm_num) (Nat.sub_le _ _)
    have := Nat.two_pow_pos (8 * 2 ^ ht.countsWidth)
    rw [countMax]
    omega
  have hmod : (count + 2 ^ (8 * 2 ^ ht.countsWidth) - 1) % 2 ^ (8 * 2 ^ ht.countsWidth) = count - 1 := by
    rw [Nat.sub_add_comm hpos, Nat.add_mod_right, Nat.mod_eq_of_lt (by omega)]
  unfold CFBasicHash.decSlotCount
  simp only [CFBasicHash.getSlotCount, cell_of_getElem? hc, ok_bind, setCell_of_getElem? hc, hmod]
  rfl

theorem Fits.mono (h : Fits ht e) (hk : ht'.hasKeys = ht.hasKeys) (hc : ht'.hasCounts = ht.hasCounts)
    (hw : ht.countsWidth ≤ ht'.countsWidth) : Fits ht' e := by
  refine ⟨h.key, h.value, by rw [hk]; exact h.keyed, h.pos, h.count.trans ?_⟩
  rw [hc]
  split
  · exact countMax_mono hw
  · exact le_rfl

/-- All the arrays are changed in one bucket. -/
theorem Holds.set (h : Holds ht slots) (hkept : Kept ht ht') (hidx : ht'.numBucketsIdx = ht.numBucketsIdx)
    {new : Slot Entry} (hvalues : ht'.values = ht.values.set j (rawValue new))
    (hkeys : ht.hasKeys → ht'.keys = ht.keys.set j (rawKey new))
    (hcounts : ht.hasCounts → ht'.counts = ht.counts.set j (rawCount new))
    (hhashes : ht.hasHashCache → ht'.hashes = ht.hashes.set j (rawHash new))
    (hw : ht.countsWidth ≤ ht'.countsWidth) (hw3 : ht'.countsWidth ≤ 3) (hnew : ∀ e, new = .live e → Fits ht' e) :
    Holds ht' (slots.set j new) where
  length := by rw [List.length_set, h.length, hidx]
  values := by rw [hvalues, h.values, List.map_set]
  keys hk := by rw [hkept.hasKeys] at hk; rw [hkeys hk, h.keys hk, List.map_set]
  counts hk := by rw [hkept.hasCounts] at hk; rw [hcounts hk, h.counts hk, List.map_set]
  hashes hk := by rw [hkept.hasHashCache] at hk; rw [hhashes hk, h.hashes hk, List.map_set]
  width := hw3
  fits e he := by
    obtain ⟨i, hi⟩ := mem_entries_iff.mp he
    rcases live_set hi with ⟨-, he'⟩ | ⟨-, hi⟩
    · exact hnew e he'
    · exact (h.fits_of_live hi).mono hkept.hasKeys hkept.hasCounts hw

theorem Holds.value_at (h : Holds ht slots) (hs : slots[j]? = some s) : ht.values[j]? = some (rawValue s) := by
  rw [h.values, List.getElem?_map, hs]
  rfl

theorem Holds.key_at (h : Holds ht slots) (hk : ht.hasKeys) (hs : slots[j]? = some s) :
    ht.keys[j]? = some (rawKey s) := by
  rw [h.keys hk, List.getElem?_map, hs]
  rfl

theorem Holds.count_at (h : Holds ht slots) (hk : ht.hasCounts) (hs : slots[j]? = some s) :
    ht.counts[j]? = some (rawCount s) := by
  rw [h.counts hk, List.getElem?_map, hs]
  rfl

theorem Holds.hash_at (h : Holds ht slots) (hk : ht.hasHashCache) (hs : slots[j]? = some s) :
    ht.hashes[j]? = some (rawHash s) := by
  rw [h.hashes hk, List.getElem?_map, hs]
  rfl

/-! ## Filling, replacing, clearing and moving -/

/-- `ht'` is `ht` with the slots `slots`, and `events` is what the callbacks were
called for on the way. -/
structure Changed (ht : CFBasicHash) (slots : List (Slot Entry)) (events : List Event) (ht' : CFBasicHash) : Prop where
  kept : Kept ht ht'
  holds : Holds ht' slots
  idx : ht'.numBucketsIdx = ht.numBucketsIdx
  log : ht'.log = ht.log ++ events

theorem importKeyIf_eq (key : Word) :
    ht.importKeyIf key =
      (if ht.hasKeys then ht.callbacks.retainKey key else key,
        { ht with log := ht.log ++ if ht.hasKeys then [.importKey (ht.callbacks.retainKey key)] else [] }) := by
  unfold CFBasicHash.importKeyIf
  by_cases hk : ht.hasKeys
  · simp only [if_pos hk, CFBasicHash.importKey]
  · simp only [if_neg hk, List.append_nil]

theorem setKeyIf_eq (hv : ht.hasKeys → ht.keys[j]? = some (rawKey s))
    (hs : ∀ e, s = .live e → reserved e.key = false) (key : Word) (literal : Bool) :
    (if ht.hasKeys then ht.setKey j key false literal else .ok ht) =
      .ok { ht with keys := if ht.hasKeys then ht.keys.set j (if literal then key else stored key) else ht.keys
                    log := ht.log ++ if ht.hasKeys then keyEjects s else [] } := by
  by_cases hk : ht.hasKeys
  · simp only [if_pos hk, setKey_eq hk (hv hk) hs]
  · simp only [if_neg hk, List.append_nil]

theorem setHashIf_eq (hv : ht.hasHashCache → ht.hashes[j]? = some (rawHash s)) (hash : Word) :
    (if ht.hasHashCache then do
        return { ht with hashes := ← setCell ht.hashes j hash } else .ok ht : Except Fault CFBasicHash) =
      .ok { ht with hashes := if ht.hasHashCache then ht.hashes.set j hash else ht.hashes } := by
  by_cases hk : ht.hasHashCache
  · simp only [if_pos hk, setCell_of_getElem? (hv hk), ok_bind, pure_eq_ok]
  · simp only [if_neg hk]

theorem incSlotCountIf_eq (hv : ht.hasCounts → ht.counts[j]? = some 0) (hw : ht.countsWidth ≤ 3) :
    (if ht.hasCounts then ht.incSlotCount j else .ok ht) =
      .ok { ht with counts := if ht.hasCounts then ht.counts.set j 1 else ht.counts } := by
  by_cases hk : ht.hasCounts
  · obtain ⟨width, -, -, -, hwidth, heq⟩ := incSlotCount_eq (hv hk) hw (Nat.zero_le _) (by decide)
    obtain rfl := hwidth (countMax_pos _)
    simp only [if_pos hk, heq]
  · simp only [if_neg hk]

theorem decSlotCountIf_eq (hv : ht.hasCounts → ht.counts[j]? = some 1) :
    (if ht.hasCounts then ht.decSlotCount j else .ok ht) =
      .ok { ht with counts := if ht.hasCounts then ht.counts.set j 0 else ht.counts } := by
  by_cases hk : ht.hasCounts
  · simp only [if_pos hk, decSlotCount_eq (hv hk) Nat.one_pos (countMax_pos _)]
  · simp only [if_neg hk]

/-- What is imported for an entry. -/
def imports (ht : CFBasicHash) (stackKey stackValue : Word) : List Event :=
  .importValue (ht.callbacks.retainValue stackValue) ::
    if ht.hasKeys then [.importKey (ht.callbacks.retainKey stackKey)] else []

/-- What is ejected for the entry of a slot. -/
def ejects (ht : CFBasicHash) (s : Slot Entry) : List Event :=
  valueEjects s ++ if ht.hasKeys then keyEjects s else []

/-- The key that is stored for an entry. -/
def importedKey (ht : CFBasicHash) (stackKey stackValue : Word) : Word :=
  if ht.hasKeys then ht.callbacks.retainKey stackKey else ht.callbacks.retainValue stackValue

/-- The entry that is added for a key. -/
def newEntry (ht : CFBasicHash) (stackKey stackValue : Word) : Entry where
  key := importedKey ht stackKey stackValue
  value := ht.callbacks.retainValue stackValue
  count := 1
  hash := ht.callbacks.hashKey stackKey

/-- What an entry is replaced by. -/
def replaced (ht : CFBasicHash) (stackKey stackValue : Word) (e : Entry) : Entry :=
  { e with key := importedKey ht stackKey stackValue, value := ht.callbacks.retainValue stackValue }

theorem fillBucket_spec (h : Holds ht slots) (hs : slots[j]? = some s) (hfree : s.Free) {stackKey stackValue : Word}
    (hfit : Fits ht (newEntry ht stackKey stackValue)) :
    ∃ ht', ht.fillBucket j stackKey stackValue = .ok ht' ∧
      Changed ht (slots.set j (.live (newEntry ht stackKey stackValue))) (imports ht stackKey stackValue) ht' ∧
      ht'.usedBuckets = (ht.usedBuckets + 1) % 2 ^ 32 := by
  have hnolive : ∀ e, s = .live e → False := fun e he => by subst he; cases hfree
  have hcount : rawCount s = 0 := by cases s <;> first | rfl | cases hfree
  unfold CFBasicHash.fillBucket
  simp only [CFBasicHash.importValue, importKeyIf_eq]
  rw [setValue_eq (by exact h.value_at hs) fun e he => (hnolive e he).elim, ok_bind,
    setKeyIf_eq (by exact fun hk => h.key_at hk hs) fun e he => (hnolive e he).elim, ok_bind,
    incSlotCountIf_eq (by exact fun hc => hcount ▸ h.count_at hc hs) (by exact h.width), ok_bind,
    setHashIf_eq (by exact fun hh => h.hash_at hh hs), ok_bind]
  refine ⟨_, rfl, ⟨⟨rfl, rfl, rfl, rfl, rfl, rfl, rfl, rfl⟩, ?_, rfl, ?_⟩, rfl⟩
  · refine h.set ?_ ?_ ?_ (fun hk => ?_) (fun hc => ?_) (fun hh => ?_) ?_ h.width fun e he => ?_
    · exact ⟨rfl, rfl, rfl, rfl, rfl, rfl, rfl, rfl⟩
    · rfl
    · rfl
    · simp only [rawKey, newEntry, importedKey, if_pos hk, Bool.false_eq_true, if_false]
    · exact if_pos hc
    · exact if_pos hh
    · exact le_rfl
    · cases he
      exact hfit.mono rfl rfl le_rfl
  · simp only [imports, valueEjects_free hfree, keyEjects_free hfree, ite_self, List.append_assoc, List.append_nil,
      List.singleton_append]

theorem replaceValueAt_spec (h : Holds ht slots) (hs : slots[j]? = some (.live e)) {stackKey stackValue : Word}
    (hfit : Fits ht (replaced ht stackKey stackValue e)) :
    ∃ ht', ht.replaceValueAt j stackKey stackValue = .ok ht' ∧
      Changed ht (slots.set j (.live (replaced ht stackKey stackValue e)))
        (imports ht stackKey stackValue ++ ejects ht (.live e)) ht' ∧ ht'.usedBuckets = ht.usedBuckets := by
  have hfits := h.fits_of_live hs
  unfold CFBasicHash.replaceValueAt
  simp only [CFBasicHash.importValue, CFBasicHash.mutate, importKeyIf_eq]
  rw [setValue_eq (by exact h.value_at hs) fun e' he => Slot.live.inj he ▸ hfits.value, ok_bind, pure_eq_ok,
    setKeyIf_eq (by exact fun hk => h.key_at hk hs) fun e' he => Slot.live.inj he ▸ hfits.key]
  refine ⟨_, rfl, ⟨⟨rfl, rfl, rfl, rfl, rfl, rfl, rfl, rfl⟩, ?_, rfl, ?_⟩, rfl⟩
  · refine h.set ?_ ?_ ?_ (fun hk => ?_) (fun hc => ?_) (fun hh => ?_) ?_ h.width fun e' he => ?_
    · exact ⟨rfl, rfl, rfl, rfl, rfl, rfl, rfl, rfl⟩
    · rfl
    · rfl
    · simp only [rawKey, replaced, importedKey, if_pos hk, Bool.false_eq_true, if_false]
    · exact (set_of_getElem? (h.count_at hc hs)).symm
    · exact (set_of_getElem? (h.hash_at hh hs)).symm
    · exact le_rfl
    · cases he
      exact hfit.mono rfl rfl le_rfl
  · simp only [imports, ejects, List.append_assoc, List.cons_append, List.nil_append]

theorem clearBucket_spec (h : Holds ht slots) (hs : slots[j]? = some (.live e)) (hone : e.count = 1) :
    ∃ ht', ht.clearBucket j = .ok ht' ∧ Changed ht (slots.set j .deleted) (ejects ht (.live e)) ht' ∧
      ht'.usedBuckets = (ht.usedBuckets + 2 ^ 32 - 1) % 2 ^ 32 := by
  have hfits := h.fits_of_live hs
  have hcount : ht.hasCounts → ht.counts[j]? = some 1 := fun hc => by rw [h.count_at hc hs, rawCount, hone]
  unfold CFBasicHash.clearBucket
  rw [setValue_eq (by exact h.value_at hs) fun e' he => Slot.live.inj he ▸ hfits.value, ok_bind,
    setKeyIf_eq (by exact fun hk => h.key_at hk hs) fun e' he => Slot.live.inj he ▸ hfits.key, ok_bind,
    decSlotCountIf_eq (by exact hcount), ok_bind,
    setHashIf_eq (by exact fun hh => h.hash_at hh hs), ok_bind]
  refine ⟨_, rfl, ⟨⟨rfl, rfl, rfl, rfl, rfl, rfl, rfl, rfl⟩, ?_, rfl, ?_⟩, rfl⟩
  · refine h.set ?_ ?_ ?_ (fun hk => ?_) (fun hc => ?_) (fun hh => ?_) ?_ h.width fun e' he => by cases he
    · exact ⟨rfl, rfl, rfl, rfl, rfl, rfl, rfl, rfl⟩
    · rfl
    · rfl
    · exact if_pos hk
    · exact if_pos hc
    · exact if_pos hh
    · exact le_rfl
  · simp only [ejects, List.append_assoc]

theorem moveCountIf_eq {oldCounts : List Nat} {i count c : Nat} (hv : ht.hasCounts → ht.counts[j]? = some c)
    (hc : ht.hasCounts → oldCounts[i]? = some count) :
    (if ht.hasCounts then do
        return { ht with counts := ← setCell ht.counts j (← cell oldCounts i) } else .ok ht : Except Fault CFBasicHash) =
      .ok { ht with counts := if ht.hasCounts then ht.counts.set j count else ht.counts } := by
  by_cases hk : ht.hasCounts
  · simp only [if_pos hk, cell_of_getElem? (hc hk), setCell_of_getElem? (hv hk), ok_bind, pure_eq_ok]
  · simp only [if_neg hk]

theorem moveHashIf_eq {oldHashes : List Word} {i : Nat} {hash c : Word}
    (hv : ht.hasHashCache → ht.hashes[j]? = some c) (hc : ht.hasHashCache → oldHashes[i]? = some hash) :
    (if ht.hasHashCache then do
        return { ht with hashes := ← setCell ht.hashes j (← cell oldHashes i) } else return ht : Except Fault CFBasicHash) =
      .ok { ht with hashes := if ht.hasHashCache then ht.hashes.set j hash else ht.hashes } := by
  by_cases hk : ht.hasHashCache
  · simp only [if_pos hk, cell_of_getElem? (hc hk), setCell_of_getElem? (hv hk), ok_bind, pure_eq_ok]
  · simp only [if_neg hk, pure_eq_ok]

/-- The hash code by which a rehash finds the place for `e`. -/
def rehashCode (ht : CFBasicHash) (e : Entry) : Word :=
  let keyHash := if ht.hasHashCache then e.hash else 0
  if keyHash = 0 then ht.callbacks.hashKey e.key else keyHash

theorem moveBucket_free {old : CFBasicHash} {oldSlots : List (Slot Entry)} (hold : Holds old oldSlots)
    (hs : oldSlots[j]? = some s) (hfree : s.Free) (ht : CFBasicHash) : old.moveBucket ht j = .ok ht := by
  unfold CFBasicHash.moveBucket
  rw [hold.cell_values hs, ok_bind]
  cases s with
  | empty => simp [rawValue, pure_eq_ok]
  | deleted => simp [rawValue, pure_eq_ok]
  | live e => cases hfree

/-- A live bucket is looked up by its hash code and written. -/
theorem moveBucket_live {old : CFBasicHash} {oldSlots : List (Slot Entry)} (hold : Holds old oldSlots)
    (hs : oldSlots[j]? = some (.live e)) (hk : ht.hasKeys = old.hasKeys) (hh : ht.hasHashCache = old.hasHashCache) :
    old.moveBucket ht j =
      ht.findBucketNoCollision e.key (if ht.hasHashCache then e.hash else 0) >>= fun bktIdx =>
        old.placeBucket ht j bktIdx e.value e.key := by
  have hfits := hold.fits_of_live hs
  have hkey : (if ht.hasKeys then do return unstored (← cell old.keys j) else .ok e.value : Except Fault Word) =
      .ok e.key := by
    by_cases h : ht.hasKeys
    · rw [if_pos h, hold.cell_keys (hk ▸ h) hs, ok_bind, rawKey, unstored_stored hfits.key]
      rfl
    · rw [if_neg h, hfits.keyed (hk ▸ Bool.eq_false_iff.mpr h)]
  have hhash : (if ht.hasHashCache then cell old.hashes j else .ok 0) =
      .ok (if ht.hasHashCache then e.hash else 0) := by
    by_cases h : ht.hasHashCache
    · rw [if_pos h, if_pos h, hold.cell_hashes (hh ▸ h) hs]
      rfl
    · rw [if_neg h, if_neg h]
  unfold CFBasicHash.moveBucket
  rw [hold.cell_values hs, ok_bind, rawValue, decide_eq_false (stored_ne_zero _),
    decide_eq_false (stored_ne_allOnes _), unstored_stored hfits.value]
  simp only [Bool.or_self, Bool.false_eq_true, if_false, hkey, hhash, ok_bind]

theorem moveBucket_spec {old : CFBasicHash} {oldSlots : List (Slot Entry)} {i : Nat} (hold : Holds old oldSlots)
    (hs : oldSlots[j]? = some (.live e)) (h : Holds ht slots) (hkept : Kept old ht)
    (hwidth : ht.countsWidth = old.countsWidth) (h0 : 0 < ht.numBucketsIdx) (hidx : ht.numBucketsIdx ≤ lastIdx)
    (hi : firstEmpty slots (pathOf ht (rehashCode ht e)) = some i) :
    ∃ ht', old.moveBucket ht j = .ok ht' ∧ Changed ht (slots.set i (.live e)) [] ht' ∧
      ht'.usedBuckets = ht.usedBuckets ∧ ht'.countsWidth = ht.countsWidth := by
  have hempty := (firstEmpty_eq_some hi).2
  have hcode : firstEmpty slots (pathOf ht (if (if ht.hasHashCache then e.hash else 0) = 0 then
      ht.callbacks.hashKey e.key else if ht.hasHashCache then e.hash else 0)) = some i := hi
  rw [moveBucket_live hold hs hkept.hasKeys hkept.hasHashCache, findBucketNoCollision_eq h h0 hidx, hcode, ok_bind,
    idxOf, CFBasicHash.placeBucket]
  rw [setValue_eq (by exact h.value_at hempty) (by intro _ he; cases he), ok_bind,
    setKeyIf_eq (by exact fun hk => h.key_at hk hempty) (by intro _ he; cases he), ok_bind,
    moveCountIf_eq (by exact fun hk => h.count_at hk hempty) (by exact fun hk => hold.count_at (hkept.hasCounts ▸ hk) hs),
    ok_bind,
    moveHashIf_eq (by exact fun hk => h.hash_at hk hempty)
      (by exact fun hk => hold.hash_at (hkept.hasHashCache ▸ hk) hs)]
  refine ⟨_, rfl, ⟨⟨rfl, rfl, rfl, rfl, rfl, rfl, rfl, rfl⟩, ?_, rfl, ?_⟩, rfl, rfl⟩
  · refine h.set ?_ ?_ ?_ (fun hk => ?_) (fun hc => ?_) (fun hh => ?_) ?_ h.width fun e' he => ?_
    · exact ⟨rfl, rfl, rfl, rfl, rfl, rfl, rfl, rfl⟩
    · rfl
    · rfl
    · exact if_pos hk
    · exact if_pos hc
    · exact if_pos hh
    · exact le_rfl
    · cases he
      exact (hold.fits_of_live hs).mono hkept.hasKeys hkept.hasCounts hwidth.ge
  · simp only [valueEjects, keyEjects, ite_self, List.append_nil]

end

end CFLite.BasicHash
