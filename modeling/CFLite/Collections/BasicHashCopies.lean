import CFLite.Collections.BasicHashOperations

/-!
# Emptying and copying a `CFBasicHash`

Both go through all the buckets. To empty a table ejects every entry; to copy it
imports every entry for the copy, which gets its buckets in the same places, the
deleted ones as well.

* `drain_becomes`: nothing is left;
* `createCopy_spec`: the entries of a copy.
-/

namespace CFLite.BasicHash

open Framework

/-- The retain callbacks give words that a table can hold. -/
structure Callbacks.Accepted (callbacks : Callbacks) : Prop where
  value : ∀ word, reserved word = false → reserved (callbacks.retainValue word) = false
  key : ∀ word, reserved word = false → reserved (callbacks.retainKey word) = false

section

variable {ht : CFBasicHash} {slots : List (Slot Entry)}

/-- What is ejected with all the buckets, in order. -/
def allEjects (ht : CFBasicHash) (slots : List (Slot Entry)) : List Event := slots.flatMap (ejects ht)

theorem drainBucket_eq (h : Holds ht slots) {i : Nat} {s : Slot Entry} (hs : slots[i]? = some s) (ht' : CFBasicHash) :
    ht.drainBucket ht' i = .ok { ht' with log := ht'.log ++ ejects ht s } := by
  unfold CFBasicHash.drainBucket
  rw [h.cell_values hs, ok_bind]
  cases s with
  | empty => simp [rawValue, ejects, valueEjects, keyEjects, pure_eq_ok]
  | deleted => simp [rawValue, ejects, valueEjects, keyEjects, pure_eq_ok]
  | live e =>
    have hfits := h.fits_of_live hs
    rw [rawValue, decide_eq_false (stored_ne_zero _), decide_eq_false (stored_ne_allOnes _),
      unstored_stored hfits.value]
    by_cases hk : ht.hasKeys
    · simp only [Bool.or_self, Bool.false_eq_true, if_false, if_pos hk, h.cell_keys hk hs, ok_bind, rawKey,
        unstored_stored hfits.key, pure_eq_ok, CFBasicHash.ejectValue, CFBasicHash.ejectKey, ejects, valueEjects, keyEjects,
        List.append_assoc]
    · simp only [Bool.or_self, Bool.false_eq_true, if_false, if_neg hk, pure_eq_ok, CFBasicHash.ejectValue, ejects,
        valueEjects, List.append_nil]

/-- Nothing is left of the entries. -/
theorem drain_becomes (h : Valid ht slots) :
    ∃ ht', ht.drain = .ok ht' ∧ Becomes ht slots [] (allEjects ht slots) ht' [] := by
  have loop : ∀ (ht' : CFBasicHash) (i : Nat), i ≤ slots.length →
      (List.range i).foldlM ht.drainBucket ht' =
        .ok { ht' with log := ht'.log ++ allEjects ht (slots.take i) } := by
    intro ht' i
    induction i with
    | zero =>
      intro _
      rw [List.take_zero, allEjects, List.flatMap_nil, List.append_nil]
      rfl
    | succ i ih =>
      intro hi
      have hs : slots[i]? = some slots[i] := List.getElem?_eq_getElem hi
      rw [List.range_succ, List.foldlM_append, ih (Nat.le_of_succ_le hi), ok_bind, List.foldlM_cons,
        drainBucket_eq h.holds hs, ok_bind, List.take_add_one, hs, allEjects, allEjects, List.flatMap_append]
      simp only [Option.toList_some, List.flatMap_singleton, List.append_assoc]
      rfl
  unfold CFBasicHash.drain
  have hloop := loop { ht.mutate with
    numBucketsIdx := 0, usedBuckets := 0, deleted := 0, values := [], keys := [], counts := [], hashes := [] }
    slots.length le_rfl
  rw [List.take_length, h.holds.length] at hloop
  refine ⟨_, hloop, ⟨⟨?_, Nat.zero_le _, rfl, Nat.zero_le _, h.isMutable⟩, ?_, rfl, List.Perm.refl _⟩⟩
  · exact ⟨rfl, rfl, fun _ => rfl, fun _ => rfl, fun _ => rfl, fun e he => absurd he List.not_mem_nil, h.holds.width⟩
  · exact ⟨rfl, rfl, rfl, rfl, rfl, rfl, rfl, rfl⟩

/-! ## Copies -/

/-- What the entry `e` is in a copy. -/
def copied (ht : CFBasicHash) (e : Entry) : Entry := replaced ht e.key e.value e

/-- What is imported for a slot of a copy. -/
def slotImports (ht : CFBasicHash) : Slot Entry → List Event
  | .live e => imports ht e.key e.value
  | _ => []

def allImports (ht : CFBasicHash) (slots : List (Slot Entry)) : List Event := slots.flatMap (slotImports ht)

/-- The first `i` buckets are copied, and the others hold what was in the memory. -/
def partly {α : Type} (i : Nat) (done rest : List α) : List α := done.take i ++ rest.drop i

theorem getElem?_partly {α : Type} {done rest : List α} {i : Nat} (hd : i < done.length) (hr : i < rest.length) :
    (partly i done rest)[i]? = some rest[i] := by
  rw [partly, List.getElem?_append_right (by rw [List.length_take]; omega), List.length_take, Nat.min_eq_left hd.le,
    Nat.sub_self, List.getElem?_drop, Nat.add_zero, List.getElem?_eq_getElem hr]

theorem set_partly {α : Type} {done rest : List α} {i : Nat} {x : α} (hx : done[i]? = some x) (hr : i < rest.length) :
    (partly i done rest).set i x = partly (i + 1) done rest := by
  have hd : i < done.length := (List.getElem?_eq_some_iff.mp hx).1
  rw [partly, partly, List.set_append_right _ _ (by rw [List.length_take]; omega), List.length_take,
    Nat.min_eq_left hd.le, Nat.sub_self, List.drop_eq_getElem_cons hr, List.set_cons_zero, List.take_add_one, hx,
    Option.toList_some, List.append_assoc, List.singleton_append]

theorem setValue_ignoreOld {ht : CFBasicHash} {i : Nat} {old : Word} (hv : ht.values[i]? = some old) (value : Word)
    (literal : Bool) :
    ht.setValue i value true literal =
      .ok { ht with values := ht.values.set i (if literal then value else stored value) } := by
  unfold CFBasicHash.setValue
  simp only [if_true, setCell_of_getElem? hv, ok_bind, Bool.true_or, pure_eq_ok]

theorem setKey_ignoreOld {ht : CFBasicHash} {i : Nat} {old : Word} (hk : ht.hasKeys) (hv : ht.keys[i]? = some old)
    (key : Word) (literal : Bool) :
    ht.setKey i key true literal =
      .ok { ht with keys := ht.keys.set i (if literal then key else stored key) } := by
  unfold CFBasicHash.setKey
  simp only [hk, Bool.not_true, Bool.false_eq_true, if_false, if_true, setCell_of_getElem? hv, ok_bind, Bool.true_or,
    pure_eq_ok]

/-- The slots of a copy. -/
def copiedSlots (ht : CFBasicHash) (slots : List (Slot Entry)) : List (Slot Entry) :=
  slots.map (Slot.map (copied ht))

/-- One bucket of the copy. -/
theorem copyBucket_eq (h : Holds ht slots) {i : Nat} {s : Slot Entry} (hs : slots[i]? = some s) {ht' : CFBasicHash}
    (hkeys : ht'.hasKeys = ht.hasKeys) (hcallbacks : ht'.callbacks = ht.callbacks) {words : List Word}
    (hwords : words.length = slots.length)
    (hv : ht'.values = partly i ((copiedSlots ht slots).map rawValue) words)
    (hk : ht'.keys = if ht.hasKeys then partly i ((copiedSlots ht slots).map rawKey) words else []) :
    ht.copyBucket ht' i =
      .ok { ht' with values := partly (i + 1) ((copiedSlots ht slots).map rawValue) words
                     keys := if ht.hasKeys then partly (i + 1) ((copiedSlots ht slots).map rawKey) words else []
                     log := ht'.log ++ slotImports ht s } := by
  have hi : i < slots.length := (List.getElem?_eq_some_iff.mp hs).1
  have hlen : ∀ {α : Type} (f : Slot Entry → α), ((copiedSlots ht slots).map f).length = slots.length := fun f => by
    rw [List.length_map, copiedSlots, List.length_map]
  have hcopied : ∀ {α : Type} (f : Slot Entry → α),
      ((copiedSlots ht slots).map f)[i]? = some (f (s.map (copied ht))) := fun f => by
    rw [List.getElem?_map, copiedSlots, List.getElem?_map, hs]
    rfl
  have hv' : ht'.values[i]? = some words[i] := by
    rw [hv]
    exact getElem?_partly ((hlen _).symm ▸ hi) (hwords ▸ hi)
  have hk' : ht'.hasKeys → ht'.keys[i]? = some words[i] := fun hh => by
    rw [hk, if_pos (hkeys ▸ hh)]
    exact getElem?_partly ((hlen _).symm ▸ hi) (hwords ▸ hi)
  have hset : ht'.values.set i (rawValue (s.map (copied ht))) =
      partly (i + 1) ((copiedSlots ht slots).map rawValue) words := by
    rw [hv]
    exact set_partly (hcopied _) (hwords ▸ hi)
  have hsetKey : ht'.hasKeys → ht'.keys.set i (rawKey (s.map (copied ht))) =
      if ht.hasKeys then partly (i + 1) ((copiedSlots ht slots).map rawKey) words else [] := fun hh => by
    rw [hk, if_pos (hkeys ▸ hh), if_pos (hkeys ▸ hh)]
    exact set_partly (hcopied _) (hwords ▸ hi)
  have hnone : ¬ ht'.hasKeys → ht'.keys =
      if ht.hasKeys then partly (i + 1) ((copiedSlots ht slots).map rawKey) words else [] := fun hh => by
    rw [hk, if_neg (hkeys ▸ hh), if_neg (hkeys ▸ hh)]
  -- the words of a free bucket are written as they are
  have free : ∀ word : Word, rawValue s = word → rawValue (s.map (copied ht)) = word →
      rawKey (s.map (copied ht)) = word → (word = 0 || word = allOnes) = true → slotImports ht s = [] →
      ht.copyBucket ht' i =
        .ok { ht' with values := partly (i + 1) ((copiedSlots ht slots).map rawValue) words
                       keys := if ht.hasKeys then partly (i + 1) ((copiedSlots ht slots).map rawKey) words else []
                       log := ht'.log ++ slotImports ht s } := by
    intro word hword hvalue hkey hfree himports
    unfold CFBasicHash.copyBucket
    rw [h.cell_values hs, ok_bind, hword, if_pos hfree, setValue_ignoreOld hv', ok_bind, if_pos rfl, ← hvalue, hset,
      himports, List.append_nil]
    by_cases hh : ht'.hasKeys
    · rw [if_pos (by exact hh), setKey_ignoreOld (by exact hh) (by exact hk' hh), if_pos rfl, hvalue, ← hkey, hsetKey hh]
    · rw [if_neg (by exact hh), ← hnone hh]
      rfl
  cases s with
  | empty => exact free 0 rfl rfl rfl (by decide) rfl
  | deleted => exact free allOnes rfl rfl rfl (by decide) rfl
  | live e =>
    have hfits := h.fits_of_live hs
    unfold CFBasicHash.copyBucket
    rw [h.cell_values hs, ok_bind, rawValue, decide_eq_false (stored_ne_zero _),
      decide_eq_false (stored_ne_allOnes _), unstored_stored hfits.value]
    simp only [Bool.or_self, Bool.false_eq_true, if_false, CFBasicHash.importValue]
    rw [setValue_ignoreOld (by exact hv'), ok_bind, if_neg Bool.false_ne_true,
      show stored (ht'.callbacks.retainValue e.value) = rawValue ((Slot.live e).map (copied ht)) by
        rw [hcallbacks]; rfl, hset]
    by_cases hh : ht'.hasKeys
    · have himports : slotImports ht (.live e) = [Event.importValue (ht.callbacks.retainValue e.value)] ++
          [Event.importKey (ht.callbacks.retainKey e.key)] := by
        rw [slotImports, imports, if_pos (hkeys ▸ hh)]
        rfl
      rw [if_pos (by exact hh), h.cell_keys (hkeys ▸ hh) hs, ok_bind, rawKey, unstored_stored hfits.key]
      simp only [CFBasicHash.importKey]
      rw [setKey_ignoreOld (by exact hh) (by exact hk' hh), if_neg Bool.false_ne_true,
        show stored (ht'.callbacks.retainKey e.key) = rawKey ((Slot.live e).map (copied ht)) by
          rw [hcallbacks, Slot.map, copied, rawKey, replaced, importedKey, if_pos (hkeys ▸ hh)], hsetKey hh,
        himports, ← List.append_assoc, hcallbacks]
    · rw [if_neg (by exact hh), ← hnone hh, slotImports, imports, if_neg (hkeys ▸ hh), hcallbacks]
      rfl

/-- The loop over the buckets. -/
theorem copyBuckets_eq (h : Holds ht slots) {words : List Word} (hwords : words.length = slots.length)
    {ht' : CFBasicHash} (hkeys : ht'.hasKeys = ht.hasKeys) (hcallbacks : ht'.callbacks = ht.callbacks)
    (hv : ht'.values = words) (hk : ht'.keys = if ht.hasKeys then words else []) {i : Nat} (hi : i ≤ slots.length) :
    (List.range i).foldlM ht.copyBucket ht' =
      .ok { ht' with values := partly i ((copiedSlots ht slots).map rawValue) words
                     keys := if ht.hasKeys then partly i ((copiedSlots ht slots).map rawKey) words else []
                     log := ht'.log ++ allImports ht (slots.take i) } := by
  induction i with
  | zero =>
    have hvalues : partly 0 ((copiedSlots ht slots).map rawValue) words = ht'.values := hv.symm
    have hkeys' : (if ht.hasKeys then partly 0 ((copiedSlots ht slots).map rawKey) words else []) = ht'.keys := hk.symm
    rw [hvalues, hkeys', List.take_zero, allImports, List.flatMap_nil, List.append_nil]
    rfl
  | succ i ih =>
    have hs : slots[i]? = some slots[i] := List.getElem?_eq_getElem hi
    rw [List.range_succ, List.foldlM_append, ih (Nat.le_of_succ_le hi), ok_bind, List.foldlM_cons]
    rw [copyBucket_eq h hs (by exact hkeys) (by exact hcallbacks) hwords rfl rfl, ok_bind, List.take_add_one, hs,
      allImports, allImports, List.flatMap_append]
    simp only [Option.toList_some, List.flatMap_singleton, List.append_assoc]
    rfl

/-- A copy has the entries of the table, imported once more, in the same buckets. -/
theorem createCopy_spec (h : Valid ht slots) (haccepted : ht.callbacks.Accepted) (junk : Nat → Word) :
    ∃ ht', ht.createCopy junk = .ok ht' ∧ Valid ht' (copiedSlots ht slots) ∧ ht'.log = allImports ht slots ∧
      ht'.hashStyle = ht.hashStyle ∧ ht'.fastGrow = ht.fastGrow ∧ ht'.hasKeys = ht.hasKeys ∧
      ht'.hasCounts = ht.hasCounts ∧ ht'.hasHashCache = ht.hasHashCache ∧ ht'.finalized = false ∧
      ht'.callbacks = ht.callbacks ∧ ht'.numBucketsIdx = ht.numBucketsIdx := by
  have hlen : (copiedSlots ht slots).length = slots.length := List.length_map _
  have hfits : ∀ {ht' : CFBasicHash}, ht'.hasKeys = ht.hasKeys → ht'.hasCounts = ht.hasCounts →
      ht'.countsWidth = ht.countsWidth → ∀ e ∈ entries (copiedSlots ht slots), Fits ht' e := by
    intro ht' hk hc hw e he
    rw [copiedSlots, entries_map, List.mem_map] at he
    obtain ⟨e, hmem, rfl⟩ := he
    have hfit := h.holds.fits e hmem
    have hcopied : Fits ht (copied ht e) := by
      refine ⟨?_, haccepted.value _ hfit.value, fun hno => ?_, hfit.pos, hfit.count⟩
      · show reserved (importedKey ht e.key e.value) = false
        unfold importedKey
        split
        · exact haccepted.key _ hfit.key
        · exact haccepted.value _ hfit.value
      · show importedKey ht e.key e.value = ht.callbacks.retainValue e.value
        rw [importedKey, if_neg (Bool.eq_false_iff.mp hno)]
    exact hcopied.mono hk hc hw.ge
  have hused : ht.usedBuckets = (entries (copiedSlots ht slots)).length := by
    rw [copiedSlots, entries_map, List.length_map]
    exact h.used
  have hrest : ∀ {α : Type} (f : Slot Entry → α) (words : List α), words.length = slots.length →
      partly slots.length ((copiedSlots ht slots).map f) words = (copiedSlots ht slots).map f := by
    intro α f words hwords
    rw [partly, List.drop_eq_nil_of_le hwords.le, List.append_nil]
    exact List.take_of_length_le (by rw [List.length_map, hlen])
  have hwords : ((List.range ht.getNumBuckets).map junk).length = slots.length := by
    rw [List.length_map, List.length_range, h.holds.length]
    rfl
  have hloop := copyBuckets_eq h.holds hwords (show (ht.newCopy junk).hasKeys = ht.hasKeys from rfl)
    (show (ht.newCopy junk).callbacks = ht.callbacks from rfl) rfl rfl le_rfl
  rw [hrest _ _ hwords, hrest _ _ hwords, List.take_length] at hloop
  have hnum : ht.getNumBuckets = slots.length := h.holds.length.symm
  unfold CFBasicHash.createCopy
  dsimp only
  by_cases h0 : ht.getNumBuckets = 0
  · rw [if_pos h0]
    have hnil : slots = [] := List.eq_nil_of_length_eq_zero (hnum.symm.trans h0)
    subst hnil
    have hempty : (List.range ht.getNumBuckets).map junk = [] := by rw [h0]; rfl
    refine ⟨_, rfl, ⟨⟨hnum.symm, hempty, fun hk => ?_, fun _ => rfl, fun _ => rfl, ?_, h.holds.width⟩, h.idx, h.used,
      h.cap, rfl⟩, rfl, rfl, rfl, rfl, rfl, rfl, rfl, rfl, rfl⟩
    · exact (if_pos hk).trans hempty
    · exact hfits rfl rfl rfl
  · rw [if_neg h0, hnum, hloop, ok_bind]
    refine ⟨_, rfl, ⟨⟨hlen.trans h.holds.length, rfl, fun hk => if_pos hk, fun hc => ?_, fun hh => ?_, ?_,
      h.holds.width⟩, h.idx, hused, h.cap, rfl⟩, rfl, rfl, rfl, rfl, rfl, rfl, rfl, rfl, rfl⟩
    · show (if ht.hasCounts then ht.counts else []) = _
      rw [if_pos (show ht.hasCounts from hc), h.holds.counts hc, copiedSlots, List.map_map]
      refine List.map_congr_left fun s _ => ?_
      cases s <;> rfl
    · show (if ht.hasHashCache then ht.hashes else []) = _
      rw [if_pos (show ht.hasHashCache from hh), h.holds.hashes hh, copiedSlots, List.map_map]
      refine List.map_congr_left fun s _ => ?_
      cases s <;> rfl
    · exact hfits rfl rfl rfl

/-- The walks to the entries of a copy are the same. -/
theorem OnPaths.copied {ht' : CFBasicHash} (h : OnPaths ht slots) (hstyle : ht'.hashStyle = ht.hashStyle)
    (hidx : ht'.numBucketsIdx = ht.numBucketsIdx)
    (hcode : ∀ e ∈ entries slots, rehashCode ht' (copied ht e) = rehashCode ht e) :
    OnPaths ht' (copiedSlots ht slots) := by
  intro j e he
  rw [copiedSlots, List.getElem?_map, Option.map_eq_some_iff] at he
  obtain ⟨s, hs, he⟩ := he
  cases s with
  | empty => cases he
  | deleted => cases he
  | live e₀ =>
    cases he
    show Reaches (slots.map _) (pathOf ht' (rehashCode ht' (BasicHash.copied ht e₀))) j
    rw [hcode e₀ (mem_entries_iff.mpr ⟨j, hs⟩), pathOf, hstyle, hidx]
    exact (h hs).map _

end

end CFLite.BasicHash
