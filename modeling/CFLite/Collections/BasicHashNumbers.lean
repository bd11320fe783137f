import Mathlib.Data.UInt
import CFLite.Collections.BasicHashItems

/-!
# Tables that number their keys

`CFBasicHashAddIntValueAndInc` and `CFBasicHashRemoveIntValueAndDec` keep the values
of a table the numbers from 0 on: a key that comes or goes moves the numbers behind
it, bucket by bucket, up or down. Both take the number of the caller only if it is
not one of the reserved words, but the numbers that are moved up are not checked.

* `exists_foldlM_range`: a loop over the buckets, with an invariant;
* `Renumbered`: a table with other values in the same buckets;
* `addIntValueAndInc_spec`, `removeIntValueAndDec_spec`: what the two functions do;
* `intValues_sound_iff`: when the numbers stay right.
-/

namespace CFLite.BasicHash

open Framework

/-! ## The code -/

namespace CFBasicHash

/-- Bucket `idx` in the loop of `CFBasicHashAddIntValueAndInc`. -/
def incIntValue (intValue : Word) (ht : CFBasicHash) (idx : Nat) : Except Fault CFBasicHash := do
  if ← ht.isEmptyOrDeleted idx then return ht
  else
    let stackValue ← ht.getValue idx
    if intValue ≤ stackValue then return (← ht.setValue idx (stackValue + 1) true false).mutate
    else return ht

/-- `CFBasicHashAddIntValueAndInc` -/
def addIntValueAndInc (ht : CFBasicHash) (stackKey intValue : Word) : Except Fault (CFBasicHash × Bool) := do
  if !ht.isMutable || reserved stackKey || reserved intValue then .error .halt
  else
    let bkt ← ht.findBucketUnchecked stackKey
    if 0 < bkt.count then return (ht.mutate, false)
    else if ht.getCapacity < (ht.usedBuckets + 1) % 2 ^ 32 then
      let ht ← ht.rehash 1
      let bktIdx ← ht.findBucketNoCollision stackKey 0
      let ht ← (List.range ht.getNumBuckets).foldlM (incIntValue intValue) ht
      return (← ht.addValueAt bktIdx stackKey intValue, true)
    else
      let ht ← (List.range ht.getNumBuckets).foldlM (incIntValue intValue) ht
      return (← ht.addValueAt bkt.idx stackKey intValue, true)

/-- Bucket `idx` in the loop of `CFBasicHashRemoveIntValueAndDec`, which keeps
`bkt_idx` with the table. -/
def decIntValue (intValue : Word) (state : CFBasicHash × Int) (idx : Nat) : Except Fault (CFBasicHash × Int) := do
  let (ht, bktIdx) := state
  if ← ht.isEmptyOrDeleted idx then return (ht, bktIdx)
  else
    let stackValue ← ht.getValue idx
    let bktIdx := if intValue = stackValue then (idx : Int) else bktIdx
    if intValue < stackValue then return ((← ht.setValue idx (stackValue - 1) true false).mutate, bktIdx)
    else return (ht, bktIdx)

/-- `CFBasicHashRemoveIntValueAndDec` -/
def removeIntValueAndDec (ht : CFBasicHash) (intValue : Word) : Except Fault CFBasicHash := do
  if !ht.isMutable || reserved intValue then .error .halt
  else
    let (ht, bktIdx) ← (List.range ht.getNumBuckets).foldlM (decIntValue intValue) (ht, kCFNotFound)
    ht.removeValueAt bktIdx

end CFBasicHash

/-! ## Loops over the buckets -/

/-- An invariant that every step keeps is there after the loop. -/
theorem exists_foldlM_range {ε α : Type} (step : α → Nat → Except ε α) (inv : Nat → α → Prop) (a : α) (h0 : inv 0 a)
    {n : Nat} (hstep : ∀ i < n, ∀ a, inv i a → ∃ a', step a i = .ok a' ∧ inv (i + 1) a') :
    ∃ a', (List.range n).foldlM step a = .ok a' ∧ inv n a' := by
  induction n with
  | zero => exact ⟨a, rfl, h0⟩
  | succ n ih =>
    obtain ⟨a₁, hloop, h₁⟩ := ih fun i hi => hstep i (Nat.lt_succ_of_lt hi)
    obtain ⟨a₂, hlast, h₂⟩ := hstep n (Nat.lt_succ_self n) a₁ h₁
    refine ⟨a₂, ?_, h₂⟩
    rw [List.range_succ, List.foldlM_append, hloop]
    show List.foldlM step a₁ [n] = _
    rw [List.foldlM_cons, hlast]
    rfl

/-! ## Other values -/

/-- A number that is moved up, and one that is moved down. -/
def up (intValue value : Word) : Word := if intValue ≤ value then value + 1 else value

def down (intValue value : Word) : Word := if intValue < value then value - 1 else value

/-- The entry with the value that is read after `f` of it was stored. -/
def Entry.renumbered (f : Word → Word) (e : Entry) : Entry := { e with value := unstored (stored (f e.value)) }

/-- `ht'` is `ht` with `slots`, and as many of them are used. -/
structure Renumbered (ht : CFBasicHash) (slots : List (Slot Entry)) (ht' : CFBasicHash) : Prop
    extends Changed ht slots [] ht' where
  used : ht'.usedBuckets = ht.usedBuckets

theorem reserved_unstored_stored (word : Word) : reserved (unstored (stored word)) = false := by
  unfold stored
  split
  · rfl
  split
  · rfl
  · unfold unstored
    split
    · rfl
    split
    · rfl
    · rename_i hzero hone
      unfold reserved
      rw [decide_eq_false hzero, decide_eq_false hone]
      rfl

theorem stored_unstored_stored (word : Word) : stored (unstored (stored word)) = stored word := by
  have h : ∀ w : Word, w ≠ 0 → w ≠ allOnes → stored (unstored w) = w := by
    intro w hzero hone
    unfold unstored
    split
    · rename_i h
      rw [h]
      rfl
    split
    · rename_i h
      rw [h]
      rfl
    · rw [stored, if_neg hzero, if_neg hone]
  exact h _ (stored_ne_zero word) (stored_ne_allOnes word)

section

variable {ht ht' ht₀ : CFBasicHash} {slots : List (Slot Entry)} {j : Nat} {s : Slot Entry} {e : Entry} {f : Word → Word}
  {intValue : Word}

theorem Renumbered.refl (h : Holds ht slots) : Renumbered ht slots ht :=
  ⟨⟨Kept.refl ht, h, rfl, (List.append_nil _).symm⟩, rfl⟩

theorem Renumbered.trans {slots₁ slots₂ : List (Slot Entry)} (h : Renumbered ht₀ slots₁ ht)
    (h' : Renumbered ht slots₂ ht') : Renumbered ht₀ slots₂ ht' :=
  ⟨⟨h.kept.trans h'.kept, h'.holds, h'.idx.trans h.idx, by rw [h'.log, h.log, List.append_nil]⟩,
    h'.used.trans h.used⟩

/-- Another value in a bucket of a table with keys. -/
theorem setValue_renumbers (f : Word → Word) (h : Holds ht slots) (hk : ht.hasKeys) (hs : slots[j]? = some (.live e)) :
    ∃ ht', ht.setValue j (f e.value) true false = .ok ht' ∧
      Renumbered ht (slots.set j (.live (e.renumbered f))) ht'.mutate := by
  have hfits := h.fits_of_live hs
  refine ⟨_, setValue_ignoreOld (h.value_at hs) (f e.value) false, ⟨⟨?_, ?_, rfl, (List.append_nil _).symm⟩, rfl⟩⟩
  · exact ⟨rfl, rfl, rfl, rfl, rfl, rfl, rfl, rfl⟩
  refine h.set ?_ ?_ ?_ (fun hk => ?_) (fun hc => ?_) (fun hh => ?_) ?_ h.width fun e' he => ?_
  · exact ⟨rfl, rfl, rfl, rfl, rfl, rfl, rfl, rfl⟩
  · rfl
  · show ht.values.set j (stored (f e.value)) = ht.values.set j (stored (unstored (stored (f e.value))))
    rw [stored_unstored_stored]
  · exact (set_of_getElem? (h.key_at hk hs)).symm
  · exact (set_of_getElem? (h.count_at hc hs)).symm
  · exact (set_of_getElem? (h.hash_at hh hs)).symm
  · exact le_rfl
  · cases he
    refine ⟨hfits.key, reserved_unstored_stored _, fun hno => ?_, hfits.pos, hfits.count⟩
    exact absurd hk (Bool.eq_false_iff.mp hno)

/-- A value that stays. -/
theorem renumbered_of_eq (h : Holds ht slots) (hs : slots[j]? = some (.live e)) (hf : f e.value = e.value) :
    Renumbered ht (slots.set j (.live (e.renumbered f))) ht := by
  have he : e.renumbered f = e := by
    unfold Entry.renumbered
    rw [hf, unstored_stored (h.fits_of_live hs).value]
  rw [he, set_of_getElem? hs]
  exact Renumbered.refl h

theorem incIntValue_spec (intValue : Word) (h : Holds ht slots) (hk : ht.hasKeys) (hs : slots[j]? = some s) :
    ∃ ht', ht.incIntValue intValue j = .ok ht' ∧
      Renumbered ht (slots.set j (s.map (Entry.renumbered (up intValue)))) ht' := by
  unfold CFBasicHash.incIntValue
  rcases s.free_or_live with hfree | ⟨e, rfl⟩
  · rw [h.isEmptyOrDeleted_free hs hfree, hfree.map_eq, set_of_getElem? hs]
    exact ⟨ht, rfl, Renumbered.refl h⟩
  · rw [h.isEmptyOrDeleted_live hs, ok_bind, if_neg Bool.false_ne_true, h.getValue_live hs, ok_bind]
    by_cases hle : intValue ≤ e.value
    · obtain ⟨ht', hset, hr⟩ := setValue_renumbers (up intValue) h hk hs
      rw [up, if_pos hle] at hset
      rw [if_pos hle, hset]
      exact ⟨_, rfl, hr⟩
    · rw [if_neg hle]
      exact ⟨ht, rfl, renumbered_of_eq h hs (if_neg hle)⟩

/-- Besides the value, the index of the last bucket with the number is kept. -/
theorem decIntValue_spec (intValue : Word) (h : Holds ht slots) (hk : ht.hasKeys) (hs : slots[j]? = some s) (bktIdx : Int) :
    ∃ ht' bktIdx', CFBasicHash.decIntValue intValue (ht, bktIdx) j = .ok (ht', bktIdx') ∧
      Renumbered ht (slots.set j (s.map (Entry.renumbered (down intValue)))) ht' ∧
      (∀ e, s = .live e → intValue = e.value → bktIdx' = j) ∧
      ((∀ e, s = .live e → intValue ≠ e.value) → bktIdx' = bktIdx) := by
  unfold CFBasicHash.decIntValue
  dsimp only
  rcases s.free_or_live with hfree | ⟨e, rfl⟩
  · rw [h.isEmptyOrDeleted_free hs hfree, hfree.map_eq, set_of_getElem? hs]
    refine ⟨ht, bktIdx, rfl, Renumbered.refl h, fun e he => ?_, fun _ => rfl⟩
    rw [he] at hfree
    cases hfree
  · have hfound : ∀ bktIdx' : Int, bktIdx' = (if intValue = e.value then (j : Int) else bktIdx) →
        (∀ e', Slot.live e = .live e' → intValue = e'.value → bktIdx' = j) ∧
        ((∀ e', Slot.live e = .live e' → intValue ≠ e'.value) → bktIdx' = bktIdx) := by
      rintro bktIdx' rfl
      refine ⟨fun e' he hv => if_pos ?_, fun hne => if_neg (hne e rfl)⟩
      rw [hv, Slot.live.inj he]
    rw [h.isEmptyOrDeleted_live hs, ok_bind, if_neg Bool.false_ne_true, h.getValue_live hs, ok_bind]
    by_cases hlt : intValue < e.value
    · obtain ⟨ht', hset, hr⟩ := setValue_renumbers (down intValue) h hk hs
      rw [down, if_pos hlt] at hset
      rw [if_pos hlt, hset]
      exact ⟨_, _, rfl, hr, hfound _ rfl⟩
    · rw [if_neg hlt]
      exact ⟨ht, _, rfl, renumbered_of_eq h hs (if_neg hlt), hfound _ rfl⟩

/-! ## The loops -/

/-- All the entries with other values. -/
def renumberedSlots (f : Word → Word) (slots : List (Slot Entry)) : List (Slot Entry) :=
  slots.map (Slot.map (Entry.renumbered f))

theorem length_renumberedSlots (f : Word → Word) (slots : List (Slot Entry)) :
    (renumberedSlots f slots).length = slots.length := List.length_map _

theorem getElem?_renumberedSlots (f : Word → Word) (hs : slots[j]? = some s) :
    (renumberedSlots f slots)[j]? = some (s.map (Entry.renumbered f)) := by
  rw [renumberedSlots, List.getElem?_map, hs]
  rfl

/-- Up to bucket `i` the values are new. -/
theorem Renumbered.next {i : Nat} (hi : i < slots.length)
    (h : Renumbered ht₀ (partly i (renumberedSlots f slots) slots) ht) :
    ∃ s, slots[i]? = some s ∧ (partly i (renumberedSlots f slots) slots)[i]? = some s ∧
      ∀ ht', Renumbered ht ((partly i (renumberedSlots f slots) slots).set i (s.map (Entry.renumbered f))) ht' →
        Renumbered ht₀ (partly (i + 1) (renumberedSlots f slots) slots) ht' := by
  have hs : slots[i]? = some slots[i] := List.getElem?_eq_getElem hi
  refine ⟨slots[i], hs, getElem?_partly (by rwa [length_renumberedSlots]) hi, fun ht' h' => ?_⟩
  rw [set_partly (getElem?_renumberedSlots f hs) hi] at h'
  exact h.trans h'

theorem Renumbered.start (h : Holds ht slots) : Renumbered ht (partly 0 (renumberedSlots f slots) slots) ht :=
  Renumbered.refl h

theorem partly_all (f : Word → Word) (slots : List (Slot Entry)) :
    partly slots.length (renumberedSlots f slots) slots = renumberedSlots f slots := by
  rw [partly, List.drop_length, List.append_nil]
  exact List.take_of_length_le (length_renumberedSlots f slots).le

theorem incIntValues_spec (intValue : Word) (h : Holds ht slots) (hk : ht.hasKeys) :
    ∃ ht', (List.range ht.getNumBuckets).foldlM (CFBasicHash.incIntValue intValue) ht = .ok ht' ∧
      Renumbered ht (renumberedSlots (up intValue) slots) ht' := by
  have hnum : ht.getNumBuckets = slots.length := h.length.symm
  obtain ⟨ht', hloop, hr⟩ := exists_foldlM_range (CFBasicHash.incIntValue intValue)
    (fun i ht' => Renumbered ht (partly i (renumberedSlots (up intValue) slots) slots) ht') ht (Renumbered.start h)
    (n := slots.length) fun i hi ht₁ h₁ => by
      obtain ⟨s, -, hs, hnext⟩ := h₁.next hi
      obtain ⟨ht₂, hinc, h₂⟩ := incIntValue_spec intValue h₁.holds (h₁.kept.hasKeys ▸ hk) hs
      exact ⟨ht₂, hinc, hnext ht₂ h₂⟩
  rw [partly_all] at hr
  exact ⟨ht', hnum ▸ hloop, hr⟩

/-- If one bucket has the number, its index is kept. -/
theorem decIntValues_spec (h : Holds ht slots) (hk : ht.hasKeys) (hs : slots[j]? = some (.live e))
    (honly : ∀ i e', slots[i]? = some (.live e') → intValue = e'.value → i = j) (he : intValue = e.value) :
    ∃ ht', (List.range ht.getNumBuckets).foldlM (CFBasicHash.decIntValue intValue) (ht, kCFNotFound) =
        .ok (ht', (j : Int)) ∧ Renumbered ht (renumberedSlots (down intValue) slots) ht' := by
  have hnum : ht.getNumBuckets = slots.length := h.length.symm
  obtain ⟨⟨ht', bktIdx⟩, hloop, hr, hidx⟩ := exists_foldlM_range (CFBasicHash.decIntValue intValue)
    (fun i (state : CFBasicHash × Int) =>
      Renumbered ht (partly i (renumberedSlots (down intValue) slots) slots) state.1 ∧ (j < i → state.2 = j))
    (ht, kCFNotFound) ⟨Renumbered.start h, fun hj => absurd hj (Nat.not_lt_zero j)⟩
    (n := slots.length) fun i hi state h₁ => by
      obtain ⟨ht₁, bktIdx⟩ := state
      obtain ⟨h₁, hidx⟩ := h₁
      obtain ⟨s, hsi, hs', hnext⟩ := h₁.next hi
      obtain ⟨ht₂, bktIdx', hdec, h₂, hfound, hother⟩ :=
        decIntValue_spec intValue h₁.holds (h₁.kept.hasKeys ▸ hk) hs' bktIdx
      refine ⟨(ht₂, bktIdx'), hdec, hnext ht₂ h₂, fun hj => ?_⟩
      show bktIdx' = j
      rcases Nat.lt_succ_iff_lt_or_eq.mp hj with hlt | rfl
      · refine (hother fun e' hlive hv => ?_).trans (hidx hlt)
        rw [hlive] at hsi
        exact absurd (honly i e' hsi hv) hlt.ne'
      · exact hfound e (Option.some.inj (hsi.symm.trans hs)) he
  obtain rfl : bktIdx = j := hidx (List.getElem?_eq_some_iff.mp hs).1
  rw [partly_all] at hr
  exact ⟨ht', hnum ▸ hloop, hr⟩

/-! ## What the functions do -/

/-- The item of a renumbered entry. -/
def Item.renumbered (f : Word → Word) (i : Item) : Item := { i with value := unstored (stored (f i.value)) }

variable {callbacks : Callbacks} {hasCounts : Bool} {items : List Item} {stackKey : Word}

theorem Represents.renumbered (h : Represents callbacks true hasCounts ht slots items)
    (hr : Renumbered ht (renumberedSlots f slots) ht') :
    Represents callbacks true hasCounts ht' (renumberedSlots f slots) (items.map (Item.renumbered f)) where
  distinct := List.pairwise_map.mpr h.distinct
  valid :=
    { holds := hr.holds
      idx := hr.idx ▸ h.valid.idx
      used := by rw [hr.used, h.valid.used, renumberedSlots, entries_map, List.length_map]
      cap := by rw [hr.used, hr.idx]; exact h.valid.cap
      isMutable := hr.kept.isMutable.trans h.valid.isMutable }
  callbacks := hr.kept.callbacks.trans h.callbacks
  hasKeys := hr.kept.hasKeys.trans h.hasKeys
  hasCounts := hr.kept.hasCounts.trans h.hasCounts
  paths := by
    have hpaths : OnPaths ht (renumberedSlots f slots) := fun j e he => by
      rw [renumberedSlots, List.getElem?_map, Option.map_eq_some_iff] at he
      obtain ⟨s, hs, he⟩ := he
      cases s with
      | empty => cases he
      | deleted => cases he
      | live e₀ =>
        cases he
        exact (h.paths hs).map _
    exact hpaths.congr hr.kept hr.idx
  coded e he hk := by
    rw [renumberedSlots, entries_map, List.mem_map] at he
    obtain ⟨e₀, he₀, rfl⟩ := he
    rw [hr.kept.callbacks]
    exact h.coded e₀ he₀ (hr.kept.hasHashCache ▸ hk)
  perm := by
    rw [renumberedSlots, entries_map, List.map_map]
    have hmap := h.perm.map (Item.renumbered f)
    rwa [List.map_map] at hmap

/-- Entries in the order of others with the same items. -/
theorem Represents.distinct_of_perm (hl : callbacks.Lawful true) (h : Represents callbacks true hasCounts ht slots items)
    {after : List Entry} (hperm : (entries slots).Perm after) :
    (after.map Entry.item).Pairwise fun i i' => ¬ callbacks.equateKeys i.key i'.key :=
  ((h.perm.symm.trans (hperm.map Entry.item)).pairwise_iff fun hne heq => hne (hl.symm heq)).mp h.distinct

/-- The loop, and then the new entry in bucket `j`. -/
theorem addRenumbered_spec (hl : callbacks.Lawful true) (h : Represents callbacks true hasCounts ht slots items)
    (hkey : reserved stackKey = false) (hvalue : reserved intValue = false)
    (hnew : ∀ i ∈ items, ¬ callbacks.equateKeys i.key stackKey) (hs : slots[j]? = some s) (hfree : s.Free)
    (hreach : Reaches slots (pathOf ht (ht.callbacks.hashKey stackKey)) j)
    (hroom : ht.usedBuckets < tableCapacity ht.numBucketsIdx) :
    ∃ ht₁ ht' slots', (List.range ht.getNumBuckets).foldlM (CFBasicHash.incIntValue intValue) ht = .ok ht₁ ∧
      ht₁.addValueAt j stackKey intValue = .ok ht' ∧ Kept ht ht' ∧
      Represents callbacks true hasCounts ht' slots'
        (callbacks.newItem true stackKey intValue :: items.map (Item.renumbered (up intValue))) := by
  obtain ⟨ht₁, hloop, hr⟩ := incIntValues_spec intValue h.valid.holds h.hasKeys
  have h₁ := h.renumbered hr
  have hpath : pathOf ht₁ (ht₁.callbacks.hashKey stackKey) = pathOf ht (ht.callbacks.hashKey stackKey) := by
    rw [hr.kept.pathOf hr.idx, hr.kept.callbacks]
  have hfit : Fits ht₁ (newEntry ht₁ stackKey intValue) := fits_newEntry (h₁.callbacks ▸ hl.toAccepted) hkey hvalue
  obtain ⟨ht', hadd, hb, hpaths⟩ := addValueAt_free h₁.valid (getElem?_renumberedSlots (up intValue) hs)
    (by rwa [hfree.map_eq]) (by rw [hpath]; exact hreach.map _) (by rw [hr.used, hr.idx]; exact hroom) hfit
  have hkeyed : true = false → stackKey = intValue := fun hno => nomatch hno
  have hequal := equate_importedKey hl h₁.callbacks h₁.hasKeys hkeyed
  have hcoded := coded_newEntry hl h₁.callbacks h₁.hasKeys hkeyed
  have hcode : rehashCode ht₁ (newEntry ht₁ stackKey intValue) = ht₁.callbacks.hashKey stackKey := by
    rw [hcoded.rehashCode, h₁.callbacks]
    exact hl.hash hequal
  have hitem : (newEntry ht₁ stackKey intValue).item = callbacks.newItem true stackKey intValue := by
    rw [← h₁.callbacks, ← h₁.hasKeys]
    rfl
  refine ⟨ht₁, ht', _, hloop, hadd, hr.kept.trans hb.kept, h₁.becomes hl hb (hpaths hcode h₁.paths) ?_ ?_ ?_⟩
  · exact List.forall_mem_cons.mpr ⟨hcoded, h₁.coded⟩
  · rw [List.map_cons, hitem]
    exact h₁.perm.cons _
  · rw [List.map_cons]
    refine List.pairwise_cons.mpr ⟨fun i hi heq => ?_, h₁.distinct_of_perm hl (List.Perm.refl _)⟩
    obtain ⟨i₀, hi₀, rfl⟩ := List.mem_map.mp (h₁.perm.mem_iff.mp hi)
    exact hnew i₀ hi₀ (hl.trans (hl.symm heq) hequal)

theorem not_full_iff (h : Valid ht slots) :
    ht.getCapacity < (ht.usedBuckets + 1) % 2 ^ 32 ↔ ht.usedBuckets = tableCapacity ht.numBucketsIdx := by
  have hcap := h.cap
  rw [Nat.mod_eq_of_lt h.used_lt]
  show tableCapacity ht.numBucketsIdx < _ ↔ _
  omega

/-- A new key whose number is not reserved, in a table with room. -/
theorem addIntValueAndInc_spec (hl : callbacks.Lawful true) (h : Represents callbacks true hasCounts ht slots items)
    (hkey : reserved stackKey = false) (hvalue : reserved intValue = false)
    (hnew : ∀ i ∈ items, ¬ callbacks.equateKeys i.key stackKey) :
    ((ht.usedBuckets = tableCapacity ht.numBucketsIdx → Requestable ht 1) →
      ∃ ht' slots', ht.addIntValueAndInc stackKey intValue = .ok (ht', true) ∧ Kept ht ht' ∧
        Represents callbacks true hasCounts ht' slots'
          (callbacks.newItem true stackKey intValue :: items.map (Item.renumbered (up intValue)))) ∧
    (ht.usedBuckets = tableCapacity ht.numBucketsIdx → ¬ Requestable ht 1 →
      ∃ fault, ht.addIntValueAndInc stackKey intValue = .error fault) := by
  have hfind := findBucketUnchecked_eq h.valid.holds h.valid.idx stackKey
  obtain ⟨vacant, hlook⟩ : ∃ vacant, lookup ht slots stackKey = .vacant vacant := by
    rcases represents_lookup hl h stackKey with ⟨j, e, rest, -, -, hrest, hequal, -⟩ | ⟨vacant, hlook, -⟩
    · have hmem : e.item ∈ items := h.perm.mem_iff.mp (List.mem_map_of_mem (hrest.mem_iff.mpr List.mem_cons_self))
      exact absurd hequal (hnew _ hmem)
    · exact ⟨vacant, hlook⟩
  rw [hlook] at hfind
  have hguard : (!ht.isMutable || reserved stackKey || reserved intValue) = false := by
    rw [h.valid.isMutable, hkey, hvalue]
    rfl
  unfold CFBasicHash.addIntValueAndInc
  rw [hguard, if_neg Bool.false_ne_true, hfind, ok_bind, if_neg (show ¬ 0 < (bucketOf (.vacant vacant)).count from lt_irrefl 0)]
  by_cases hfull : ht.usedBuckets = tableCapacity ht.numBucketsIdx
  · rw [if_pos ((not_full_iff h.valid).mpr hfull)]
    refine ⟨fun hreq => ?_, fun _ hno => ?_⟩
    · obtain ⟨ht₁, slots₁, j, hrehash, hplace, hg⟩ := rehash_grows h.valid (hreq hfull) stackKey
      have h₁ := h.becomes hl hg.becomes hg.paths h.coded h.perm (h.distinct_of_perm hl (List.Perm.refl _))
      obtain ⟨ht₂, ht', slots', hloop, hadd, hkept, h'⟩ :=
        addRenumbered_spec hl h₁ hkey hvalue hnew hg.empty rfl hg.reaches hg.room
      refine ⟨ht', slots', ?_, hg.becomes.kept.trans hkept, h'⟩
      rw [hrehash, ok_bind, hplace, ok_bind, hloop, ok_bind, hadd]
      rfl
    · obtain ⟨fault, hrehash, -⟩ := rehash_error h.valid.holds h.valid.used one_ne_zero hno
      exact ⟨fault, by rw [hrehash]; rfl⟩
  · rw [if_neg fun hlt => hfull ((not_full_iff h.valid).mp hlt)]
    refine ⟨fun _ => ?_, fun hf => absurd hf hfull⟩
    cases vacant with
    | none => exact absurd (lookup_full h.valid hlook) hfull
    | some j =>
      obtain ⟨hreach, s, hs, hfree⟩ := lookup_vacant hlook
      obtain ⟨ht₂, ht', slots', hloop, hadd, hkept, h'⟩ :=
        addRenumbered_spec hl h hkey hvalue hnew hs hfree hreach (lt_of_le_of_ne h.valid.cap hfull)
      refine ⟨ht', slots', ?_, hkept, h'⟩
      rw [hloop, ok_bind]
      show (do return (← ht₂.addValueAt j stackKey intValue, true)) = _
      rw [hadd]
      rfl

/-- The one item with the number goes. -/
theorem removeIntValueAndDec_spec (hl : callbacks.Lawful true)
    (h : Represents callbacks true hasCounts ht slots items) (hvalue : reserved intValue = false) {i : Item}
    {rest : List Item} (hitems : items.Perm (i :: rest)) (hi : i.value = intValue) (hone : i.count = 1)
    (hrest : ∀ r ∈ rest, r.value ≠ intValue) :
    ∃ ht' slots', ht.removeIntValueAndDec intValue = .ok ht' ∧
      Represents callbacks true hasCounts ht' slots' (rest.map (Item.renumbered (down intValue))) := by
  have hmem : i ∈ items := hitems.mem_iff.mpr List.mem_cons_self
  obtain ⟨e, he, rfl⟩ := List.mem_map.mp (h.perm.mem_iff.mpr hmem)
  obtain ⟨j, hs⟩ := mem_entries_iff.mp he
  obtain ⟨others, hothers⟩ := exists_perm_cons hs
  have hsame : (others.map Entry.item).Perm rest := by
    refine (List.perm_cons e.item).mp ?_
    exact (hothers.map Entry.item).symm.trans (h.perm.trans hitems)
  -- a second bucket with the number would hold one of the others
  have honly : ∀ k e', slots[k]? = some (.live e') → intValue = e'.value → k = j := by
    intro k e' hk hv
    by_contra hne
    have hk' : (slots.set j .deleted)[k]? = some (.live e') := by rwa [List.getElem?_set_ne (Ne.symm hne)]
    have hperm : (entries (slots.set j .deleted)).Perm others :=
      (List.perm_cons e).mp ((perm_entries_delete hs).trans hothers)
    have hin : e'.item ∈ rest := hsame.mem_iff.mp (List.mem_map_of_mem (hperm.mem_iff.mp (mem_entries_iff.mpr ⟨k, hk'⟩)))
    exact hrest _ hin hv.symm
  obtain ⟨ht₁, hloop, hr⟩ := decIntValues_spec h.valid.holds h.hasKeys hs honly hi.symm
  have h₁ := h.renumbered hr
  have hothers₁ : (entries (renumberedSlots (down intValue) slots)).Perm
      (e.renumbered (down intValue) :: others.map (Entry.renumbered (down intValue))) := by
    rw [renumberedSlots, entries_map]
    exact hothers.map _
  obtain ⟨ht', slots', hremove, hb, hpaths⟩ := removeValueAt_becomes h₁.valid
    (getElem?_renumberedSlots (down intValue) hs) hone hothers₁
  have hguard : (!ht.isMutable || reserved intValue) = false := by
    rw [h.valid.isMutable, hvalue]
    rfl
  refine ⟨ht', slots', ?_, h₁.becomes hl hb (hpaths h₁.paths) (fun e' he' => ?_) ?_ ?_⟩
  · unfold CFBasicHash.removeIntValueAndDec
    rw [hguard, if_neg Bool.false_ne_true, hloop, ok_bind]
    exact hremove
  · exact h₁.coded e' (hothers₁.mem_iff.mpr (List.mem_cons_of_mem _ he'))
  · have hmap := hsame.map (Item.renumbered (down intValue))
    rw [List.map_map] at hmap ⊢
    exact hmap
  · exact (List.pairwise_cons.mp (h₁.distinct_of_perm hl hothers₁)).2

/-! ## Numbers -/

/-- The numbers from 0 on, after those from `v` on are moved up for a new one. -/
theorem perm_range_up {l : List Nat} {n v : Nat} (h : l.Perm (List.range n)) (hv : v ≤ n) :
    (v :: l.map fun x => if v ≤ x then x + 1 else x).Perm (List.range (n + 1)) := by
  refine ((h.map _).cons v).trans ((List.perm_ext_iff_of_nodup ?_ List.nodup_range).mpr fun x => ?_)
  · refine List.nodup_cons.mpr ⟨fun hmem => ?_, List.nodup_range.map fun x y hxy => ?_⟩
    · obtain ⟨x, -, hx⟩ := List.mem_map.mp hmem
      split at hx <;> omega
    · split at hxy <;> split at hxy <;> omega
  · rw [List.mem_cons, List.mem_map, List.mem_range]
    constructor
    · rintro (rfl | ⟨y, hy, rfl⟩)
      · omega
      · rw [List.mem_range] at hy
        split <;> omega
    · intro hx
      rcases Nat.lt_trichotomy x v with hlt | rfl | hgt
      · exact .inr ⟨x, List.mem_range.mpr (by omega), if_neg (by omega)⟩
      · exact .inl rfl
      · exact .inr ⟨x - 1, List.mem_range.mpr (by omega), by rw [if_pos (by omega)]; omega⟩

/-- The numbers from 0 on, after those behind `v` are moved down to its place. -/
theorem perm_range_down {l : List Nat} {n v : Nat} (h : (v :: l).Perm (List.range n)) :
    (l.map fun x => if v < x then x - 1 else x).Perm (List.range (n - 1)) := by
  have hnodup := h.nodup_iff.mpr List.nodup_range
  obtain ⟨hnot, hl⟩ := List.nodup_cons.mp hnodup
  have hmem : ∀ x, x ∈ l ↔ x ≠ v ∧ x < n := by
    intro x
    have hx := h.mem_iff (a := x)
    rw [List.mem_cons, List.mem_range] at hx
    refine ⟨fun hin => ⟨fun heq => hnot (heq ▸ hin), hx.mp (.inr hin)⟩, fun ⟨hne, hlt⟩ => ?_⟩
    exact (hx.mpr hlt).resolve_left hne
  have hv : v < n := List.mem_range.mp (h.mem_iff.mp List.mem_cons_self)
  refine (List.perm_ext_iff_of_nodup ?_ List.nodup_range).mpr fun x => ?_
  · refine hl.map_on fun x hx y hy hxy => ?_
    have hx := (hmem x).mp hx
    have hy := (hmem y).mp hy
    split at hxy <;> split at hxy <;> omega
  · rw [List.mem_map, List.mem_range]
    constructor
    · rintro ⟨y, hy, rfl⟩
      have hy := (hmem y).mp hy
      split <;> omega
    · intro hx
      rcases Nat.lt_or_ge x v with hlt | hge
      · exact ⟨x, (hmem x).mpr (by omega), if_neg (by omega)⟩
      · exact ⟨x + 1, (hmem _).mpr (by omega), by rw [if_pos (by omega)]; omega⟩

theorem toNat_up {value : Word} (h : value.toNat + 1 < 2 ^ 64) :
    (up intValue value).toNat = if intValue.toNat ≤ value.toNat then value.toNat + 1 else value.toNat := by
  unfold up
  by_cases hle : intValue ≤ value
  · rw [if_pos hle, if_pos (UInt64.le_iff_toNat_le.mp hle), UInt64.toNat_add]
    exact Nat.mod_eq_of_lt h
  · rw [if_neg hle, if_neg fun h => hle (UInt64.le_iff_toNat_le.mpr h)]

theorem toNat_down (intValue value : Word) :
    (down intValue value).toNat = if intValue.toNat < value.toNat then value.toNat - 1 else value.toNat := by
  unfold down
  by_cases hlt : intValue < value
  · have hlt' := UInt64.lt_iff_toNat_lt.mp hlt
    have hone : (1 : Word) ≤ value := UInt64.le_iff_toNat_le.mpr (Nat.one_le_of_lt hlt')
    rw [if_pos hlt, if_pos hlt', UInt64.toNat_sub_of_le _ _ hone]
    rfl
  · rw [if_neg hlt, if_neg fun h => hlt (UInt64.lt_iff_toNat_lt.mpr h)]

/-- The words below the reserved ones. -/
theorem reserved_of_lt {word : Word} (h : word.toNat < subABOne.toNat) : reserved word = false := by
  have hzero : word ≠ subABZero := by
    rintro rfl
    exact absurd h (by decide)
  have hone : word ≠ subABOne := by
    rintro rfl
    exact absurd h (lt_irrefl _)
  rw [reserved, decide_eq_false hzero, decide_eq_false hone]
  rfl

/-- The words above them. -/
theorem reserved_of_gt {word : Word} (h : subABZero.toNat < word.toNat) : reserved word = false := by
  have hzero : word ≠ subABZero := by
    rintro rfl
    exact absurd h (lt_irrefl _)
  have hone : word ≠ subABOne := by
    rintro rfl
    exact absurd h (by decide)
  rw [reserved, decide_eq_false hzero, decide_eq_false hone]
  rfl

/-- The item with another value. -/
def Item.moved (f : Word → Word) (i : Item) : Item := { i with value := f i.value }

theorem map_renumbered (h : ∀ i ∈ items, (f i.value).toNat < subABOne.toNat) :
    items.map (Item.renumbered f) = items.map (Item.moved f) := by
  refine List.map_congr_left fun i hi => ?_
  unfold Item.renumbered Item.moved
  rw [unstored_stored (reserved_of_lt (h i hi))]

/-- The table `ht` has the items, each once, and their values are the numbers from 0 on. -/
structure Numbers (callbacks : Callbacks) (hasCounts : Bool) (ht : CFBasicHash) (items : List Item) : Prop where
  represents : ∃ slots, Represents callbacks true hasCounts ht slots items
  once : ∀ i ∈ items, i.count = 1
  values : (items.map fun i => i.value.toNat).Perm (List.range items.length)

namespace Numbers

theorem value_lt (h : Numbers callbacks hasCounts ht items) {i : Item} (hi : i ∈ items) :
    i.value.toNat < items.length :=
  List.mem_range.mp (h.values.mem_iff.mp (List.mem_map_of_mem (f := fun i : Item => i.value.toNat) hi))

/-- There is no number that could not be stored. -/
theorem length_le (h : Numbers callbacks hasCounts ht items) : items.length ≤ subABOne.toNat := by
  by_contra hlt
  obtain ⟨i, hi, hvalue⟩ := List.mem_map.mp (h.values.mem_iff.mpr (List.mem_range.mpr (Nat.lt_of_not_le hlt)))
  obtain ⟨slots, hr⟩ := h.represents
  obtain ⟨e, he, rfl⟩ := List.mem_map.mp (hr.perm.mem_iff.mpr hi)
  have hfree := (hr.valid.holds.fits e he).value
  rw [show e.value = subABOne from UInt64.toNat_inj.mp hvalue] at hfree
  exact absurd hfree (by decide)

/-- No two items have one number. -/
theorem perm_filter (h : Numbers callbacks hasCounts ht items) {i : Item} (hi : i ∈ items) :
    items.Perm (i :: items.filter fun r => r.value ≠ i.value) := by
  have herase : items.Perm (i :: items.erase i) := List.perm_cons_erase hi
  have hnodup : ((i :: items.erase i).map fun i : Item => i.value.toNat).Nodup :=
    (herase.map _).nodup_iff.mp (h.values.nodup_iff.mpr List.nodup_range)
  have hne : ∀ r ∈ items.erase i, r.value ≠ i.value := fun r hr heq =>
    (List.nodup_cons.mp hnodup).1 (List.mem_map.mpr ⟨r, hr, congrArg UInt64.toNat heq⟩)
  refine herase.trans (List.Perm.cons i ?_)
  refine List.Perm.trans (List.Perm.of_eq ?_) (herase.filter _).symm
  rw [List.filter_cons_of_neg (by simp), List.filter_eq_self.mpr fun r hr => decide_eq_true (hne r hr)]

/-- A new key is added where no number becomes one that could not be stored. -/
theorem added (stackKey intValue : Word) (hl : callbacks.Lawful true) (hint : ∀ word, callbacks.retainValue word = word)
    (h : Numbers callbacks hasCounts ht items) (hkey : reserved stackKey = false)
    (hnew : ∀ i ∈ items, ¬ callbacks.equateKeys i.key stackKey) (hle : intValue.toNat ≤ items.length)
    (hlen : items.length < subABOne.toNat)
    (hreq : ht.usedBuckets = tableCapacity ht.numBucketsIdx → Requestable ht 1) :
    ∃ ht', ht.addIntValueAndInc stackKey intValue = .ok (ht', true) ∧ Kept ht ht' ∧
      Numbers callbacks hasCounts ht'
        (⟨callbacks.retainKey stackKey, intValue, 1⟩ :: items.map (Item.moved (up intValue))) := by
  obtain ⟨slots, hr⟩ := h.represents
  have hword : subABOne.toNat + 1 < 2 ^ 64 := by decide
  have hvalue : reserved intValue = false := reserved_of_lt (by omega)
  obtain ⟨ht', slots', hadd, hkept, hr'⟩ := (addIntValueAndInc_spec hl hr hkey hvalue hnew).1 hreq
  have hup : ∀ i ∈ items, (up intValue i.value).toNat =
      if intValue.toNat ≤ i.value.toNat then i.value.toNat + 1 else i.value.toNat := fun i hi =>
    toNat_up (by have := h.value_lt hi; omega)
  have hitem : callbacks.newItem true stackKey intValue = ⟨callbacks.retainKey stackKey, intValue, 1⟩ := by
    unfold Callbacks.newItem
    rw [if_pos rfl, hint]
  rw [hitem, map_renumbered fun i hi => ?_] at hr'
  refine ⟨ht', hadd, hkept, ⟨slots', hr'⟩, ?_, ?_⟩
  · refine List.forall_mem_cons.mpr ⟨rfl, fun i hi => ?_⟩
    obtain ⟨i₀, hi₀, rfl⟩ := List.mem_map.mp hi
    exact h.once i₀ hi₀
  · rw [List.map_cons, List.map_map, List.length_cons, List.length_map]
    have hperm := perm_range_up h.values hle
    rw [List.map_map] at hperm
    refine List.Perm.trans (List.Perm.of_eq ?_) hperm
    congr 1
    exact List.map_congr_left hup
  · rw [hup i hi]
    have := h.value_lt hi
    split <;> omega

end Numbers

/-- Without the reserved words the numbers stay right: a key can be added if and only
if its table has fewer entries than the smaller of them says, and a row of the tables
if it has to grow; one can always be removed. -/
theorem intValues_sound_iff (hl : callbacks.Lawful true) (hint : ∀ word, callbacks.retainValue word = word)
    (h : Numbers callbacks hasCounts ht items) :
    (∀ stackKey intValue, reserved stackKey = false → (∀ i ∈ items, ¬ callbacks.equateKeys i.key stackKey) →
      intValue.toNat ≤ items.length →
      ((∃ ht', ht.addIntValueAndInc stackKey intValue = .ok (ht', true) ∧
          Numbers callbacks hasCounts ht'
            (⟨callbacks.retainKey stackKey, intValue, 1⟩ :: items.map (Item.moved (up intValue)))) ↔
        items.length < subABOne.toNat ∧ (ht.usedBuckets = tableCapacity ht.numBucketsIdx → Requestable ht 1))) ∧
    ∀ intValue : Word, intValue.toNat < items.length →
      ∃ ht', ht.removeIntValueAndDec intValue = .ok ht' ∧
        Numbers callbacks hasCounts ht' ((items.filter fun i => i.value ≠ intValue).map (Item.moved (down intValue))) := by
  obtain ⟨slots, hr⟩ := h.represents
  have hmax := h.length_le
  refine ⟨fun stackKey intValue hkey hnew hle => ⟨?_, ?_⟩, fun intValue hlt => ?_⟩
  · rintro ⟨ht', hadd, h'⟩
    have hlen := h'.length_le
    rw [List.length_cons, List.length_map] at hlen
    refine ⟨hlen, fun hfull => ?_⟩
    by_contra hreq
    have hvalue : reserved intValue = false := reserved_of_lt (by omega)
    obtain ⟨fault, herror⟩ := (addIntValueAndInc_spec hl hr hkey hvalue hnew).2 hfull hreq
    rw [herror] at hadd
    cases hadd
  · rintro ⟨hlen, hreq⟩
    obtain ⟨ht', hadd, -, h'⟩ := h.added stackKey intValue hl hint hkey hnew hle hlen hreq
    exact ⟨ht', hadd, h'⟩
  · obtain ⟨i, hi, hvalue⟩ := List.mem_map.mp (h.values.mem_iff.mpr (List.mem_range.mpr hlt))
    have hvalue : i.value = intValue := UInt64.toNat_inj.mp hvalue
    have hitems := h.perm_filter hi
    rw [hvalue] at hitems
    obtain ⟨ht', slots', hremove, hr'⟩ := removeIntValueAndDec_spec hl hr (reserved_of_lt (by omega)) hitems hvalue
      (h.once i hi) fun r hr => of_decide_eq_true (List.mem_filter.mp hr).2
    have hdown : ∀ r ∈ items.filter fun i => i.value ≠ intValue, (down intValue r.value).toNat < subABOne.toNat := by
      intro r hr
      have := h.value_lt (List.mem_of_mem_filter hr)
      rw [toNat_down]
      split <;> omega
    rw [map_renumbered hdown] at hr'
    refine ⟨ht', hremove, ⟨slots', hr'⟩, fun r hr => ?_, ?_⟩
    · obtain ⟨r₀, hr₀, rfl⟩ := List.mem_map.mp hr
      exact h.once r₀ (List.mem_of_mem_filter hr₀)
    · have hlen := hitems.length_eq
      have hperm := (hitems.map fun i : Item => i.value.toNat).symm.trans h.values
      rw [List.map_cons, hvalue] at hperm
      have hrange := perm_range_down hperm
      rw [List.map_map] at hrange
      rw [List.map_map, List.length_map, show (items.filter fun i => i.value ≠ intValue).length = items.length - 1 by
        rw [hlen, List.length_cons]; rfl]
      refine List.Perm.trans (List.Perm.of_eq ?_) hrange
      exact List.map_congr_left fun r _ => toNat_down intValue r.value

end

theorem numbers_create (hashStyle : HashStyle) (fastGrow hasHashCache : Bool) (callbacks : Callbacks) (hasCounts : Bool) :
    Numbers callbacks hasCounts (.create hashStyle fastGrow true hasCounts hasHashCache callbacks) [] where
  represents := ⟨[], represents_create ..⟩
  once _ hi := absurd hi List.not_mem_nil
  values := List.Perm.refl _

/-- The first key of a table. -/
theorem intValues_sound_first : ∃ ht',
    (CFBasicHash.create .linear false true false false .words).addIntValueAndInc 5 0 = .ok (ht', true) ∧
      Numbers .words false ht' [⟨5, 0, 1⟩] :=
  ((intValues_sound_iff (Callbacks.words_lawful true) (fun _ => rfl) (numbers_create .linear false false .words false)).1
    5 0 (by decide) (fun i hi => absurd hi List.not_mem_nil) le_rfl).mpr ⟨by decide, fun _ => ⟨by decide, fun h => nomatch h⟩⟩

/-- Keys that are added one behind the other, with the next number each. -/
def appendIntValue (ht : CFBasicHash) (k : Nat) : Except Fault CFBasicHash :=
  (ht.addIntValueAndInc (.ofNat (2 ^ 32 + k)) (.ofNat k)).map Prod.fst

theorem exists_numbers {n : Nat} (hn : n ≤ subABOne.toNat) :
    ∃ ht items, (List.range n).foldlM appendIntValue (.create .linear false true false false .words) = .ok ht ∧
      Numbers .words false ht items ∧ items.length = n ∧ ht.fastGrow = false ∧
      ∀ i ∈ items, i.key.toNat = 2 ^ 32 + i.value.toNat := by
  have hmax : subABOne.toNat = 2780474809 := rfl
  have hmin : subABZero.toNat = 2814029233 := rfl
  have hsize : UInt64.size = 2 ^ 64 := rfl
  have hlast : tableCapacity lastIdx = 3241355160 := rfl
  induction n with
  | zero =>
    exact ⟨_, [], rfl, numbers_create .linear false false .words false, rfl, rfl, fun i hi => absurd hi List.not_mem_nil⟩
  | succ n ih =>
    obtain ⟨ht, items, hfold, h, hlen, hfast, hkeys⟩ := ih (by omega)
    have hvalue : (UInt64.ofNat n).toNat = n := UInt64.toNat_ofNat_of_lt' (by omega)
    have hkey : (UInt64.ofNat (2 ^ 32 + n)).toNat = 2 ^ 32 + n := UInt64.toNat_ofNat_of_lt' (by omega)
    have hused : ht.usedBuckets = items.length := by
      obtain ⟨slots, hr⟩ := h.represents
      exact hr.usedBuckets_eq
    have hnew : ∀ i ∈ items, ¬ Callbacks.words.equateKeys i.key (.ofNat (2 ^ 32 + n)) := fun i hi heq => by
      have hlt := h.value_lt hi
      have hsum := hkeys i hi
      rw [show i.key = .ofNat (2 ^ 32 + n) from eq_of_beq heq, hkey] at hsum
      omega
    have hreq : ht.usedBuckets = tableCapacity ht.numBucketsIdx → Requestable ht 1 := fun _ => by
      refine ⟨?_, fun hf => by rw [hfast] at hf; cases hf⟩
      rw [hused]
      show items.length + 1 ≤ _
      omega
    obtain ⟨ht', hadd, hkept, h'⟩ := h.added (.ofNat (2 ^ 32 + n)) (.ofNat n) (Callbacks.words_lawful true)
      (fun _ => rfl) (reserved_of_gt (by omega)) hnew (by omega) (by omega) hreq
    refine ⟨ht', _, ?_, h', by rw [List.length_cons, List.length_map, hlen], hkept.fastGrow.trans hfast, ?_⟩
    · rw [List.range_succ, List.foldlM_append, hfold, ok_bind, List.foldlM_cons, appendIntValue, hadd]
      rfl
    · refine List.forall_mem_cons.mpr ⟨by rw [hvalue]; exact hkey, fun i hi => ?_⟩
      obtain ⟨i₀, hi₀, rfl⟩ := List.mem_map.mp hi
      have hlt := h.value_lt hi₀
      show i₀.key.toNat = 2 ^ 32 + (up (.ofNat n) i₀.value).toNat
      rw [toNat_up (by omega), if_neg (by omega)]
      exact hkeys i₀ hi₀

/-- With as many keys as the smaller reserved word says, one more in front moves a
number up to that word, which is read as `~0`. -/
theorem intValues_overflow : ∃ ht ht' items,
    (List.range 2780474809).foldlM appendIntValue (.create .linear false true false false .words) = .ok ht ∧
      Numbers .words false ht items ∧ (∀ i ∈ items, ¬ Callbacks.words.equateKeys i.key (2 ^ 33)) ∧
      ht.addIntValueAndInc (2 ^ 33) 0 = .ok (ht', true) ∧
      (∃ idx, ht.findBucket 7075442104 = .ok ⟨idx, 7075442104, 2780474808, 1⟩) ∧
      ∃ idx, ht'.findBucket 7075442104 = .ok ⟨idx, 7075442104, allOnes, 1⟩ := by
  have hl := Callbacks.words_lawful true
  obtain ⟨ht, items, hfold, h, hlen, hfast, hkeys⟩ := exists_numbers (show 2780474809 ≤ subABOne.toNat by decide)
  obtain ⟨slots, hr⟩ := h.represents
  obtain ⟨i, hi, hvalue⟩ : ∃ i ∈ items, i.value.toNat = 2780474808 :=
    List.mem_map.mp (h.values.mem_iff.mpr (List.mem_range.mpr (by omega)))
  have hkey : i.key = 7075442104 := UInt64.toNat_inj.mp (by rw [hkeys i hi, hvalue]; rfl)
  have hvalue : i.value = 2780474808 := UInt64.toNat_inj.mp hvalue
  have hcount := h.once i hi
  have hnew : ∀ r ∈ items, ¬ Callbacks.words.equateKeys r.key (2 ^ 33) := fun r hr heq => by
    have hlt := h.value_lt hr
    have hsum := hkeys r hr
    rw [show r.key = 2 ^ 33 from eq_of_beq heq, show (2 ^ 33 : UInt64).toNat = 2 ^ 33 from rfl] at hsum
    omega
  have hreq : ht.usedBuckets = tableCapacity ht.numBucketsIdx → Requestable ht 1 := fun _ => by
    have hlast : tableCapacity lastIdx = 3241355160 := rfl
    refine ⟨?_, fun hf => by rw [hfast] at hf; cases hf⟩
    rw [hr.usedBuckets_eq]
    show items.length + 1 ≤ _
    omega
  obtain ⟨ht', slots', hadd, -, hr'⟩ :=
    (addIntValueAndInc_spec hl hr (show reserved (2 ^ 33) = false by decide) (show reserved 0 = false by decide) hnew).1 hreq
  have hfree : reserved 7075442104 = false := by decide
  have hmoved : unstored (stored (up 0 2780474808)) = allOnes := by decide
  have hi' : i.renumbered (up 0) ∈ Callbacks.words.newItem true (2 ^ 33) 0 :: items.map (Item.renumbered (up 0)) :=
    List.mem_cons_of_mem _ (List.mem_map_of_mem hi)
  obtain ⟨⟨idx, -, hfound⟩, -⟩ := (represents_reports hl hr).found i hi 7075442104 hfree (hkey ▸ beq_self_eq_true i.key)
  obtain ⟨⟨idx', -, hfound'⟩, -⟩ := (represents_reports hl hr').found _ hi' 7075442104 hfree
    (show (i.key == 7075442104) = true by rw [hkey]; rfl)
  refine ⟨ht, ht', items, hfold, h, hnew, hadd, ⟨idx, ?_⟩, idx', ?_⟩
  · rw [hfound, hkey, hvalue, hcount]
  · rw [hfound']
    show Except.ok (Bucket.mk idx' i.key (unstored (stored (up 0 i.value))) i.count) = _
    rw [hkey, hvalue, hmoved, hcount]

end CFLite.BasicHash
