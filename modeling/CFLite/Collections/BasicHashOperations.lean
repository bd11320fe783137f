import CFLite.Collections.BasicHashRehash

/-!
# Adding to, replacing in and removing from a `CFBasicHash`

`Valid` is what holds of a table between two operations: it has not more entries
than the capacity of its size, so a bucket for one more is always among the probes
of its key. With that, what an operation does to the entries, and what it imports
and ejects, follows for any callbacks at all. `OnPaths` says besides that every
entry is where a lookup for its key can find it.

* `lookup_found`, `lookup_vacant`, `lookup_full`: what a lookup gives;
* `Becomes`: the outcome of a change, with the entries it leaves;
* `Grown`, `rehash_grows`: room for one more key;
* `addValueAt_becomes`, `addValueAt_error`, `replaceValueAt_becomes`,
  `removeValueAt_becomes`, `incSlotCount_becomes`, `decSlotCount_becomes`.
-/

namespace CFLite.BasicHash

open Framework

/-- The table `ht` with the buckets `slots`, between two operations. -/
structure Valid (ht : CFBasicHash) (slots : List (Slot Entry)) : Prop where
  holds : Holds ht slots
  idx : ht.numBucketsIdx ≤ lastIdx
  used : ht.usedBuckets = (entries slots).length
  cap : ht.usedBuckets ≤ tableCapacity ht.numBucketsIdx
  isMutable : ht.isMutable = true

/-- Every entry is on the path of the hash code by which a rehash would place it. -/
def OnPaths (ht : CFBasicHash) (slots : List (Slot Entry)) : Prop :=
  Placed (fun e => pathOf ht (rehashCode ht e)) slots

/-- `ht'` with `slots'` comes from `ht` with `slots`: it holds `after`, and `events` is
what the callbacks were called for. -/
structure Becomes (ht : CFBasicHash) (slots : List (Slot Entry)) (after : List Entry) (events : List Event)
    (ht' : CFBasicHash) (slots' : List (Slot Entry)) : Prop where
  valid : Valid ht' slots'
  kept : Kept ht ht'
  log : ht'.log = ht.log ++ events
  perm : (entries slots').Perm after

section

variable {ht ht' : CFBasicHash} {slots : List (Slot Entry)} {j : Nat} {e : Entry} {stackKey stackValue : Word}

theorem Holds.congr (h : Holds ht slots) (hkept : Kept ht ht') (hidx : ht'.numBucketsIdx = ht.numBucketsIdx)
    (hvalues : ht'.values = ht.values) (hkeys : ht'.keys = ht.keys) (hcounts : ht'.counts = ht.counts)
    (hhashes : ht'.hashes = ht.hashes) (hwidth : ht'.countsWidth = ht.countsWidth) : Holds ht' slots where
  length := hidx ▸ h.length
  values := hvalues ▸ h.values
  keys hk := hkeys ▸ h.keys (hkept.hasKeys ▸ hk)
  counts hk := hcounts ▸ h.counts (hkept.hasCounts ▸ hk)
  hashes hk := hhashes ▸ h.hashes (hkept.hasHashCache ▸ hk)
  fits e he := (h.fits e he).mono hkept.hasKeys hkept.hasCounts hwidth.ge
  width := hwidth ▸ h.width

theorem Kept.mutate (ht : CFBasicHash) : Kept ht ht.mutate := ⟨rfl, rfl, rfl, rfl, rfl, rfl, rfl, rfl⟩

/-- The two counters do not matter. -/
theorem Valid.withCounters (h : Valid ht slots) (deleted mutations : Nat) :
    Valid { ht with deleted := deleted, mutations := mutations } slots where
  holds := h.holds.congr ⟨rfl, rfl, rfl, rfl, rfl, rfl, rfl, rfl⟩ rfl rfl rfl rfl rfl rfl
  idx := h.idx
  used := h.used
  cap := h.cap
  isMutable := h.isMutable

/-! ## Lookups -/

theorem lookup_found (h : lookup ht slots stackKey = .found j e) :
    slots[j]? = some (.live e) ∧ sameEntry ht stackKey (ht.callbacks.hashKey stackKey) e := by
  unfold lookup at h
  split at h
  · cases h
  · exact search_found h

/-- The bucket for a new entry. -/
theorem lookup_vacant (h : lookup ht slots stackKey = .vacant (some j)) :
    Reaches slots (pathOf ht (ht.callbacks.hashKey stackKey)) j ∧ ∃ s, slots[j]? = some s ∧ s.Free := by
  unfold lookup at h
  split at h
  · cases h
  · rcases search_vacant h with hd | hr
    · cases hd
    · exact hr

/-- There is none only in a table that is filled to its capacity. -/
theorem lookup_full (h : Valid ht slots) (hv : lookup ht slots stackKey = .vacant none) :
    ht.usedBuckets = tableCapacity ht.numBucketsIdx := by
  refine le_antisymm h.cap (Nat.le_of_not_lt fun hlt => ?_)
  have h0 : 0 < ht.numBucketsIdx := by
    refine Nat.pos_of_ne_zero fun h0 => ?_
    rw [h0] at hlt
    exact absurd hlt (Nat.not_lt_zero _)
  unfold lookup at hv
  rw [if_neg h0.ne'] at hv
  have hcard : tableCapacity ht.numBucketsIdx ≤ (pathOf ht (ht.callbacks.hashKey stackKey)).toFinset.card :=
    tableCapacity_le_card_path h0 h.idx
  obtain ⟨p, hp, s, hs, hfree⟩ := exists_free (pathOf_lt h.holds h0 h.idx (ht.callbacks.hashKey stackKey))
    (lt_of_lt_of_le (h.used ▸ hlt) hcard)
  exact (search_vacant_none hv).2 p hp s hs hfree

/-! ## Adding -/

theorem tableCapacity_lastIdx_lt : tableCapacity lastIdx + 1 < 2 ^ 32 := by decide

theorem Valid.used_lt (h : Valid ht slots) : ht.usedBuckets + 1 < 2 ^ 32 := by
  have := h.cap.trans (tableCapacity_mono h.idx le_rfl)
  have := tableCapacity_lastIdx_lt
  omega

theorem Valid.becomes_of_rehashed {idx : Nat} {entries₀ : List Entry} {slots' : List (Slot Entry)} (h : Valid ht slots)
    (hr : Rehashed ht entries₀ idx slots' ht') (hidx : idx ≤ lastIdx) (hperm : entries₀.Perm (entries slots))
    (hcap : ht.usedBuckets ≤ tableCapacity idx) : Valid ht' slots' where
  holds := hr.holds
  idx := hr.idx ▸ hidx
  used := by rw [hr.used, h.used, (hr.perm.trans hperm).length_eq]
  cap := by rw [hr.used, hr.idx]; exact hcap
  isMutable := hr.kept.isMutable.trans h.isMutable

theorem Rehashed.onPaths {idx : Nat} {entries₀ : List Entry} {slots' : List (Slot Entry)}
    (hr : Rehashed ht entries₀ idx slots' ht') : OnPaths ht' slots' := by
  intro j e he
  have hreach := hr.placed he
  show Reaches slots' (pathOf ht' (rehashCode ht' e)) j
  rw [hr.kept.rehashCode, pathOf, hr.kept.hashStyle, hr.idx]
  exact hreach

theorem Kept.newEntry (h : Kept ht ht') (stackKey stackValue : Word) :
    newEntry ht' stackKey stackValue = newEntry ht stackKey stackValue := by
  unfold BasicHash.newEntry importedKey
  rw [h.hasKeys, h.callbacks]

theorem Kept.imports (h : Kept ht ht') (stackKey stackValue : Word) :
    imports ht' stackKey stackValue = imports ht stackKey stackValue := by
  unfold BasicHash.imports
  rw [h.hasKeys, h.callbacks]

/-- A free bucket that is on the path of `stackKey` is filled. -/
theorem fillBucket_becomes (h : Valid ht slots) {s : Slot Entry} (hs : slots[j]? = some s) (hfree : s.Free)
    (hcap : ht.usedBuckets < tableCapacity ht.numBucketsIdx) (hfit : Fits ht (newEntry ht stackKey stackValue)) :
    ∃ ht', ht.fillBucket j stackKey stackValue = .ok ht' ∧
      Becomes ht slots (newEntry ht stackKey stackValue :: entries slots) (imports ht stackKey stackValue) ht'
        (slots.set j (.live (newEntry ht stackKey stackValue))) ∧ ht'.numBucketsIdx = ht.numBucketsIdx := by
  obtain ⟨ht', hfill, hc, hused⟩ := fillBucket_spec h.holds hs hfree hfit
  have hperm := perm_entries_fill hs hfree (newEntry ht stackKey stackValue)
  rw [Nat.mod_eq_of_lt h.used_lt] at hused
  refine ⟨ht', hfill, ⟨⟨hc.holds, hc.idx ▸ h.idx, ?_, ?_, hc.kept.isMutable.trans h.isMutable⟩, hc.kept, hc.log, hperm⟩,
    hc.idx⟩
  · rw [hused, h.used, hperm.length_eq, List.length_cons]
  · rw [hused, hc.idx]
    exact hcap

theorem Kept.pathOf (h : Kept ht ht') (hidx : ht'.numBucketsIdx = ht.numBucketsIdx) (hashCode : Word) :
    pathOf ht' hashCode = pathOf ht hashCode := by
  unfold BasicHash.pathOf
  rw [h.hashStyle, hidx]

theorem OnPaths.congr (h : OnPaths ht slots) (hkept : Kept ht ht') (hidx : ht'.numBucketsIdx = ht.numBucketsIdx) :
    OnPaths ht' slots := by
  intro j e he
  show Reaches slots (pathOf ht' (rehashCode ht' e)) j
  rw [hkept.pathOf hidx, hkept.rehashCode]
  exact h he

/-- A new entry whose own hash code is that of the key it is added for. -/
theorem OnPaths.fill (h : OnPaths ht slots)
    (hcode : rehashCode ht (newEntry ht stackKey stackValue) = ht.callbacks.hashKey stackKey)
    (hr : Reaches slots (pathOf ht (ht.callbacks.hashKey stackKey)) j) :
    OnPaths ht (slots.set j (.live (newEntry ht stackKey stackValue))) := by
  refine Placed.set_live h ?_
  rw [hcode]
  exact hr

/-- A free bucket on the path of the key, in a table with room. -/
theorem addValueAt_free (h : Valid ht slots) {s : Slot Entry} (hs : slots[j]? = some s) (hfree : s.Free)
    (hreach : Reaches slots (pathOf ht (ht.callbacks.hashKey stackKey)) j)
    (hlt : ht.usedBuckets < tableCapacity ht.numBucketsIdx) (hfit : Fits ht (newEntry ht stackKey stackValue)) :
    ∃ ht', ht.addValueAt j stackKey stackValue = .ok ht' ∧
      Becomes ht slots (newEntry ht stackKey stackValue :: entries slots) (imports ht stackKey stackValue) ht'
        (slots.set j (.live (newEntry ht stackKey stackValue))) ∧
      (rehashCode ht (newEntry ht stackKey stackValue) = ht.callbacks.hashKey stackKey → OnPaths ht slots →
        OnPaths ht' (slots.set j (.live (newEntry ht stackKey stackValue)))) := by
  have hm : Valid ht.mutate slots := h.withCounters ht.deleted _
  unfold CFBasicHash.addValueAt
  dsimp only
  rw [if_neg (by rw [Nat.mod_eq_of_lt hm.used_lt]; exact Nat.not_lt.mpr hlt)]
  obtain ⟨ht', hbranch, hb, hidx⟩ : ∃ ht', (do
      if ← ht.mutate.isDeleted j then
        let ht := { ht.mutate with deleted := (ht.mutate.deleted + 2 ^ 16 - 1) % 2 ^ 16 }
        ht.fillBucket j stackKey stackValue
      else ht.mutate.fillBucket j stackKey stackValue) = .ok ht' ∧
      Becomes ht slots (newEntry ht stackKey stackValue :: entries slots) (imports ht stackKey stackValue) ht'
        (slots.set j (.live (newEntry ht stackKey stackValue))) ∧ ht'.numBucketsIdx = ht.numBucketsIdx := by
    rw [CFBasicHash.isDeleted, hm.holds.cell_values hs, ok_bind, pure_eq_ok, ok_bind]
    have fill : ∀ deleted, ∃ ht', { ht.mutate with deleted := deleted }.fillBucket j stackKey stackValue = .ok ht' ∧
        Becomes ht slots (newEntry ht stackKey stackValue :: entries slots) (imports ht stackKey stackValue) ht'
          (slots.set j (.live (newEntry ht stackKey stackValue))) ∧ ht'.numBucketsIdx = ht.numBucketsIdx := by
      intro deleted
      have hd := h.withCounters deleted ht.mutate.mutations
      have hkd : Kept ht { ht.mutate with deleted := deleted } := ⟨rfl, rfl, rfl, rfl, rfl, rfl, rfl, rfl⟩
      obtain ⟨ht', hfill, hb, hidx⟩ := fillBucket_becomes hd hs hfree hlt (hfit.mono rfl rfl le_rfl)
      exact ⟨ht', hfill, ⟨hb.valid, hkd.trans hb.kept, hb.log, hb.perm⟩, hidx⟩
    split
    · exact fill _
    · exact fill ht.mutate.deleted
  refine ⟨ht', hbranch, hb, fun hcode hpaths => ?_⟩
  exact (hpaths.fill hcode hreach).congr hb.kept hidx

/-- A table that has grown for the key `stackKey`, with the place for it. -/
structure Grown (ht : CFBasicHash) (slots : List (Slot Entry)) (stackKey : Word) (ht' : CFBasicHash)
    (slots' : List (Slot Entry)) (j : Nat) : Prop where
  becomes : Becomes ht slots (entries slots) [] ht' slots'
  width : ht'.countsWidth = ht.countsWidth
  paths : OnPaths ht' slots'
  room : ht'.usedBuckets < tableCapacity ht'.numBucketsIdx
  reaches : Reaches slots' (pathOf ht' (ht'.callbacks.hashKey stackKey)) j
  empty : slots'[j]? = some .empty

theorem rehash_grows (h : Valid ht slots) (hreq : Requestable ht 1) (stackKey : Word) :
    ∃ ht' slots' j, ht.rehash 1 = .ok ht' ∧ ht'.findBucketNoCollision stackKey 0 = .ok (j : Nat) ∧
      Grown ht slots stackKey ht' slots' j := by
  obtain ⟨idx, ht', slots', hrehash, hr, hidx, hroom⟩ := rehash_spec h.holds h.idx h.used h.cap hreq
  have hroom' : ht.usedBuckets + 1 ≤ tableCapacity idx := hroom
  have h' : Valid ht' slots' := h.becomes_of_rehashed hr hidx (List.Perm.refl _) (Nat.le_of_succ_le hroom')
  have hlt : ht'.usedBuckets < tableCapacity ht'.numBucketsIdx := by
    rw [hr.used, hr.idx]
    exact hroom'
  have hpos : 0 < ht'.numBucketsIdx := by
    refine Nat.pos_of_ne_zero fun h0 => ?_
    rw [h0] at hlt
    exact absurd hlt (Nat.not_lt_zero _)
  obtain ⟨j, hj⟩ := exists_firstEmpty h'.holds hpos h'.idx (h'.used ▸ hlt) hr.noDeleted (ht'.callbacks.hashKey stackKey)
  obtain ⟨hreach, hempty⟩ := firstEmpty_eq_some hj
  refine ⟨ht', slots', j, hrehash, ?_, ⟨h', hr.kept, by rw [hr.log, List.append_nil], hr.perm⟩, hr.width, hr.onPaths,
    hlt, hreach, hempty⟩
  rw [findBucketNoCollision_eq h'.holds hpos h'.idx, if_pos rfl, hj]
  rfl

/-- The table for an entry that is not there yet: it has room, or becomes one that has. -/
theorem addValueAt_becomes (h : Valid ht slots) {vacant : Option Nat} (hv : lookup ht slots stackKey = .vacant vacant)
    (hfit : Fits ht (newEntry ht stackKey stackValue))
    (hreq : ht.usedBuckets = tableCapacity ht.numBucketsIdx → Requestable ht 1) :
    ∃ ht' slots', ht.addValueAt (idxOf vacant) stackKey stackValue = .ok ht' ∧
      Becomes ht slots (newEntry ht stackKey stackValue :: entries slots) (imports ht stackKey stackValue) ht' slots' ∧
      (rehashCode ht (newEntry ht stackKey stackValue) = ht.callbacks.hashKey stackKey → OnPaths ht slots →
        OnPaths ht' slots') := by
  by_cases hfull : ht.usedBuckets = tableCapacity ht.numBucketsIdx
  · -- the table grows, and the place is looked for again
    have hm : Valid ht.mutate slots := h.withCounters ht.deleted _
    obtain ⟨ht₁, slots₁, j, hrehash, hfind, hg⟩ := rehash_grows hm (hreq hfull) stackKey
    have hkept : Kept ht ht₁ := (Kept.mutate ht).trans hg.becomes.kept
    have hnew := hkept.newEntry stackKey stackValue
    obtain ⟨ht₂, hfill, hb, hidx₂⟩ := fillBucket_becomes hg.becomes.valid hg.empty rfl hg.room
      (by rw [hnew]; exact hfit.mono hkept.hasKeys hkept.hasCounts hg.width.ge)
    refine ⟨ht₂, _, ?_, ⟨hb.valid, hkept.trans hb.kept, ?_, ?_⟩, fun hcode _ => ?_⟩
    · unfold CFBasicHash.addValueAt
      dsimp only
      rw [if_pos (by rw [Nat.mod_eq_of_lt hm.used_lt]; show _ < ht.usedBuckets + 1; rw [hfull]; exact Nat.lt_succ_self _),
        hrehash, ok_bind, hfind, ok_bind]
      exact hfill
    · rw [hb.log, hg.becomes.log, List.append_nil, hkept.imports]
      rfl
    · rw [← hnew]
      exact hb.perm.trans (hg.becomes.perm.cons _)
    · refine (OnPaths.fill hg.paths ?_ hg.reaches).congr hb.kept hidx₂
      rw [hnew, hkept.rehashCode, hcode, hkept.callbacks]
  · have hlt : ht.usedBuckets < tableCapacity ht.numBucketsIdx := lt_of_le_of_ne h.cap hfull
    cases vacant with
    | none => exact absurd (lookup_full h hv) hfull
    | some j =>
      obtain ⟨hreach, s, hs, hfree⟩ := lookup_vacant hv
      obtain ⟨ht', hadd, hb, hpaths⟩ := addValueAt_free h hs hfree hreach hlt hfit
      exact ⟨ht', _, hadd, hb, hpaths⟩

theorem addValueAt_error (h : Valid ht slots) (hfull : ht.usedBuckets = tableCapacity ht.numBucketsIdx)
    (hreq : ¬ Requestable ht 1) (bktIdx : Int) :
    ∃ fault, ht.addValueAt bktIdx stackKey stackValue = .error fault ∧ (ht.fastGrow = false → fault = .halt) := by
  have hm : Valid ht.mutate slots := h.withCounters ht.deleted _
  have hreq' : ¬ Requestable ht.mutate 1 := hreq
  obtain ⟨fault, hrehash, hfault⟩ := rehash_error hm.holds hm.used one_ne_zero hreq'
  refine ⟨fault, ?_, hfault⟩
  unfold CFBasicHash.addValueAt
  dsimp only
  rw [if_pos (by rw [Nat.mod_eq_of_lt hm.used_lt]; show _ < ht.usedBuckets + 1; rw [hfull]; exact Nat.lt_succ_self _),
    hrehash]
  rfl

/-! ## Replacing and counting -/

/-- An entry becomes another one with the same hash code. -/
theorem Changed.becomes (h : Valid ht slots) (hs : slots[j]? = some (.live e)) {e' : Entry} {events : List Event}
    (hc : Changed ht (slots.set j (.live e')) events ht') (hused : ht'.usedBuckets = ht.usedBuckets)
    {rest : List Entry} (hrest : (entries slots).Perm (e :: rest)) :
    Becomes ht slots (e' :: rest) events ht' (slots.set j (.live e')) := by
  have hperm : (entries (slots.set j (.live e'))).Perm (e' :: rest) := by
    refine (List.perm_cons e).mp ((perm_entries_replace hs e').trans ?_)
    exact (hrest.cons e').trans (List.Perm.swap ..)
  refine ⟨⟨hc.holds, hc.idx ▸ h.idx, ?_, ?_, hc.kept.isMutable.trans h.isMutable⟩, hc.kept, hc.log, hperm⟩
  · rw [hused, h.used, hperm.length_eq, hrest.length_eq]
    rfl
  · rw [hused, hc.idx]
    exact h.cap

theorem OnPaths.replace (h : OnPaths ht slots) (hs : slots[j]? = some (.live e)) {e' : Entry} {events : List Event}
    (hc : Changed ht (slots.set j (.live e')) events ht') (hcode : rehashCode ht e' = rehashCode ht e) :
    OnPaths ht' (slots.set j (.live e')) := by
  have hset : OnPaths ht (slots.set j (.live e')) := by
    refine Placed.set_live h ?_
    rw [hcode]
    exact h hs
  exact hset.congr hc.kept hc.idx

/-- The entry that was found is one of them. -/
theorem exists_perm_cons (hs : slots[j]? = some (.live e)) : ∃ rest, (entries slots).Perm (e :: rest) :=
  ⟨_, List.perm_cons_erase (mem_entries_iff.mpr ⟨j, hs⟩)⟩

theorem replaceValueAt_becomes (h : Valid ht slots) (hs : slots[j]? = some (.live e))
    (hfit : Fits ht (replaced ht stackKey stackValue e)) {rest : List Entry} (hrest : (entries slots).Perm (e :: rest)) :
    ∃ ht', ht.replaceValueAt j stackKey stackValue = .ok ht' ∧
      Becomes ht slots (replaced ht stackKey stackValue e :: rest)
        (imports ht stackKey stackValue ++ ejects ht (.live e)) ht'
        (slots.set j (.live (replaced ht stackKey stackValue e))) ∧
      (rehashCode ht (replaced ht stackKey stackValue e) = rehashCode ht e → OnPaths ht slots →
        OnPaths ht' (slots.set j (.live (replaced ht stackKey stackValue e)))) := by
  obtain ⟨ht', hreplace, hc, hused⟩ := replaceValueAt_spec h.holds hs hfit
  exact ⟨ht', hreplace, hc.becomes h hs hused hrest, fun hcode hpaths => hpaths.replace hs hc hcode⟩

/-- `e` with another count. -/
def Entry.counted (e : Entry) (count : Nat) : Entry := { e with count := count }

theorem setCount_changed (h : Valid ht slots) (hk : ht.hasCounts) (hs : slots[j]? = some (.live e)) {count width : Nat}
    (hw : ht.countsWidth ≤ width) (hw3 : width ≤ 3) (hpos : 0 < count) (hmax : count ≤ countMax width) (mutations : Nat) :
    Changed ht (slots.set j (.live (e.counted count))) []
      { ht with countsWidth := width, counts := ht.counts.set j count, mutations := mutations } := by
  have hfits := h.holds.fits_of_live hs
  refine ⟨⟨rfl, rfl, rfl, rfl, rfl, rfl, rfl, rfl⟩, ?_, rfl, (List.append_nil _).symm⟩
  refine h.holds.set ?_ ?_ ?_ (fun hk => ?_) (fun _ => ?_) (fun hh => ?_) ?_ ?_ fun e' he => ?_
  · exact ⟨rfl, rfl, rfl, rfl, rfl, rfl, rfl, rfl⟩
  · rfl
  · exact (set_of_getElem? (h.holds.value_at hs)).symm
  · exact (set_of_getElem? (h.holds.key_at hk hs)).symm
  · rfl
  · exact (set_of_getElem? (h.holds.hash_at hh hs)).symm
  · exact hw
  · exact hw3
  · cases he
    refine ⟨hfits.key, hfits.value, hfits.keyed, hpos, ?_⟩
    rw [if_pos hk]
    exact hmax

theorem incSlotCount_becomes (h : Valid ht slots) (hk : ht.hasCounts) (hs : slots[j]? = some (.live e))
    (hlt : e.count < longMax) {rest : List Entry} (hrest : (entries slots).Perm (e :: rest)) :
    ∃ ht', ht.mutate.incSlotCount j = .ok ht' ∧
      Becomes ht slots (e.counted (e.count + 1) :: rest) [] ht' (slots.set j (.live (e.counted (e.count + 1)))) ∧
      (OnPaths ht slots → OnPaths ht' (slots.set j (.live (e.counted (e.count + 1))))) := by
  have hfits := h.holds.fits_of_live hs
  have hle := hfits.count
  rw [if_pos hk] at hle
  have hcount : ht.mutate.counts[j]? = some e.count := h.holds.count_at hk hs
  obtain ⟨width, hw, hw3, hmax, -, hinc⟩ := incSlotCount_eq hcount h.holds.width hle hlt
  have hc := setCount_changed h hk hs hw hw3 (Nat.succ_pos _) hmax ht.mutate.mutations
  exact ⟨_, hinc, hc.becomes h hs rfl hrest, fun hpaths => hpaths.replace hs hc rfl⟩

theorem decSlotCount_becomes (h : Valid ht slots) (hk : ht.hasCounts) (hs : slots[j]? = some (.live e))
    (hone : 1 < e.count) {rest : List Entry} (hrest : (entries slots).Perm (e :: rest)) :
    ∃ ht', ht.mutate.decSlotCount j = .ok ht' ∧
      Becomes ht slots (e.counted (e.count - 1) :: rest) [] ht' (slots.set j (.live (e.counted (e.count - 1)))) ∧
      (OnPaths ht slots → OnPaths ht' (slots.set j (.live (e.counted (e.count - 1))))) := by
  have hfits := h.holds.fits_of_live hs
  have hle := hfits.count
  rw [if_pos hk] at hle
  have hcount : ht.mutate.counts[j]? = some e.count := h.holds.count_at hk hs
  have hdec := decSlotCount_eq hcount hfits.pos hle
  have hc := setCount_changed h hk hs le_rfl h.holds.width (show 0 < e.count - 1 by omega)
    ((Nat.sub_le _ _).trans hle) ht.mutate.mutations
  exact ⟨_, hdec, hc.becomes h hs rfl hrest, fun hpaths => hpaths.replace hs hc rfl⟩

/-! ## Removing -/

theorem removeValueAt_becomes (h : Valid ht slots) (hs : slots[j]? = some (.live e)) (hone : e.count = 1)
    {rest : List Entry} (hrest : (entries slots).Perm (e :: rest)) :
    ∃ ht' slots', ht.removeValueAt j = .ok ht' ∧ Becomes ht slots rest (ejects ht (.live e)) ht' slots' ∧
      (OnPaths ht slots → OnPaths ht' slots') := by
  have hm : Valid ht.mutate slots := h.withCounters ht.deleted _
  obtain ⟨ht₁, hclear, hc, hused⟩ := clearBucket_spec hm.holds hs hone
  have hkept : Kept ht ht₁ := (Kept.mutate ht).trans hc.kept
  have hperm : (entries (slots.set j .deleted)).Perm rest :=
    (List.perm_cons e).mp ((perm_entries_delete hs).trans hrest)
  have hlen : ht.usedBuckets = rest.length + 1 := by rw [h.used, hrest.length_eq, List.length_cons]
  have hused₁ : ht₁.usedBuckets = rest.length := by
    have := h.used_lt
    rw [hused, show ht.mutate.usedBuckets = ht.usedBuckets from rfl, hlen]
    rw [show rest.length + 1 + 2 ^ 32 - 1 = rest.length + 2 ^ 32 by omega, Nat.add_mod_right]
    exact Nat.mod_eq_of_lt (by omega)
  have hcap := h.cap
  have hidx₁ : ht₁.numBucketsIdx = ht.numBucketsIdx := hc.idx
  have h₁ : Valid ht₁ (slots.set j .deleted) :=
    ⟨hc.holds, hidx₁ ▸ h.idx, by rw [hused₁, hperm.length_eq], by rw [hused₁, hidx₁]; omega,
      hkept.isMutable.trans h.isMutable⟩
  have hpaths : OnPaths ht slots → OnPaths ht₁ (slots.set j .deleted) := fun hp => by
    have hset : OnPaths ht (slots.set j .deleted) := Placed.set_deleted hp j
    exact hset.congr hkept hidx₁
  -- a rehash changes nothing in the entries
  have rehashed : ∀ newItemCount : Int, newItemCount ≤ 0 → ∃ ht' slots', ht₁.rehash newItemCount = .ok ht' ∧
      Becomes ht slots rest (ejects ht (.live e)) ht' slots' ∧ (OnPaths ht slots → OnPaths ht' slots') := by
    intro newItemCount hle
    have hlast := h₁.cap.trans (tableCapacity_mono h₁.idx le_rfl)
    have hreq : Requestable ht₁ newItemCount := by
      refine ⟨by omega, fun _ h1 => ?_⟩
      omega
    obtain ⟨idx, ht', slots', hrehash, hr, hidx, hroom⟩ := rehash_spec h₁.holds h₁.idx h₁.used h₁.cap hreq
    refine ⟨ht', slots', hrehash, ⟨?_, hkept.trans hr.kept, hr.log.trans hc.log, hr.perm.trans hperm⟩, fun _ => hr.onPaths⟩
    exact h₁.becomes_of_rehashed hr hidx (List.Perm.refl _) (by omega)
  unfold CFBasicHash.removeValueAt
  rw [hclear, ok_bind]
  split
  · exact rehashed (-1) (by omega)
  · split
    · exact rehashed 0 le_rfl
    · exact ⟨ht₁, _, rfl, ⟨h₁, hkept, hc.log, hperm⟩, hpaths⟩

end

end CFLite.BasicHash
