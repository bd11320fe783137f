import CFLite.Collections.BasicHashChanges

/-!
# `__CFBasicHashRehash`

A rehash moves every live bucket, in order, to the first empty bucket of its probes
in new arrays. It has no other effect: nothing is imported or ejected, and the
entries are the same. There is no room for it when the new size would stand behind
the last row of the tables.

* `Rehashed`: what a rehash leaves, and `rehashInto_spec`: one with a given size;
* `Requestable`: a size for the request is tabulated, `rehash_spec` and
  `rehash_error`: so it decides whether the rehash ends.
-/

namespace CFLite.BasicHash

open Framework

/-- `ht'` holds the entries of `ht` in `slots`, a table of size `idx` in which nothing
was deleted and every entry is on its path. -/
structure Rehashed (ht : CFBasicHash) (entries₀ : List Entry) (newIdx : Nat) (slots : List (Slot Entry))
    (ht' : CFBasicHash) : Prop where
  kept : Kept ht ht'
  holds : Holds ht' slots
  idx : ht'.numBucketsIdx = newIdx
  log : ht'.log = ht.log
  used : ht'.usedBuckets = ht.usedBuckets
  width : ht'.countsWidth = ht.countsWidth
  perm : (entries slots).Perm entries₀
  noDeleted : Slot.deleted ∉ slots
  placed : Placed (fun e => path ht.hashStyle newIdx (rehashCode ht e)) slots

section

variable {ht ht' : CFBasicHash} {oldSlots slots : List (Slot Entry)} {idx : Nat}

theorem Kept.rehashCode (h : Kept ht ht') (e : Entry) : rehashCode ht' e = rehashCode ht e := by
  unfold BasicHash.rehashCode
  rw [h.hasHashCache, h.callbacks]

/-- The new arrays, before anything is moved. -/
theorem rehashed_withBuckets (h : Holds ht oldSlots) (idx : Nat) :
    Rehashed ht [] idx (List.replicate (tableSize idx) .empty) (ht.withBuckets idx) where
  kept := ⟨rfl, rfl, rfl, rfl, rfl, rfl, rfl, rfl⟩
  holds :=
    { length := List.length_replicate
      values := by rw [List.map_replicate]; rfl
      keys := fun hk => by rw [List.map_replicate]; exact if_pos hk
      counts := fun hk => by rw [List.map_replicate]; exact if_pos hk
      hashes := fun hk => by rw [List.map_replicate]; exact if_pos hk
      fits := fun e he => by rw [entries_replicate_empty] at he; cases he
      width := h.width }
  idx := rfl
  log := rfl
  used := rfl
  width := rfl
  perm := by rw [entries_replicate_empty]
  noDeleted h := by cases List.eq_of_mem_replicate h
  placed := Placed.replicate_empty _

/-- In a table with room there is a place for one more entry. -/
theorem exists_firstEmpty (h : Holds ht slots) (h0 : 0 < ht.numBucketsIdx) (hidx : ht.numBucketsIdx ≤ lastIdx)
    (hroom : (entries slots).length < tableCapacity ht.numBucketsIdx) (hno : Slot.deleted ∉ slots) (hashCode : Word) :
    ∃ j, firstEmpty slots (pathOf ht hashCode) = some j := by
  obtain ⟨p, hp, s, hs, hfree⟩ := exists_free (pathOf_lt h h0 hidx hashCode)
    (lt_of_lt_of_le hroom (tableCapacity_le_card_path h0 hidx))
  cases hf : firstEmpty slots (pathOf ht hashCode) with
  | some j => exact ⟨j, rfl⟩
  | none =>
    have hne := firstEmpty_eq_none hf p hp
    cases s with
    | empty => exact absurd hs hne
    | deleted => exact absurd (List.mem_of_getElem? hs) hno
    | live e => cases hfree

theorem entries_take_succ {slots : List (Slot Entry)} {i : Nat} {s : Slot Entry} (hs : slots[i]? = some s) :
    entries (slots.take (i + 1)) = entries (slots.take i) ++ s.held.toList := by
  rw [List.take_add_one, hs, entries_append]
  cases s <;> rfl

/-- The entry of bucket `i` is moved. -/
theorem Rehashed.move (hold : Holds ht oldSlots) {i : Nat} {e : Entry} (hs : oldSlots[i]? = some (.live e))
    {entries₀ : List Entry} (h : Rehashed ht entries₀ idx slots ht') (h0 : 0 < idx) (hidx : idx ≤ lastIdx)
    (hroom : entries₀.length < tableCapacity idx) :
    ∃ ht'' slots', ht.moveBucket ht' i = .ok ht'' ∧ Rehashed ht (entries₀ ++ [e]) idx slots' ht'' := by
  have hlen : (entries slots).length < tableCapacity ht'.numBucketsIdx := by rwa [h.perm.length_eq, h.idx]
  obtain ⟨j, hj⟩ := exists_firstEmpty h.holds (h.idx ▸ h0) (h.idx ▸ hidx) hlen h.noDeleted (rehashCode ht' e)
  obtain ⟨hreach, hempty⟩ := firstEmpty_eq_some hj
  obtain ⟨ht'', hmove, hc, hused, hwidth⟩ := moveBucket_spec hold hs h.holds h.kept h.width (h.idx ▸ h0) (h.idx ▸ hidx) hj
  refine ⟨ht'', slots.set j (.live e), hmove, h.kept.trans hc.kept, hc.holds, hc.idx.trans h.idx, ?_,
    hused.trans h.used, hwidth.trans h.width, ?_, ?_, ?_⟩
  · rw [hc.log, h.log, List.append_nil]
  · refine (perm_entries_fill hempty rfl e).trans ?_
    exact (h.perm.cons e).trans (List.perm_append_singleton ..).symm
  · intro hd
    rcases List.mem_or_eq_of_mem_set hd with hd | hd
    · exact h.noDeleted hd
    · cases hd
  · refine h.placed.set_live ?_
    rwa [h.kept.rehashCode, pathOf, h.kept.hashStyle, h.idx] at hreach

/-- All the buckets are moved, if the new table has room for them. -/
theorem rehashInto_spec (h : Holds ht oldSlots) (hidx : idx ≤ lastIdx)
    (hroom : (entries oldSlots).length ≤ tableCapacity idx) :
    ∃ ht' slots, (List.range ht.getNumBuckets).foldlM ht.moveBucket (ht.withBuckets idx) = .ok ht' ∧
      Rehashed ht (entries oldSlots) idx slots ht' := by
  -- by induction on how many buckets the loop has seen
  have loop : ∀ i, i ≤ oldSlots.length → ∃ ht' slots,
      (List.range i).foldlM ht.moveBucket (ht.withBuckets idx) = .ok ht' ∧
        Rehashed ht (entries (oldSlots.take i)) idx slots ht' := by
    intro i
    induction i with
    | zero => exact fun _ => ⟨_, _, rfl, rehashed_withBuckets h idx⟩
    | succ i ih =>
      intro hi
      obtain ⟨ht', slots, hfold, hr⟩ := ih (Nat.le_of_succ_le hi)
      have hs : oldSlots[i]? = some oldSlots[i] := List.getElem?_eq_getElem hi
      rw [List.range_succ, List.foldlM_append, hfold, ok_bind, entries_take_succ hs]
      rcases Slot.free_or_live oldSlots[i] with hfree | ⟨e, he⟩
      · refine ⟨ht', slots, ?_, ?_⟩
        · rw [List.foldlM_cons, moveBucket_free h hs hfree]
          rfl
        · rwa [hfree, Option.toList_none, List.append_nil]
      · rw [he] at hs
        have hlt : (entries (oldSlots.take i)).length < tableCapacity idx := by
          refine lt_of_lt_of_le ?_ hroom
          conv_rhs => rw [← List.take_append_drop (i + 1) oldSlots, entries_append, entries_take_succ hs]
          simp [Slot.held]
        have hpos : 0 < idx := by
          rcases Nat.eq_zero_or_pos idx with rfl | hpos
          · exact absurd hlt (Nat.not_lt_zero _)
          · exact hpos
        obtain ⟨ht'', slots', hmove, hr'⟩ := hr.move h hs hpos hidx hlt
        refine ⟨ht'', slots', ?_, ?_⟩
        · rw [List.foldlM_cons, hmove]
          rfl
        · rwa [he]
  obtain ⟨ht', slots, hfold, hr⟩ := loop oldSlots.length le_rfl
  rw [h.length] at hfold
  rw [List.take_length] at hr
  exact ⟨ht', slots, hfold, hr⟩

/-! ## The size after a rehash -/

theorem tableCapacity_strictMono {i j : Nat} (hij : i < j) (hj : j ≤ lastIdx) : tableCapacity i < tableCapacity j := by
  induction j with
  | zero => exact absurd hij (Nat.not_lt_zero i)
  | succ j ih =>
    have hlast := (row (Nat.succ_pos j) hj).2.2.2.2
    rcases Nat.lt_succ_iff_lt_or_eq.mp hij with hlt | rfl
    · exact (ih hlt (Nat.le_of_succ_le hj)).trans hlast
    · exact hlast

theorem tableCapacity_mono {i j : Nat} (hij : i ≤ j) (hj : j ≤ lastIdx) : tableCapacity i ≤ tableCapacity j := by
  rcases Nat.eq_or_lt_of_le hij with rfl | hlt
  · exact le_rfl
  · exact (tableCapacity_strictMono hlt hj).le

theorem tableCapacity_behind (h : lastIdx < idx) : tableCapacity idx = 0 := by
  rw [tableCapacity, List.getD_eq_getElem?_getD, List.getElem?_eq_none (by exact h)]
  rfl

theorem tableSize_behind (h : lastIdx < idx) : tableSize idx = 0 := by
  rw [tableSize, List.getD_eq_getElem?_getD, List.getElem?_eq_none (by exact h)]
  rfl

/-- The first row of the tables with the capacity that is asked for. -/
theorem getNumBucketsIndexForCapacity_spec {capacity : Nat} (h : capacity ≤ tableCapacity lastIdx) :
    ∃ idx, CFBasicHash.getNumBucketsIndexForCapacity capacity = .ok idx ∧ idx ≤ lastIdx ∧
      capacity ≤ tableCapacity idx ∧ ∀ i, i < idx → tableCapacity i < capacity := by
  unfold CFBasicHash.getNumBucketsIndexForCapacity
  cases hf : (List.range 64).find? fun idx => capacity ≤ tableCapacity idx with
  | none =>
    have := List.find?_eq_none.mp hf lastIdx (by decide)
    exact absurd h (by simpa using this)
  | some idx =>
    have hle : capacity ≤ tableCapacity idx := by simpa using List.find?_some hf
    have hbefore : ∀ i, i < idx → tableCapacity i < capacity := by
      intro i hi
      obtain ⟨-, k, hk, heq, hbefore⟩ := List.find?_eq_some_iff_getElem.mp hf
      rw [List.getElem_range] at heq
      have := hbefore i (heq ▸ hi)
      rw [List.getElem_range] at this
      simpa using this
    refine ⟨idx, rfl, ?_, hle, hbefore⟩
    by_contra hlt
    exact absurd (hbefore lastIdx (by omega)) (by omega)

theorem getNumBucketsIndexForCapacity_halt {capacity : Nat} (h : tableCapacity lastIdx < capacity) :
    CFBasicHash.getNumBucketsIndexForCapacity capacity = .error .halt := by
  unfold CFBasicHash.getNumBucketsIndexForCapacity
  rw [List.find?_eq_none.mpr]
  intro idx _
  rw [decide_eq_true_eq, Nat.not_le]
  rcases Nat.lt_or_ge lastIdx idx with hlt | hle
  · rw [tableCapacity_behind hlt]
    exact Nat.zero_lt_of_lt h
  · exact (tableCapacity_mono hle le_rfl).trans_lt h

/-- There is a row for `newItemCount` more entries, or for one more and aggressive
growth. -/
def Requestable (ht : CFBasicHash) (newItemCount : Int) : Prop :=
  ht.usedBuckets + newItemCount.toNat ≤ tableCapacity lastIdx ∧
    (ht.fastGrow → newItemCount = 1 → ht.usedBuckets + 1 ≤ tableCapacity (lastIdx - 1))

theorem rehashedIdx_spec {newItemCount : Int} (hne : newItemCount ≠ 0) (hreq : Requestable ht newItemCount) :
    ∃ idx, ht.rehashedIdx newItemCount = .ok idx ∧ idx ≤ lastIdx ∧
      ht.usedBuckets + newItemCount.toNat ≤ tableCapacity idx := by
  obtain ⟨idx, hget, hidx, hcap, hbefore⟩ := getNumBucketsIndexForCapacity_spec hreq.1
  unfold CFBasicHash.rehashedIdx
  rw [if_neg hne]
  dsimp only
  rw [hget, ok_bind]
  by_cases hfast : newItemCount.toNat = 1 ∧ ht.fastGrow
  · have hone : newItemCount = 1 := by omega
    have hlt : idx < lastIdx := by
      refine lt_of_le_of_ne hidx fun he => ?_
      have := hbefore (lastIdx - 1) (by rw [he]; decide)
      have := hreq.2 hfast.2 hone
      omega
    rw [if_pos hfast]
    exact ⟨idx + 1, rfl, hlt, hcap.trans (tableCapacity_mono (Nat.le_succ _) hlt)⟩
  · rw [if_neg hfast]
    exact ⟨idx, rfl, hidx, hcap⟩

/-- A rehash for which there is a row. -/
theorem rehash_spec (h : Holds ht oldSlots) (hidx : ht.numBucketsIdx ≤ lastIdx)
    (hused : ht.usedBuckets = (entries oldSlots).length) (hcap : ht.usedBuckets ≤ tableCapacity ht.numBucketsIdx)
    {newItemCount : Int} (hreq : Requestable ht newItemCount) :
    ∃ idx ht' slots, ht.rehash newItemCount = .ok ht' ∧ Rehashed ht (entries oldSlots) idx slots ht' ∧
      idx ≤ lastIdx ∧ ht.usedBuckets + newItemCount.toNat ≤ tableCapacity idx := by
  obtain ⟨idx, hget, hle, hroom⟩ : ∃ idx, ht.rehashedIdx newItemCount = .ok idx ∧ idx ≤ lastIdx ∧
      ht.usedBuckets + newItemCount.toNat ≤ tableCapacity idx := by
    by_cases hne : newItemCount = 0
    · exact ⟨ht.numBucketsIdx, if_pos hne, hidx, by rw [hne]; exact hcap⟩
    · exact rehashedIdx_spec hne hreq
  obtain ⟨ht', slots, hfold, hr⟩ := rehashInto_spec h hle (by omega)
  refine ⟨idx, ht', slots, ?_, hr, hle, hroom⟩
  rw [CFBasicHash.rehash, hget]
  exact hfold

/-! ## Rehashes without a row -/

/-- Nothing can be moved to a table whose size is not tabulated. -/
theorem moveBucket_divideByZero (hold : Holds ht oldSlots) {i : Nat} {e : Entry} (hs : oldSlots[i]? = some (.live e))
    (hidx : lastIdx < idx) : ht.moveBucket (ht.withBuckets idx) i = .error .divideByZero := by
  have hzero : (ht.withBuckets idx).getNumBuckets = 0 := tableSize_behind hidx
  rw [moveBucket_live hold hs (show (ht.withBuckets idx).hasKeys = ht.hasKeys from rfl)
    (show (ht.withBuckets idx).hasHashCache = ht.hasHashCache from rfl), CFBasicHash.findBucketNoCollision,
    if_neg (show (ht.withBuckets idx).numBucketsIdx ≠ 0 from (Nat.zero_lt_of_lt hidx).ne'), if_pos hzero]
  rfl

theorem rehashInto_error (h : Holds ht oldSlots) (hidx : lastIdx < idx) (hne : entries oldSlots ≠ []) :
    (List.range ht.getNumBuckets).foldlM ht.moveBucket (ht.withBuckets idx) = .error .divideByZero := by
  -- up to the first live bucket the new table stays as it is
  have loop : ∀ i, i ≤ oldSlots.length →
      (List.range i).foldlM ht.moveBucket (ht.withBuckets idx) =
        if entries (oldSlots.take i) = [] then .ok (ht.withBuckets idx) else .error .divideByZero := by
    intro i
    induction i with
    | zero => exact fun _ => rfl
    | succ i ih =>
      intro hi
      have hs : oldSlots[i]? = some oldSlots[i] := List.getElem?_eq_getElem hi
      rw [List.range_succ, List.foldlM_append, ih (Nat.le_of_succ_le hi), entries_take_succ hs]
      by_cases hnil : entries (oldSlots.take i) = []
      · rw [if_pos hnil, ok_bind, List.foldlM_cons, hnil, List.nil_append]
        rcases Slot.free_or_live oldSlots[i] with hfree | ⟨e, he⟩
        · rw [moveBucket_free h hs hfree, hfree]
          rfl
        · rw [he] at hs ⊢
          rw [moveBucket_divideByZero h hs hidx]
          rfl
      · rw [if_neg hnil, if_neg (by simp [hnil])]
        rfl
  have hloop := loop oldSlots.length le_rfl
  rwa [List.take_length, if_neg hne, h.length] at hloop

/-- Without a row the rehash does not end. -/
theorem rehash_error (h : Holds ht oldSlots) (hused : ht.usedBuckets = (entries oldSlots).length)
    {newItemCount : Int} (hne : newItemCount ≠ 0) (hreq : ¬ Requestable ht newItemCount) :
    ∃ fault, ht.rehash newItemCount = .error fault ∧ (ht.fastGrow = false → fault = .halt) := by
  unfold CFBasicHash.rehash CFBasicHash.rehashedIdx
  rw [if_neg hne]
  dsimp only
  rcases Nat.lt_or_ge (tableCapacity lastIdx) (ht.usedBuckets + newItemCount.toNat) with hlt | hle
  · rw [getNumBucketsIndexForCapacity_halt hlt]
    exact ⟨.halt, rfl, fun _ => rfl⟩
  · obtain ⟨hfast, hone, hlt⟩ : ht.fastGrow = true ∧ newItemCount = 1 ∧
        tableCapacity (lastIdx - 1) < ht.usedBuckets + 1 := by
      by_contra hno
      refine hreq ⟨hle, fun hf h1 => ?_⟩
      by_contra hgt
      exact hno ⟨hf, h1, by omega⟩
    obtain ⟨idx, hget, hidx, hcap, -⟩ := getNumBucketsIndexForCapacity_spec hle
    have hlast : idx = lastIdx := by
      refine le_antisymm hidx (Nat.le_of_not_lt fun hi => ?_)
      have := tableCapacity_mono (show idx ≤ lastIdx - 1 by omega) (Nat.sub_le _ _)
      rw [hone] at hcap
      exact absurd (hcap.trans this) (Nat.not_le.mpr hlt)
    have hentries : entries oldSlots ≠ [] := by
      intro hnil
      rw [hnil, List.length_nil] at hused
      rw [hused] at hlt
      exact absurd hlt (by decide)
    rw [hget, ok_bind, if_pos ⟨by rw [hone]; rfl, hfast⟩]
    refine ⟨.divideByZero, ?_, fun hf => by rw [hfast] at hf; cases hf⟩
    exact rehashInto_error h (by omega) hentries

end

end CFLite.BasicHash
