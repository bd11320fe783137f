import CFLite.Collections.BasicHashSteps

/-!
# What a `CFBasicHash` owns

In any run, with copies and a deallocation at the end, a table owns what its live
buckets hold: it was imported once for each of them, and everything else that was
imported has been ejected.
-/

namespace CFLite.BasicHash

open Framework

/-- A table at some point of a run. -/
inductive Reached (callbacks : Callbacks) : CFBasicHash → Prop
  | create (hashStyle : HashStyle) (fastGrow hasKeys hasCounts hasHashCache : Bool) :
    Reached callbacks (.create hashStyle fastGrow hasKeys hasCounts hasHashCache callbacks)
  | operation {ht ht' : CFBasicHash} (op : Operation) :
    Reached callbacks ht → op.run ht = .ok ht' → Reached callbacks ht'
  | createCopy {ht ht' : CFBasicHash} (junk : Nat → Word) :
    Reached callbacks ht → ht.createCopy junk = .ok ht' → Reached callbacks ht'
  | deallocate {ht ht' : CFBasicHash} : Reached callbacks ht → ht.deallocate = .ok ht' → Reached callbacks ht'

/-- The values of the live buckets. -/
def CFBasicHash.liveValues (ht : CFBasicHash) : List Word :=
  (ht.values.filter fun word => word ≠ 0 ∧ word ≠ allOnes).map unstored

/-- The keys of the live buckets, if the table has keys. -/
def CFBasicHash.liveKeys (ht : CFBasicHash) : List Word :=
  if ht.hasKeys then (ht.keys.filter fun word => word ≠ 0 ∧ word ≠ allOnes).map unstored else []

section

variable {callbacks : Callbacks} {ht ht' : CFBasicHash} {slots : List (Slot Entry)}

/-- The live words of an array are those of the entries. -/
theorem live_words {word : Entry → Word} {raw : Slot Entry → Word} (hempty : raw .empty = 0)
    (hdeleted : raw .deleted = allOnes) (hlive : ∀ e, raw (.live e) = stored (word e))
    (h : ∀ e ∈ entries slots, reserved (word e) = false) :
    ((slots.map raw).filter fun w => w ≠ 0 ∧ w ≠ allOnes).map unstored = (entries slots).map word := by
  induction slots with
  | nil => rfl
  | cons s slots ih =>
    rw [List.map_cons]
    cases s with
    | empty =>
      rw [List.filter_cons_of_neg (by rw [hempty]; decide)]
      exact ih h
    | deleted =>
      rw [List.filter_cons_of_neg (by rw [hdeleted]; decide)]
      exact ih h
    | live e =>
      have hword := h e List.mem_cons_self
      have hnonzero := stored_ne_zero (word e)
      have hnotdeleted := stored_ne_allOnes (word e)
      rw [List.filter_cons_of_pos (by rw [hlive]; exact decide_eq_true ⟨hnonzero, hnotdeleted⟩), List.map_cons, hlive,
        unstored_stored hword, ih fun e' he' => h e' (List.mem_cons_of_mem _ he')]
      rfl

theorem Holds.liveValues_eq (h : Holds ht slots) : ht.liveValues = (entries slots).map Entry.value := by
  unfold CFBasicHash.liveValues
  rw [h.values]
  exact live_words rfl rfl (fun _ => rfl) fun e he => (h.fits e he).value

theorem Holds.liveKeys_eq (h : Holds ht slots) : ht.liveKeys = ownedKeys ht.hasKeys (entries slots) := by
  unfold CFBasicHash.liveKeys ownedKeys
  split
  next hk =>
    rw [h.keys hk]
    exact live_words rfl rfl (fun _ => rfl) fun e he => (h.fits e he).key
  next => rfl

theorem valid_create (hashStyle : HashStyle) (fastGrow hasKeys hasCounts hasHashCache : Bool) (callbacks : Callbacks) :
    Valid (.create hashStyle fastGrow hasKeys hasCounts hasHashCache callbacks) [] where
  holds := ⟨rfl, rfl, fun _ => rfl, fun _ => rfl, fun _ => rfl, fun _ he => absurd he List.not_mem_nil, Nat.zero_le _⟩
  idx := Nat.zero_le _
  used := rfl
  cap := Nat.zero_le _
  isMutable := rfl

/-- The entries are the one that an operation finds and others. -/
theorem exists_rest (op : Operation) (ht : CFBasicHash) (slots : List (Slot Entry)) :
    ∃ rest, (entries slots).Perm ((op.found ht slots).toList ++ rest) := by
  cases hf : op.found ht slots with
  | none => exact ⟨entries slots, List.Perm.refl _⟩
  | some e =>
    obtain ⟨stackKey, -, hl⟩ := Option.bind_eq_some_iff.mp hf
    cases hfound : lookup ht slots stackKey with
    | found j e' =>
      rw [hfound] at hl
      obtain rfl := Option.some.inj hl
      exact exists_perm_cons (lookup_found hfound).1
    | vacant vacant =>
      rw [hfound] at hl
      cases hl

/-- A deallocated table has let everything go. -/
theorem deallocate_becomes (h : Valid ht slots) (hlive : ht.finalized = false) :
    ∃ ht', ht.deallocate = .ok ht' ∧ Valid ht' [] ∧ ht'.callbacks = ht.callbacks ∧ ht'.hasKeys = ht.hasKeys ∧
      ht'.log = ht.log ++ allEjects ht slots := by
  have hfinal : Valid { ht with finalized := true } slots :=
    ⟨⟨h.holds.length, h.holds.values, h.holds.keys, h.holds.counts, h.holds.hashes,
      fun e he => (h.holds.fits e he).mono rfl rfl le_rfl, h.holds.width⟩, h.idx, h.used, h.cap, h.isMutable⟩
  obtain ⟨ht', hdrain, hb⟩ := drain_becomes hfinal
  refine ⟨ht', ?_, hb.valid, hb.kept.callbacks, hb.kept.hasKeys, hb.log⟩
  unfold CFBasicHash.deallocate
  rw [if_neg (by rw [hlive]; exact Bool.false_ne_true), hdrain]

/-- A table is valid and balanced all along. -/
theorem Reached.owns (haccepted : callbacks.Accepted) (h : Reached callbacks ht) :
    ht.callbacks = callbacks ∧ ∃ slots, Valid ht slots ∧ Balanced ht.hasKeys [] ht.log (entries slots) := by
  induction h with
  | create hashStyle fastGrow hasKeys hasCounts hasHashCache =>
    exact ⟨rfl, [], valid_create .., .perm (List.Perm.refl _)⟩
  | @operation ht ht' op _ hrun ih =>
    obtain ⟨hcallbacks, slots, hvalid, hbalanced⟩ := ih
    by_cases hlegal : op.Legal
    · by_cases hreq : op.Requests ht (op.found ht slots)
      · obtain ⟨rest, hrest⟩ := exists_rest op ht slots
        obtain ⟨ht₁, slots', events, hok, hsteps, -⟩ :=
          op.run_spec hvalid (hcallbacks ▸ haccepted) hlegal hreq hrest
        obtain rfl : ht₁ = ht' := Except.ok.inj (hok.symm.trans hrun)
        have hkept := hsteps.becomes.kept
        refine ⟨hkept.callbacks.trans hcallbacks, slots', hsteps.becomes.valid, ?_⟩
        rw [hkept.hasKeys, hsteps.becomes.log]
        exact hbalanced.trans hsteps.balanced
      · obtain ⟨fault, herror, -⟩ := op.run_error hvalid hlegal hreq
        rw [herror] at hrun
        cases hrun
    · rcases op.run_illegal hvalid hlegal with herror | hsame
      · rw [herror] at hrun
        cases hrun
      · obtain rfl : ht = ht' := Except.ok.inj (hsame.symm.trans hrun)
        exact ⟨hcallbacks, slots, hvalid, hbalanced⟩
  | @createCopy ht ht' junk _ hcopy ih =>
    obtain ⟨hcallbacks, slots, hvalid, -⟩ := ih
    obtain ⟨ht₁, hok, hvalid', hlog, -, -, hkeys, -, -, -, hcallbacks', -⟩ :=
      createCopy_spec hvalid (hcallbacks ▸ haccepted) junk
    obtain rfl : ht₁ = ht' := Except.ok.inj (hok.symm.trans hcopy)
    refine ⟨hcallbacks'.trans hcallbacks, _, hvalid', ?_⟩
    rw [hkeys, hlog]
    exact balanced_allImports slots
  | @deallocate ht ht' _ hdealloc ih =>
    obtain ⟨hcallbacks, slots, hvalid, hbalanced⟩ := ih
    have hlive : ht.finalized = false := by
      cases hf : ht.finalized
      · rfl
      · rw [CFBasicHash.deallocate, if_pos hf] at hdealloc
        cases hdealloc
    obtain ⟨ht₁, hok, hvalid', hcallbacks', hkeys, hlog⟩ := deallocate_becomes hvalid hlive
    obtain rfl : ht₁ = ht' := Except.ok.inj (hok.symm.trans hdealloc)
    refine ⟨hcallbacks'.trans hcallbacks, [], hvalid', ?_⟩
    rw [hkeys, hlog]
    exact hbalanced.trans (balanced_allEjects slots)

/-! ## Counting calls no callback -/

theorem incSlotCountWithin_log {idx : Int} {widths : Nat} (h : CFBasicHash.incSlotCountWithin idx widths ht = .ok ht') :
    ht'.log = ht.log := by
  induction widths generalizing ht with
  | zero => cases h
  | succ widths ih =>
    unfold CFBasicHash.incSlotCountWithin CFBasicHash.getSlotCount setCell at h
    cases hc : cell ht.counts idx with
    | error fault =>
      rw [hc] at h
      cases h
    | ok count =>
      rw [hc, ok_bind] at h
      split at h
      · rw [ok_bind] at h
        obtain rfl := Except.ok.inj h
        rfl
      · unfold CFBasicHash.bumpCounts at h
        split at h
        · rw [pure_eq_ok, ok_bind] at h
          have hlog := ih h
          exact hlog
        · cases h

theorem decSlotCount_log {idx : Int} (h : ht.decSlotCount idx = .ok ht') : ht'.log = ht.log := by
  unfold CFBasicHash.decSlotCount CFBasicHash.getSlotCount setCell at h
  cases hc : cell ht.counts idx with
  | error fault =>
    rw [hc] at h
    cases h
  | ok count =>
    rw [hc] at h
    obtain rfl := Except.ok.inj h
    rfl

theorem rehash_log (h : Valid ht slots) {newItemCount : Int} (hrehash : ht.rehash newItemCount = .ok ht') :
    ht'.log = ht.log := by
  by_cases hreq : Requestable ht newItemCount
  · obtain ⟨idx, ht₁, slots', hok, hr, -⟩ := rehash_spec h.holds h.idx h.used h.cap hreq
    obtain rfl : ht₁ = ht' := Except.ok.inj (hok.symm.trans hrehash)
    exact hr.log
  · have hne : newItemCount ≠ 0 := fun h0 => hreq (by
      subst h0
      exact ⟨h.cap.trans (tableCapacity_mono h.idx le_rfl), fun _ h1 => absurd h1 (by decide)⟩)
    obtain ⟨fault, herror, -⟩ := rehash_error h.holds h.used hne hreq
    rw [herror] at hrehash
    cases hrehash

/-- What a table owns: what was imported and not yet ejected is what its live buckets
hold. Neither a rehash nor counting changes it, and a deallocation leaves nothing. -/
theorem reached_owns_live (haccepted : callbacks.Accepted) (h : Reached callbacks ht) :
    ((importedValues ht.log).Perm (ht.liveValues ++ ejectedValues ht.log) ∧
      (importedKeys ht.log).Perm (ht.liveKeys ++ ejectedKeys ht.log)) ∧
    (∀ newItemCount ht', ht.rehash newItemCount = .ok ht' → ht'.log = ht.log) ∧
    (∀ idx ht', ht.incSlotCount idx = .ok ht' → ht'.log = ht.log) ∧
    (∀ idx ht', ht.decSlotCount idx = .ok ht' → ht'.log = ht.log) ∧
    (ht.finalized = false → ∃ ht', ht.deallocate = .ok ht' ∧
      (importedValues ht'.log).Perm (ejectedValues ht'.log) ∧
      (importedKeys ht'.log).Perm (ejectedKeys ht'.log)) := by
  obtain ⟨-, slots, hvalid, hbalanced⟩ := h.owns haccepted
  have hnil : ownedKeys ht.hasKeys [] = [] := by
    unfold ownedKeys
    split <;> rfl
  refine ⟨⟨?_, ?_⟩, fun _ _ => rehash_log hvalid, fun _ _ => incSlotCountWithin_log, fun _ _ => decSlotCount_log,
    fun hlive => ?_⟩
  · rw [hvalid.holds.liveValues_eq]
    exact hbalanced.values
  · have := hbalanced.keys
    rwa [hnil, List.nil_append, ← hvalid.holds.liveKeys_eq] at this
  · obtain ⟨ht', hok, -, -, -, hlog⟩ := deallocate_becomes hvalid hlive
    have hend := hbalanced.trans (balanced_allEjects slots)
    rw [← hlog] at hend
    refine ⟨ht', hok, hend.values, ?_⟩
    have := hend.keys
    rwa [hnil] at this

end

/-- Callbacks that retain a word as it is and compare words. -/
def Callbacks.words : Callbacks where
  retainValue := id
  retainKey := id
  equateKeys := (· == ·)
  hashKey := id

theorem Callbacks.words_accepted : Callbacks.words.Accepted := ⟨fun _ h => h, fun _ h => h⟩

/-- A table with one entry. -/
theorem reached_owns_live_words :
    ∃ ht, (Operation.addValue 5 50).run (.create .linear false true true false .words) = .ok ht ∧
      (importedValues ht.log).Perm (ht.liveValues ++ ejectedValues ht.log) := by
  obtain ⟨ht, hrun⟩ : ∃ ht, (Operation.addValue 5 50).run (.create .linear false true true false .words) = .ok ht :=
    ⟨_, rfl⟩
  exact ⟨ht, hrun, (reached_owns_live Callbacks.words_accepted (.operation _ (.create ..) hrun)).1.1⟩

end CFLite.BasicHash
