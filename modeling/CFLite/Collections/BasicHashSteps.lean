import CFLite.Collections.BasicHashCopies
import Mathlib.Data.List.Count

/-!
# One operation on a `CFBasicHash`

An operation looks for its key, and what it does to the entries depends on the one
it found. What is imported and ejected on the way makes up for the difference.

* `Operation.run_spec`: a legal operation for which there is a size;
* `Operation.run_error`: one for which there is none;
* `Balanced`: the entries after a change are those before it, with what was imported
  and without what was ejected.
-/

namespace CFLite.BasicHash

open Framework

/-! ## Events -/

def importedValues (events : List Event) : List Word :=
  events.filterMap fun | .importValue value => some value | _ => none

def importedKeys (events : List Event) : List Word :=
  events.filterMap fun | .importKey key => some key | _ => none

def ejectedValues (events : List Event) : List Word :=
  events.filterMap fun | .ejectValue value => some value | _ => none

def ejectedKeys (events : List Event) : List Word :=
  events.filterMap fun | .ejectKey key => some key | _ => none

/-- The keys that a table owns for its entries. -/
def ownedKeys (hasKeys : Bool) (es : List Entry) : List Word := if hasKeys then es.map Entry.key else []

theorem ownedKeys_cons (hasKeys : Bool) (e : Entry) (es : List Entry) :
    ownedKeys hasKeys (e :: es) = (if hasKeys then [e.key] else []) ++ ownedKeys hasKeys es := by
  unfold ownedKeys
  split <;> rfl

theorem ownedKeys_perm (hasKeys : Bool) {es es' : List Entry} (h : es.Perm es') :
    (ownedKeys hasKeys es).Perm (ownedKeys hasKeys es') := by
  unfold ownedKeys
  split
  · exact h.map _
  · exact List.Perm.refl _

/-- What the entries `before` own and what is imported is what the entries `after` own
and what is ejected. -/
structure Balanced (hasKeys : Bool) (before : List Entry) (events : List Event) (after : List Entry) : Prop where
  values : (before.map Entry.value ++ importedValues events).Perm (after.map Entry.value ++ ejectedValues events)
  keys : (ownedKeys hasKeys before ++ importedKeys events).Perm (ownedKeys hasKeys after ++ ejectedKeys events)

namespace Balanced

variable {hasKeys : Bool} {a b c : List Entry} {events events' : List Event}

theorem perm (h : a.Perm b) : Balanced hasKeys a [] b :=
  ⟨(h.map _).append_right _, (ownedKeys_perm hasKeys h).append_right _⟩

/-- Two changes, one after the other. -/
theorem trans (h : Balanced hasKeys a events b) (h' : Balanced hasKeys b events' c) :
    Balanced hasKeys a (events ++ events') c := by
  have both : ∀ {x y z i i' o o' : List Word}, (x ++ i).Perm (y ++ o) → (y ++ i').Perm (z ++ o') →
      (x ++ (i ++ i')).Perm (z ++ (o ++ o')) := by
    intro x y z i i' o o' h h'
    rw [List.perm_iff_count] at h h' ⊢
    intro w
    have hw := h w
    have hw' := h' w
    simp only [List.count_append] at hw hw' ⊢
    omega
  refine ⟨?_, ?_⟩
  · rw [importedValues, ejectedValues, List.filterMap_append, List.filterMap_append]
    exact both h.values h'.values
  · rw [importedKeys, ejectedKeys, List.filterMap_append, List.filterMap_append]
    exact both h.keys h'.keys

theorem perm_left (hp : a.Perm b) (h : Balanced hasKeys b events c) : Balanced hasKeys a events c :=
  (perm hp).trans h

theorem perm_right (h : Balanced hasKeys a events b) (hp : b.Perm c) : Balanced hasKeys a events c := by
  have := h.trans (perm hp)
  rwa [List.append_nil] at this

end Balanced

section

variable {ht : CFBasicHash} {slots : List (Slot Entry)}

/-- A new entry, or one that replaces another. -/
theorem balanced_imports {stackKey stackValue : Word} {e : Entry} (hkey : e.key = importedKey ht stackKey stackValue)
    (hvalue : e.value = ht.callbacks.retainValue stackValue) (es : List Entry) :
    Balanced ht.hasKeys es (imports ht stackKey stackValue) (e :: es) := by
  refine ⟨?_, ?_⟩
  · have hin : importedValues (imports ht stackKey stackValue) = [e.value] := by
      unfold importedValues imports
      split <;> rw [hvalue] <;> rfl
    have hout : ejectedValues (imports ht stackKey stackValue) = [] := by
      unfold ejectedValues imports
      split <;> rfl
    rw [hin, hout, List.append_nil, List.map_cons]
    exact List.perm_append_singleton ..
  · have hin : importedKeys (imports ht stackKey stackValue) = if ht.hasKeys then [e.key] else [] := by
      unfold importedKeys imports
      split
      next hk => rw [hkey, importedKey, if_pos hk]; rfl
      next => rfl
    have hout : ejectedKeys (imports ht stackKey stackValue) = [] := by
      unfold ejectedKeys imports
      split <;> rfl
    rw [hin, hout, List.append_nil, ownedKeys_cons]
    exact List.perm_append_comm

theorem balanced_ejects (e : Entry) (es : List Entry) : Balanced ht.hasKeys (e :: es) (ejects ht (.live e)) es := by
  refine ⟨?_, ?_⟩
  · have hin : importedValues (ejects ht (.live e)) = [] := by
      unfold importedValues ejects
      split <;> rfl
    have hout : ejectedValues (ejects ht (.live e)) = [e.value] := by
      unfold ejectedValues ejects
      split <;> rfl
    rw [hin, hout, List.append_nil, List.map_cons]
    exact (List.perm_append_singleton ..).symm
  · have hin : importedKeys (ejects ht (.live e)) = [] := by
      unfold importedKeys ejects
      split <;> rfl
    have hout : ejectedKeys (ejects ht (.live e)) = if ht.hasKeys then [e.key] else [] := by
      unfold ejectedKeys ejects
      split <;> rfl
    rw [hin, hout, List.append_nil, ownedKeys_cons]
    exact List.perm_append_comm

theorem ejects_free {s : Slot Entry} (h : s.Free) : ejects ht s = [] := by
  unfold ejects
  rw [valueEjects_free h, keyEjects_free h, ite_self, List.append_nil]

theorem balanced_allEjects (slots : List (Slot Entry)) :
    Balanced ht.hasKeys (entries slots) (allEjects ht slots) [] := by
  induction slots with
  | nil => exact Balanced.perm (List.Perm.refl _)
  | cons s slots ih =>
    have hcons : allEjects ht (s :: slots) = ejects ht s ++ allEjects ht slots := List.flatMap_cons
    rw [hcons]
    cases s with
    | empty => rwa [ejects_free (s := .empty) rfl]
    | deleted => rwa [ejects_free (s := .deleted) rfl]
    | live e => exact (balanced_ejects e _).trans ih

theorem balanced_allImports (slots : List (Slot Entry)) :
    Balanced ht.hasKeys [] (allImports ht slots) (entries (copiedSlots ht slots)) := by
  rw [copiedSlots, entries_map]
  induction slots with
  | nil => exact Balanced.perm (List.Perm.refl _)
  | cons s slots ih =>
    have hcons : allImports ht (s :: slots) = slotImports ht s ++ allImports ht slots := List.flatMap_cons
    rw [hcons]
    cases s with
    | empty => exact ih
    | deleted => exact ih
    | live e =>
      -- the entry is imported first, and the others are imported beside it
      have hfirst : Balanced ht.hasKeys [] (slotImports ht (.live e)) [copied ht e] := balanced_imports rfl rfl []
      have hrest : Balanced ht.hasKeys [copied ht e] (allImports ht slots) (copied ht e :: (entries slots).map (copied ht)) := by
        refine ⟨?_, ?_⟩
        · exact ih.values.cons _
        · rw [ownedKeys_cons, ownedKeys_cons, List.append_assoc, List.append_assoc]
          exact ih.keys.append_left _
      exact hfirst.trans hrest

end

/-! ## Operations -/

/-- An operation that changes a table. -/
inductive Operation where
  | addValue (stackKey stackValue : Word)
  | setValue (stackKey stackValue : Word)
  | replaceValue (stackKey stackValue : Word)
  | removeValue (stackKey : Word)
  | removeAllValues
  | setCapacity (capacity : Int)
  deriving DecidableEq

namespace Operation

def run (ht : CFBasicHash) : Operation → Except Fault CFBasicHash
  | addValue stackKey stackValue => do return (← ht.addValue stackKey stackValue).1
  | setValue stackKey stackValue => ht.setValueForKey stackKey stackValue
  | replaceValue stackKey stackValue => ht.replaceValue stackKey stackValue
  | removeValue stackKey => do return (← ht.removeValue stackKey).1
  | removeAllValues => ht.removeAllValues
  | setCapacity capacity => ht.setCapacity capacity

/-- The key that the operation looks for. -/
def key? : Operation → Option Word
  | addValue stackKey _ | setValue stackKey _ | replaceValue stackKey _ | removeValue stackKey => some stackKey
  | removeAllValues | setCapacity _ => none

/-- The key and the value are not the reserved words. -/
def Legal : Operation → Prop
  | addValue stackKey stackValue | setValue stackKey stackValue | replaceValue stackKey stackValue =>
    reserved stackKey = false ∧ reserved stackValue = false
  | removeValue stackKey => reserved stackKey = false
  | removeAllValues | setCapacity _ => True

instance : DecidablePred Legal := fun op => by
  cases op <;> unfold Legal <;> infer_instance

/-- The entry that is found for the key. -/
def found (ht : CFBasicHash) (slots : List (Slot Entry)) (op : Operation) : Option Entry :=
  op.key?.bind fun stackKey => (lookup ht slots stackKey).held

/-- The entries after the operation, which found one besides `rest`, or none. -/
def onEntries (ht : CFBasicHash) (found : Option Entry) (rest : List Entry) : Operation → List Entry
  | addValue stackKey stackValue =>
    match found with
    | some e => (if ht.hasCounts ∧ e.count < longMax then e.counted (e.count + 1) else e) :: rest
    | none => newEntry ht stackKey stackValue :: rest
  | setValue stackKey stackValue =>
    match found with
    | some e => replaced ht stackKey stackValue e :: rest
    | none => newEntry ht stackKey stackValue :: rest
  | replaceValue stackKey stackValue =>
    match found with
    | some e => replaced ht stackKey stackValue e :: rest
    | none => rest
  | removeValue _ =>
    match found with
    | some e =>
      if 1 < e.count then (if e.count < longMax then e.counted (e.count - 1) else e) :: rest else rest
    | none => rest
  | removeAllValues => []
  | setCapacity _ => rest

/-- There is a size for the table that the operation asks for, if it does. -/
def Requests (ht : CFBasicHash) (found : Option Entry) : Operation → Prop
  | addValue _ _ | setValue _ _ =>
    found = none → ht.usedBuckets = tableCapacity ht.numBucketsIdx → Requestable ht 1
  | setCapacity capacity => ht.usedBuckets < capacity → Requestable ht (capacity - ht.usedBuckets)
  | _ => True

/-- The entries that the operation makes have the hash codes of the keys they are
looked for by. -/
def KeepsCodes (ht : CFBasicHash) (found : Option Entry) : Operation → Prop
  | addValue stackKey stackValue =>
    rehashCode ht (newEntry ht stackKey stackValue) = ht.callbacks.hashKey stackKey
  | setValue stackKey stackValue =>
    rehashCode ht (newEntry ht stackKey stackValue) = ht.callbacks.hashKey stackKey ∧
      ∀ e, found = some e → rehashCode ht (replaced ht stackKey stackValue e) = rehashCode ht e
  | replaceValue stackKey stackValue =>
    ∀ e, found = some e → rehashCode ht (replaced ht stackKey stackValue e) = rehashCode ht e
  | _ => True

end Operation

section

variable {ht : CFBasicHash} {slots : List (Slot Entry)} {rest : List Entry}

/-- What an operation makes of the table. -/
structure Steps (ht : CFBasicHash) (slots : List (Slot Entry)) (after : List Entry) (ht' : CFBasicHash)
    (slots' : List (Slot Entry)) (events : List Event) : Prop where
  becomes : Becomes ht slots after events ht' slots'
  balanced : Balanced ht.hasKeys (entries slots) events (entries slots')

theorem Steps.of_becomes {after : List Entry} {events : List Event} {ht' : CFBasicHash} {slots' : List (Slot Entry)}
    (hb : Becomes ht slots after events ht' slots') (h : Balanced ht.hasKeys (entries slots) events after) :
    Steps ht slots after ht' slots' events := ⟨hb, h.perm_right hb.perm.symm⟩

/-- Nothing happens to the entries. -/
theorem becomes_refl (h : Valid ht slots) (hrest : (entries slots).Perm rest) (deleted mutations : Nat) :
    Becomes ht slots rest [] { ht with deleted := deleted, mutations := mutations } slots :=
  ⟨h.withCounters deleted mutations, ⟨rfl, rfl, rfl, rfl, rfl, rfl, rfl, rfl⟩, (List.append_nil _).symm, hrest⟩

/-- The lookup of an operation: the entry it found, or none. -/
theorem lookup_cases (h : Valid ht slots) {stackKey : Word}
    (hrest : (entries slots).Perm ((lookup ht slots stackKey).held.toList ++ rest)) :
    (∃ j e, lookup ht slots stackKey = .found j e ∧ slots[j]? = some (.live e) ∧ 0 < e.count ∧
      (entries slots).Perm (e :: rest) ∧ ht.findBucketUnchecked stackKey = .ok ⟨j, e.key, e.value, e.count⟩) ∨
    (∃ vacant, lookup ht slots stackKey = .vacant vacant ∧ (entries slots).Perm rest ∧
      ht.findBucketUnchecked stackKey = .ok ⟨idxOf vacant, 0, 0, 0⟩) := by
  have hfind := findBucketUnchecked_eq h.holds h.idx stackKey
  cases hl : lookup ht slots stackKey with
  | found j e =>
    rw [hl] at hfind hrest
    have hs := (lookup_found hl).1
    exact .inl ⟨j, e, rfl, hs, (h.holds.fits_of_live hs).pos, hrest, hfind⟩
  | vacant vacant =>
    rw [hl] at hfind hrest
    exact .inr ⟨vacant, rfl, hrest, hfind⟩

/-- What is retained fits into the table. -/
theorem fits_newEntry (haccepted : ht.callbacks.Accepted) {stackKey stackValue : Word} (hk : reserved stackKey = false)
    (hv : reserved stackValue = false) : Fits ht (newEntry ht stackKey stackValue) := by
  refine ⟨?_, haccepted.value _ hv, fun hno => ?_, Nat.one_pos, ?_⟩
  · show reserved (importedKey ht stackKey stackValue) = false
    unfold importedKey
    split
    · exact haccepted.key _ hk
    · exact haccepted.value _ hv
  · exact if_neg (Bool.eq_false_iff.mp hno)
  · show 1 ≤ if ht.hasCounts then countMax ht.countsWidth else 1
    split
    · exact countMax_pos _
    · exact le_rfl

theorem fits_replaced (haccepted : ht.callbacks.Accepted) {stackKey stackValue : Word} (hk : reserved stackKey = false)
    (hv : reserved stackValue = false) {e : Entry} (he : Fits ht e) : Fits ht (replaced ht stackKey stackValue e) :=
  have hnew := fits_newEntry haccepted hk hv
  ⟨hnew.key, hnew.value, hnew.keyed, he.pos, he.count⟩

/-- Adding an entry that is not there. -/
theorem steps_add (h : Valid ht slots) (haccepted : ht.callbacks.Accepted) {stackKey stackValue : Word}
    (hk : reserved stackKey = false) (hv : reserved stackValue = false) {vacant : Option Nat}
    (hvacant : lookup ht slots stackKey = .vacant vacant) (hrest : (entries slots).Perm rest)
    (hreq : ht.usedBuckets = tableCapacity ht.numBucketsIdx → Requestable ht 1) :
    ∃ ht' slots' events, ht.addValueAt (idxOf vacant) stackKey stackValue = .ok ht' ∧
      Steps ht slots (newEntry ht stackKey stackValue :: rest) ht' slots' events ∧
      (rehashCode ht (newEntry ht stackKey stackValue) = ht.callbacks.hashKey stackKey → OnPaths ht slots →
        OnPaths ht' slots') := by
  obtain ⟨ht', slots', hadd, hb, hpaths⟩ := addValueAt_becomes h hvacant (fits_newEntry haccepted hk hv) hreq
  have hb' : Becomes ht slots (newEntry ht stackKey stackValue :: rest) (imports ht stackKey stackValue) ht' slots' :=
    ⟨hb.valid, hb.kept, hb.log, hb.perm.trans (hrest.cons _)⟩
  exact ⟨ht', slots', _, hadd, .of_becomes hb' ((balanced_imports rfl rfl rest).perm_left hrest), hpaths⟩

/-- Replacing the entry that was found. -/
theorem steps_replace (h : Valid ht slots) (haccepted : ht.callbacks.Accepted) {stackKey stackValue : Word}
    (hk : reserved stackKey = false) (hv : reserved stackValue = false) {j : Nat} {e : Entry}
    (hs : slots[j]? = some (.live e)) (hrest : (entries slots).Perm (e :: rest)) :
    ∃ ht' slots' events, ht.replaceValueAt j stackKey stackValue = .ok ht' ∧
      Steps ht slots (replaced ht stackKey stackValue e :: rest) ht' slots' events ∧
      (rehashCode ht (replaced ht stackKey stackValue e) = rehashCode ht e → OnPaths ht slots → OnPaths ht' slots') := by
  obtain ⟨ht', hreplace, hb, hpaths⟩ :=
    replaceValueAt_becomes h hs (fits_replaced haccepted hk hv (h.holds.fits_of_live hs)) hrest
  have himport : Balanced ht.hasKeys (entries slots) (imports ht stackKey stackValue)
      (replaced ht stackKey stackValue e :: e :: rest) := (balanced_imports rfl rfl _).perm_left hrest
  have heject : Balanced ht.hasKeys (replaced ht stackKey stackValue e :: e :: rest) (ejects ht (.live e))
      (replaced ht stackKey stackValue e :: rest) := (balanced_ejects e _).perm_left (List.Perm.swap ..)
  exact ⟨ht', _, _, hreplace, .of_becomes hb (himport.trans heject), hpaths⟩

/-- A legal change is not refused. -/
theorem not_refused (h : Valid ht slots) {stackKey stackValue : Word} (hk : reserved stackKey = false)
    (hv : reserved stackValue = false) : ¬ (!ht.isMutable || reserved stackKey || reserved stackValue) := by
  rw [h.isMutable, hk, hv]
  exact Bool.false_ne_true

namespace Operation

/-- What a lookup gave is what the operation found. -/
theorem found_eq_some {op : Operation} {stackKey : Word} (hop : op.key? = some stackKey) {j : Nat} {e : Entry}
    (hl : lookup ht slots stackKey = .found j e) : op.found ht slots = some e := by
  rw [found, hop, Option.bind_some, hl]
  rfl

theorem found_eq_none {op : Operation} {stackKey : Word} (hop : op.key? = some stackKey) {vacant : Option Nat}
    (hl : lookup ht slots stackKey = .vacant vacant) : op.found ht slots = none := by
  rw [found, hop, Option.bind_some, hl]
  rfl

/-- The operation, with what it found, ends and makes a step. -/
def Runs (ht : CFBasicHash) (slots : List (Slot Entry)) (rest : List Entry) (op : Operation) : Prop :=
  ∃ ht' slots' events, op.run ht = .ok ht' ∧
    Steps ht slots (op.onEntries ht (op.found ht slots) rest) ht' slots' events ∧
    (op.KeepsCodes ht (op.found ht slots) → OnPaths ht slots → OnPaths ht' slots')

theorem addValue_runs (h : Valid ht slots) (haccepted : ht.callbacks.Accepted) {stackKey stackValue : Word}
    (hk : reserved stackKey = false) (hv : reserved stackValue = false)
    (hreq : (addValue stackKey stackValue).Requests ht ((addValue stackKey stackValue).found ht slots))
    (hrest : (entries slots).Perm (((addValue stackKey stackValue).found ht slots).toList ++ rest)) :
    (addValue stackKey stackValue).Runs ht slots rest := by
  unfold Runs
  show ∃ ht' slots' events, (do return (← ht.addValue stackKey stackValue).1) = _ ∧ _
  unfold CFBasicHash.addValue
  rw [if_neg (not_refused h hk hv)]
  rcases lookup_cases h hrest with ⟨j, e, hl, hs, hpos, hrest, hfind⟩ | ⟨vacant, hl, hrest, hfind⟩
  · rw [hfind, ok_bind, if_pos hpos, found_eq_some rfl hl, onEntries]
    dsimp only
    by_cases hcounts : ht.hasCounts ∧ e.count < longMax
    · obtain ⟨ht', hinc, hb, hpaths⟩ := incSlotCount_becomes h hcounts.1 hs hcounts.2 hrest
      rw [if_pos hcounts, if_pos hcounts, hinc]
      have hbalanced : Balanced ht.hasKeys (e :: rest) [] (e.counted (e.count + 1) :: rest) :=
        ⟨List.Perm.refl _, by rw [ownedKeys_cons, ownedKeys_cons]; exact List.Perm.refl _⟩
      exact ⟨ht', _, _, rfl, .of_becomes hb (hbalanced.perm_left hrest), fun _ => hpaths⟩
    · rw [if_neg hcounts, if_neg hcounts]
      have hb := becomes_refl h hrest ht.deleted ht.mutate.mutations
      exact ⟨ht.mutate, slots, _, rfl, .of_becomes hb (.perm hrest), fun _ hp => hp.congr hb.kept rfl⟩
  · rw [found_eq_none rfl hl] at hreq ⊢
    rw [hfind, ok_bind, if_neg (Nat.lt_irrefl 0), onEntries]
    obtain ⟨ht', slots', events, hadd, hsteps, hpaths⟩ := steps_add h haccepted hk hv hl hrest (hreq rfl)
    rw [hadd]
    exact ⟨ht', slots', events, rfl, hsteps, hpaths⟩

theorem setValue_runs (h : Valid ht slots) (haccepted : ht.callbacks.Accepted) {stackKey stackValue : Word}
    (hk : reserved stackKey = false) (hv : reserved stackValue = false)
    (hreq : (setValue stackKey stackValue).Requests ht ((setValue stackKey stackValue).found ht slots))
    (hrest : (entries slots).Perm (((setValue stackKey stackValue).found ht slots).toList ++ rest)) :
    (setValue stackKey stackValue).Runs ht slots rest := by
  unfold Runs
  show ∃ ht' slots' events, ht.setValueForKey stackKey stackValue = _ ∧ _
  unfold CFBasicHash.setValueForKey
  rw [if_neg (not_refused h hk hv)]
  rcases lookup_cases h hrest with ⟨j, e, hl, hs, hpos, hrest, hfind⟩ | ⟨vacant, hl, hrest, hfind⟩
  · rw [hfind, ok_bind, if_pos hpos, found_eq_some rfl hl, onEntries]
    obtain ⟨ht', slots', events, hreplace, hsteps, hpaths⟩ := steps_replace h haccepted hk hv hs hrest
    exact ⟨ht', slots', events, hreplace, hsteps, fun hcode => hpaths (hcode.2 e rfl)⟩
  · rw [found_eq_none rfl hl] at hreq ⊢
    rw [hfind, ok_bind, if_neg (Nat.lt_irrefl 0), onEntries]
    obtain ⟨ht', slots', events, hadd, hsteps, hpaths⟩ := steps_add h haccepted hk hv hl hrest (hreq rfl)
    exact ⟨ht', slots', events, hadd, hsteps, fun hcode => hpaths hcode.1⟩

theorem replaceValue_runs (h : Valid ht slots) (haccepted : ht.callbacks.Accepted) {stackKey stackValue : Word}
    (hk : reserved stackKey = false) (hv : reserved stackValue = false)
    (hrest : (entries slots).Perm (((replaceValue stackKey stackValue).found ht slots).toList ++ rest)) :
    (replaceValue stackKey stackValue).Runs ht slots rest := by
  unfold Runs
  show ∃ ht' slots' events, ht.replaceValue stackKey stackValue = _ ∧ _
  unfold CFBasicHash.replaceValue
  rw [if_neg (not_refused h hk hv)]
  rcases lookup_cases h hrest with ⟨j, e, hl, hs, hpos, hrest, hfind⟩ | ⟨vacant, hl, hrest, hfind⟩
  · rw [hfind, ok_bind, if_pos hpos, found_eq_some rfl hl, onEntries]
    obtain ⟨ht', slots', events, hreplace, hsteps, hpaths⟩ := steps_replace h haccepted hk hv hs hrest
    exact ⟨ht', slots', events, hreplace, hsteps, fun hcode => hpaths (hcode e rfl)⟩
  · rw [found_eq_none rfl hl, hfind, ok_bind, if_neg (Nat.lt_irrefl 0), onEntries]
    have hb := becomes_refl h hrest ht.deleted ht.mutations
    exact ⟨ht, slots, _, rfl, .of_becomes hb (.perm hrest), fun _ hp => hp⟩

theorem removeValue_runs (h : Valid ht slots) {stackKey : Word} (hk : reserved stackKey = false)
    (hrest : (entries slots).Perm (((removeValue stackKey).found ht slots).toList ++ rest)) :
    (removeValue stackKey).Runs ht slots rest := by
  unfold Runs
  show ∃ ht' slots' events, (do return (← ht.removeValue stackKey).1) = _ ∧ _
  unfold CFBasicHash.removeValue
  rw [if_neg (by rw [h.isMutable]; exact Bool.false_ne_true), if_neg (by rw [hk]; exact Bool.false_ne_true)]
  rcases lookup_cases h hrest with ⟨j, e, hl, hs, hpos, hrest, hfind⟩ | ⟨vacant, hl, hrest, hfind⟩
  · rw [hfind, ok_bind, found_eq_some rfl hl, onEntries]
    dsimp only
    by_cases hone : 1 < e.count
    · rw [if_pos hone, if_pos hone]
      -- only a table with counts counts to more than 1
      have hcounts : ht.hasCounts := by
        by_contra hno
        have hle := (h.holds.fits_of_live hs).count
        rw [if_neg hno] at hle
        omega
      by_cases hlt : e.count < longMax
      · obtain ⟨ht', hdec, hb, hpaths⟩ := decSlotCount_becomes h hcounts hs hone hrest
        rw [if_pos ⟨hcounts, hlt⟩, if_pos hlt, hdec]
        have hbalanced : Balanced ht.hasKeys (e :: rest) [] (e.counted (e.count - 1) :: rest) :=
          ⟨List.Perm.refl _, by rw [ownedKeys_cons, ownedKeys_cons]; exact List.Perm.refl _⟩
        exact ⟨ht', _, _, rfl, .of_becomes hb (hbalanced.perm_left hrest), fun _ => hpaths⟩
      · rw [if_neg (fun hand => hlt hand.2), if_neg hlt]
        have hb := becomes_refl h hrest ht.deleted ht.mutate.mutations
        exact ⟨ht.mutate, slots, _, rfl, .of_becomes hb (.perm hrest), fun _ hp => hp.congr hb.kept rfl⟩
    · rw [if_neg hone, if_neg hone, if_pos hpos]
      obtain ⟨ht', slots', hremove, hb, hpaths⟩ := removeValueAt_becomes h hs (by omega) hrest
      rw [hremove]
      exact ⟨ht', slots', _, rfl, .of_becomes hb ((balanced_ejects e rest).perm_left hrest), fun _ => hpaths⟩
  · rw [found_eq_none rfl hl, hfind, ok_bind, if_neg (Nat.not_lt_zero _), if_neg (Nat.lt_irrefl 0), onEntries]
    have hb := becomes_refl h hrest ht.deleted ht.mutations
    exact ⟨ht, slots, _, rfl, .of_becomes hb (.perm hrest), fun _ hp => hp⟩

theorem removeAllValues_runs (h : Valid ht slots) : removeAllValues.Runs ht slots rest := by
  unfold Runs
  show ∃ ht' slots' events, ht.removeAllValues = _ ∧ _
  unfold CFBasicHash.removeAllValues
  rw [if_neg (by rw [h.isMutable]; exact Bool.false_ne_true), onEntries]
  by_cases h0 : ht.numBucketsIdx = 0
  · rw [if_pos h0]
    have hnil : slots = [] := List.eq_nil_of_length_eq_zero (by rw [h.holds.length, h0]; rfl)
    subst hnil
    have hb := becomes_refl h (List.Perm.refl _) ht.deleted ht.mutations
    exact ⟨ht, [], _, rfl, .of_becomes hb (.perm (List.Perm.refl _)), fun _ hp => hp⟩
  · rw [if_neg h0]
    obtain ⟨ht', hdrain, hb⟩ := drain_becomes h
    refine ⟨ht', [], _, hdrain, .of_becomes hb (balanced_allEjects slots), fun _ _ j e he => ?_⟩
    rw [List.getElem?_nil] at he
    cases he

theorem setCapacity_runs (h : Valid ht slots) {capacity : Int}
    (hreq : (setCapacity capacity).Requests ht ((setCapacity capacity).found ht slots))
    (hrest : (entries slots).Perm rest) : (setCapacity capacity).Runs ht slots rest := by
  unfold Runs
  show ∃ ht' slots' events, ht.setCapacity capacity = _ ∧ _
  unfold CFBasicHash.setCapacity
  rw [if_neg (by rw [h.isMutable]; exact Bool.false_ne_true), onEntries]
  by_cases hlt : ht.usedBuckets < capacity
  · rw [if_pos hlt]
    have hm : Valid ht.mutate slots := h.withCounters ht.deleted _
    have hreq' : Requestable ht.mutate (capacity - ht.usedBuckets) := hreq hlt
    obtain ⟨idx, ht', slots', hrehash, hr, hidx, hroom⟩ := rehash_spec hm.holds hm.idx hm.used hm.cap hreq'
    have hvalid := hm.becomes_of_rehashed hr hidx (List.Perm.refl _) (Nat.le_trans (Nat.le_add_right ..) hroom)
    have hb : Becomes ht slots rest [] ht' slots' := by
      refine ⟨hvalid, (Kept.mutate ht).trans hr.kept, ?_, hr.perm.trans hrest⟩
      rw [hr.log, List.append_nil]
      rfl
    exact ⟨ht', slots', _, hrehash, .of_becomes hb (.perm hrest), fun _ _ => hr.onPaths⟩
  · rw [if_neg hlt]
    have hb := becomes_refl h hrest ht.deleted ht.mutations
    exact ⟨ht, slots, _, rfl, .of_becomes hb (.perm hrest), fun _ hp => hp⟩

/-- A legal operation that asks for no size beyond the last one. -/
theorem run_spec (op : Operation) (h : Valid ht slots) (haccepted : ht.callbacks.Accepted) (hlegal : op.Legal)
    (hreq : op.Requests ht (op.found ht slots)) (hrest : (entries slots).Perm ((op.found ht slots).toList ++ rest)) :
    op.Runs ht slots rest := by
  cases op with
  | addValue stackKey stackValue => exact addValue_runs h haccepted hlegal.1 hlegal.2 hreq hrest
  | setValue stackKey stackValue => exact setValue_runs h haccepted hlegal.1 hlegal.2 hreq hrest
  | replaceValue stackKey stackValue => exact replaceValue_runs h haccepted hlegal.1 hlegal.2 hrest
  | removeValue stackKey => exact removeValue_runs h hlegal hrest
  | removeAllValues => exact removeAllValues_runs h
  | setCapacity capacity => exact setCapacity_runs h hreq hrest

/-- Without a size for it the operation does not end. -/
theorem run_error (op : Operation) (h : Valid ht slots) (hlegal : op.Legal)
    (hreq : ¬ op.Requests ht (op.found ht slots)) :
    ∃ fault, op.run ht = .error fault ∧ (ht.fastGrow = false → fault = .halt) := by
  -- an entry was not found, and the table is full
  have full : ∀ {stackKey : Word}, op.key? = some stackKey →
      ¬ (op.found ht slots = none → ht.usedBuckets = tableCapacity ht.numBucketsIdx → Requestable ht 1) →
      ∃ vacant, ht.findBucketUnchecked stackKey = .ok ⟨idxOf vacant, 0, 0, 0⟩ ∧
        ht.usedBuckets = tableCapacity ht.numBucketsIdx ∧ ¬ Requestable ht 1 := by
    intro stackKey hop hno
    have hfind := findBucketUnchecked_eq h.holds h.idx stackKey
    cases hl : lookup ht slots stackKey with
    | found j e =>
      rw [found_eq_some hop hl] at hno
      exact absurd (fun he => nomatch he) hno
    | vacant vacant =>
      rw [hl] at hfind
      have hfull : ht.usedBuckets = tableCapacity ht.numBucketsIdx := by
        by_contra hlt
        exact hno fun _ he => absurd he hlt
      exact ⟨vacant, hfind, hfull, fun hr => hno fun _ _ => hr⟩
  cases op with
  | addValue stackKey stackValue =>
    obtain ⟨vacant, hfind, hfull, hno⟩ := full rfl hreq
    obtain ⟨fault, hadd, hfault⟩ := addValueAt_error h hfull hno (idxOf vacant)
    refine ⟨fault, ?_, hfault⟩
    show (do return (← ht.addValue stackKey stackValue).1) = _
    unfold CFBasicHash.addValue
    rw [if_neg (not_refused h hlegal.1 hlegal.2), hfind, ok_bind, if_neg (Nat.lt_irrefl 0), hadd]
    rfl
  | setValue stackKey stackValue =>
    obtain ⟨vacant, hfind, hfull, hno⟩ := full rfl hreq
    obtain ⟨fault, hadd, hfault⟩ := addValueAt_error h hfull hno (idxOf vacant)
    refine ⟨fault, ?_, hfault⟩
    show ht.setValueForKey stackKey stackValue = _
    unfold CFBasicHash.setValueForKey
    rw [if_neg (not_refused h hlegal.1 hlegal.2), hfind, ok_bind, if_neg (Nat.lt_irrefl 0), hadd]
  | setCapacity capacity =>
    have hlt : (ht.usedBuckets : Int) < capacity := by
      by_contra hle
      exact hreq fun hlt => absurd hlt hle
    have hm : Valid ht.mutate slots := h.withCounters ht.deleted _
    have hno : ¬ Requestable ht.mutate (capacity - ht.usedBuckets) := fun hr => hreq fun _ => hr
    obtain ⟨fault, hrehash, hfault⟩ := rehash_error hm.holds hm.used (by omega) hno
    refine ⟨fault, ?_, hfault⟩
    show ht.setCapacity capacity = _
    unfold CFBasicHash.setCapacity
    rw [if_neg (by rw [h.isMutable]; exact Bool.false_ne_true), if_pos hlt, hrehash]
  | replaceValue stackKey stackValue => exact absurd trivial hreq
  | removeValue stackKey => exact absurd trivial hreq
  | removeAllValues => exact absurd trivial hreq

/-- A reserved word stops a change, and nothing is removed for it. -/
theorem run_illegal (op : Operation) (h : Valid ht slots) (hlegal : ¬ op.Legal) :
    op.run ht = .error .halt ∨ op.run ht = .ok ht := by
  have refused : ∀ {stackKey stackValue : Word}, ¬ (reserved stackKey = false ∧ reserved stackValue = false) →
      (!ht.isMutable || reserved stackKey || reserved stackValue) = true := by
    intro stackKey stackValue hno
    cases hk : reserved stackKey <;> cases hv : reserved stackValue <;> simp_all
  cases op with
  | addValue stackKey stackValue =>
    left
    show (do return (← ht.addValue stackKey stackValue).1) = _
    unfold CFBasicHash.addValue
    rw [if_pos (refused hlegal)]
    rfl
  | setValue stackKey stackValue => exact .inl (if_pos (refused hlegal))
  | replaceValue stackKey stackValue => exact .inl (if_pos (refused hlegal))
  | removeValue stackKey =>
    right
    have hk : reserved stackKey = true := by
      cases hk : reserved stackKey
      · exact absurd hk hlegal
      · rfl
    show (do return (← ht.removeValue stackKey).1) = _
    unfold CFBasicHash.removeValue
    rw [if_neg (by rw [h.isMutable]; exact Bool.false_ne_true), if_pos hk]
    rfl
  | removeAllValues => exact absurd trivial hlegal
  | setCapacity capacity => exact absurd trivial hlegal

end Operation

end

end CFLite.BasicHash
