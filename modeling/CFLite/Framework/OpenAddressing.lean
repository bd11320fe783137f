import Mathlib.Data.Finset.Card
import Mathlib.Data.List.Perm.Basic
import Mathlib.Data.List.Nodup

/-!
# Open addressing

The slots of a table are empty, deleted or hold an entry. A key has a path, the
slots it is looked for in, in order; a lookup walks along it up to the first empty
slot, and an entry is put into the first slot of the path that is free.

* `search`, `firstEmpty`: the two walks;
* `Reaches`: the walk along a path gets to a slot;
* `search_found`, `search_of_reaches`, `search_vacant`: what a lookup gives;
* `Distinct`, `Placed`: no two entries are the same, and every entry is on its
  path, also after a slot was filled or deleted;
* `exists_free`: a path with more slots than there are entries has a free one;
* `perm_entries_set`: the entries after one slot is changed.
-/

namespace CFLite.Framework

inductive Slot (ε : Type) where
  | empty
  | deleted
  | live (entry : ε)
  deriving DecidableEq

variable {ε : Type}

def Slot.held : Slot ε → Option ε
  | .live e => some e
  | _ => none

/-- A slot that an entry can be put into. -/
def Slot.Free (s : Slot ε) : Prop := s.held = none

theorem Slot.free_or_live : (s : Slot ε) → s.Free ∨ ∃ e, s = .live e
  | .empty => .inl rfl
  | .deleted => .inl rfl
  | .live e => .inr ⟨e, rfl⟩

def Slot.map {ε' : Type} (f : ε → ε') : Slot ε → Slot ε'
  | .empty => .empty
  | .deleted => .deleted
  | .live e => .live (f e)

theorem Slot.Free.map_eq {s : Slot ε} (h : s.Free) (f : ε → ε) : s.map f = s := by
  cases s <;> first | rfl | cases h

/-- The entries of a table. -/
def entries (slots : List (Slot ε)) : List ε := slots.filterMap Slot.held

@[simp] theorem entries_nil : entries ([] : List (Slot ε)) = [] := rfl

theorem entries_append (xs ys : List (Slot ε)) : entries (xs ++ ys) = entries xs ++ entries ys :=
  List.filterMap_append

theorem mem_entries {slots : List (Slot ε)} {e : ε} : e ∈ entries slots ↔ Slot.live e ∈ slots := by
  refine List.mem_filterMap.trans ⟨?_, fun h => ⟨_, h, rfl⟩⟩
  rintro ⟨s, hs, he⟩
  cases s <;> simp_all [Slot.held]

theorem mem_entries_iff {slots : List (Slot ε)} {e : ε} :
    e ∈ entries slots ↔ ∃ j : Nat, slots[j]? = some (.live e) :=
  mem_entries.trans List.mem_iff_getElem?

theorem entries_map {ε' : Type} (f : ε → ε') (slots : List (Slot ε)) :
    entries (slots.map (Slot.map f)) = (entries slots).map f := by
  rw [entries, List.filterMap_map, entries, List.map_filterMap]
  refine List.filterMap_congr fun s _ => ?_
  cases s <;> rfl

@[simp] theorem entries_replicate_empty (n : Nat) : entries (List.replicate n (.empty : Slot ε)) = [] := by
  refine List.eq_nil_iff_forall_not_mem.mpr fun e he => ?_
  have := List.eq_of_mem_replicate (mem_entries.mp he)
  cases this

theorem length_entries_le (slots : List (Slot ε)) : (entries slots).length ≤ slots.length :=
  List.length_filterMap_le ..

/-- The entries after one slot is changed. -/
theorem perm_entries_set {slots : List (Slot ε)} {j : Nat} {s : Slot ε} (h : slots[j]? = some s) (new : Slot ε) :
    (s.held.toList ++ entries (slots.set j new)).Perm (new.held.toList ++ entries slots) := by
  obtain ⟨hj, hs⟩ := List.getElem?_eq_some_iff.mp h
  have one : ∀ x : Slot ε, entries [x] = x.held.toList := fun x => by cases x <;> rfl
  have hnew : entries (slots.set j new) =
      entries (slots.take j) ++ (new.held.toList ++ entries (slots.drop (j + 1))) := by
    rw [List.set_eq_take_append_cons_drop, if_pos hj, ← List.singleton_append, entries_append, entries_append, one]
  have hold : entries slots = entries (slots.take j) ++ (s.held.toList ++ entries (slots.drop (j + 1))) := by
    conv_lhs => rw [← List.take_append_drop j slots, List.drop_eq_getElem_cons hj, hs]
    rw [← List.singleton_append, entries_append, entries_append, one]
  rw [hnew, hold]
  refine (List.perm_append_comm_assoc ..).trans ?_
  refine List.Perm.trans ?_ (List.perm_append_comm_assoc ..)
  exact List.Perm.append_left _ (List.perm_append_comm_assoc ..)

theorem perm_entries_fill {slots : List (Slot ε)} {j : Nat} {s : Slot ε} (h : slots[j]? = some s) (hs : s.Free)
    (e : ε) : (entries (slots.set j (.live e))).Perm (e :: entries slots) := by
  have := perm_entries_set h (.live e)
  rwa [hs] at this

theorem perm_entries_replace {slots : List (Slot ε)} {j : Nat} {e : ε} (h : slots[j]? = some (.live e)) (e' : ε) :
    (e :: entries (slots.set j (.live e'))).Perm (e' :: entries slots) :=
  perm_entries_set h (.live e')

theorem perm_entries_delete {slots : List (Slot ε)} {j : Nat} {e : ε} (h : slots[j]? = some (.live e)) :
    (e :: entries (slots.set j .deleted)).Perm (entries slots) :=
  perm_entries_set h .deleted

/-! ## Walks -/

/-- What a lookup gives. -/
inductive Found (ε : Type) where
  | found (index : Nat) (entry : ε)
  | vacant (index : Option Nat)

def Found.held : Found ε → Option ε
  | .found _ e => some e
  | .vacant _ => none

/-- The lookup along `path`; `deleted` is the first deleted slot on the way here. -/
def search (slots : List (Slot ε)) (same : ε → Bool) (deleted : Option Nat) : (path : List Nat) → Found ε
  | [] => .vacant deleted
  | p :: path =>
    match slots[p]? with
    | some .empty => .vacant (deleted.or (some p))
    | some .deleted => search slots same (deleted.or (some p)) path
    | some (.live e) => if same e then .found p e else search slots same deleted path
    | none => search slots same deleted path

example : search [.deleted, Slot.live 3] (· = 3) none [0, 1] = .found 1 3 := by simp [search]

/-- Whether slot `p` is there and empty. -/
def isEmptyAt (slots : List (Slot ε)) (p : Nat) : Bool :=
  match slots[p]? with
  | some .empty => true
  | _ => false

theorem isEmptyAt_iff {slots : List (Slot ε)} {p : Nat} : isEmptyAt slots p ↔ slots[p]? = some .empty := by
  unfold isEmptyAt
  split <;> simp_all

/-- The first empty slot of `path`. -/
def firstEmpty (slots : List (Slot ε)) (path : List Nat) : Option Nat := path.find? (isEmptyAt slots)

/-- The walk along `path` gets to slot `j`. -/
def Reaches (slots : List (Slot ε)) (path : List Nat) (j : Nat) : Prop :=
  ∃ before after, path = before ++ j :: after ∧ ∀ p ∈ before, slots[p]? ≠ some .empty

theorem Reaches.mem {slots : List (Slot ε)} {path : List Nat} {j : Nat} (h : Reaches slots path j) : j ∈ path := by
  obtain ⟨before, after, rfl, -⟩ := h
  exact List.mem_append_right _ List.mem_cons_self

theorem Reaches.cons {slots : List (Slot ε)} {path : List Nat} {j p : Nat} (hp : slots[p]? ≠ some .empty)
    (h : Reaches slots path j) : Reaches slots (p :: path) j := by
  obtain ⟨before, after, rfl, hbefore⟩ := h
  refine ⟨p :: before, after, rfl, fun q hq => ?_⟩
  rcases List.mem_cons.mp hq with rfl | hq
  · exact hp
  · exact hbefore q hq

theorem reaches_head {slots : List (Slot ε)} {path : List Nat} {p : Nat} : Reaches slots (p :: path) p :=
  ⟨[], path, rfl, fun _ hq => absurd hq List.not_mem_nil⟩

/-- A slot that is not made empty is in nobody's way. -/
theorem Reaches.set {slots : List (Slot ε)} {path : List Nat} {j : Nat} (h : Reaches slots path j) (i : Nat)
    {new : Slot ε} (hnew : new ≠ .empty) : Reaches (slots.set i new) path j := by
  obtain ⟨before, after, rfl, hbefore⟩ := h
  refine ⟨before, after, rfl, fun p hp he => hbefore p hp ?_⟩
  rw [List.getElem?_set] at he
  split at he
  · split at he
    · exact absurd (Option.some.inj he) hnew
    · simp at he
  · exact he

/-- A walk does not see what the entries are. -/
theorem Reaches.map {ε' : Type} (f : ε → ε') {slots : List (Slot ε)} {path : List Nat} {j : Nat}
    (h : Reaches slots path j) : Reaches (slots.map (Slot.map f)) path j := by
  obtain ⟨before, after, rfl, hbefore⟩ := h
  refine ⟨before, after, rfl, fun p hp he => hbefore p hp ?_⟩
  rw [List.getElem?_map, Option.map_eq_some_iff] at he
  obtain ⟨s, hs, he⟩ := he
  cases s with
  | empty => exact hs
  | deleted => cases he
  | live e => cases he

section Search

variable {slots : List (Slot ε)} {same : ε → Bool} {path : List Nat}

theorem search_found {deleted : Option Nat} {j : Nat} {e : ε} (h : search slots same deleted path = .found j e) :
    slots[j]? = some (.live e) ∧ same e := by
  induction path generalizing deleted with
  | nil => cases h
  | cons p path ih =>
    rw [search] at h
    split at h
    next => cases h
    next => exact ih h
    next e' he' =>
      split at h
      next hsame =>
        injection h with hj he
        exact ⟨hj ▸ he ▸ he', he ▸ hsame⟩
      next => exact ih h
    next => exact ih h

/-- An entry that the walk gets to and that is the same is not passed over. -/
theorem search_of_reaches {j : Nat} {e : ε} (hr : Reaches slots path j) (he : slots[j]? = some (.live e))
    (hsame : same e) (deleted : Option Nat) : ∃ j' e', search slots same deleted path = .found j' e' := by
  obtain ⟨before, after, rfl, hbefore⟩ := hr
  induction before generalizing deleted with
  | nil =>
    rw [List.nil_append, search, he]
    exact ⟨j, e, if_pos hsame⟩
  | cons p before ih =>
    have ih := fun deleted => ih deleted fun q hq => hbefore q (List.mem_cons_of_mem _ hq)
    rw [List.cons_append, search]
    split
    next hp => exact absurd hp (hbefore p List.mem_cons_self)
    next => exact ih _
    next e' _ =>
      by_cases hs : same e'
      · exact ⟨p, e', if_pos hs⟩
      · rw [if_neg hs]
        exact ih deleted
    next => exact ih deleted

/-- The slot for a new entry is free, and the walk gets to it. -/
theorem search_vacant {deleted : Option Nat} {j : Nat} (h : search slots same deleted path = .vacant (some j)) :
    deleted = some j ∨ Reaches slots path j ∧ ∃ s, slots[j]? = some s ∧ s.Free := by
  induction path generalizing deleted with
  | nil =>
    injection h with h
    exact .inl h
  | cons p path ih =>
    rw [search] at h
    have hor : ∀ {s : Slot ε}, slots[p]? = some s → s.Free → deleted.or (some p) = some j →
        deleted = some j ∨ Reaches slots (p :: path) j ∧ ∃ s, slots[j]? = some s ∧ s.Free := by
      intro s hs hfree hj
      cases deleted with
      | none =>
        obtain rfl := Option.some.inj hj
        exact .inr ⟨reaches_head, s, hs, hfree⟩
      | some d => exact .inl hj
    split at h
    next hs =>
      injection h with h
      exact hor hs rfl h
    next hs =>
      rcases ih h with hd | ⟨hr, hfree⟩
      · exact hor hs rfl hd
      · exact .inr ⟨hr.cons (by simp [hs]), hfree⟩
    next e hs =>
      split at h
      next => cases h
      next => exact (ih h).imp_right fun ⟨hr, hfree⟩ => ⟨hr.cons (by simp [hs]), hfree⟩
    next hs => exact (ih h).imp_right fun ⟨hr, hfree⟩ => ⟨hr.cons (by simp [hs]), hfree⟩

/-- A lookup that gives no slot has seen entries only. -/
theorem search_vacant_none {deleted : Option Nat} (h : search slots same deleted path = .vacant none) :
    deleted = none ∧ ∀ p ∈ path, ∀ s, slots[p]? = some s → ¬ s.Free := by
  induction path generalizing deleted with
  | nil =>
    injection h with h
    exact ⟨h, fun p hp => absurd hp List.not_mem_nil⟩
  | cons p path ih =>
    rw [search] at h
    have hor : deleted.or (some p) ≠ none := by cases deleted <;> simp
    have step : (∀ s, slots[p]? = some s → ¬ s.Free) → search slots same deleted path = .vacant none →
        deleted = none ∧ ∀ q ∈ p :: path, ∀ s, slots[q]? = some s → ¬ s.Free := by
      intro hp h
      refine ⟨(ih h).1, fun q hq => ?_⟩
      rcases List.mem_cons.mp hq with rfl | hq
      · exact hp
      · exact (ih h).2 q hq
    split at h
    next =>
      injection h with h
      exact absurd h hor
    next => exact absurd (ih h).1 hor
    next e hs =>
      split at h
      next => cases h
      next => exact step (fun s he hf => by rw [hs] at he; cases he; cases hf) h
    next hs => exact step (fun s he => by rw [hs] at he; cases he) h

theorem firstEmpty_eq_some {j : Nat} (h : firstEmpty slots path = some j) :
    Reaches slots path j ∧ slots[j]? = some .empty := by
  obtain ⟨hj, before, after, hpath, hbefore⟩ := List.find?_eq_some_iff_append.mp h
  refine ⟨⟨before, after, hpath, fun p hp he => ?_⟩, isEmptyAt_iff.mp hj⟩
  have := hbefore p hp
  rw [isEmptyAt_iff.mpr he] at this
  cases this

theorem firstEmpty_eq_none (h : firstEmpty slots path = none) : ∀ p ∈ path, slots[p]? ≠ some .empty :=
  fun p hp he => List.find?_eq_none.mp h p hp (isEmptyAt_iff.mpr he)

variable (slots) in
/-- The indexes of the slots that hold an entry. -/
def liveIndexes : List Nat := (List.range slots.length).filter fun p => (slots[p]?.bind Slot.held).isSome

theorem mem_liveIndexes {p : Nat} {e : ε} (h : slots[p]? = some (.live e)) : p ∈ liveIndexes slots := by
  refine List.mem_filter.mpr ⟨List.mem_range.mpr (List.getElem?_eq_some_iff.mp h).1, ?_⟩
  rw [h]
  rfl

theorem length_liveIndexes : (slots : List (Slot ε)) → (liveIndexes slots).length = (entries slots).length := by
  intro slots
  induction slots using List.reverseRecOn with
  | nil => rfl
  | append_singleton slots s ih =>
    have hbefore : (List.range slots.length).filter (fun p => ((slots ++ [s])[p]?.bind Slot.held).isSome) =
        liveIndexes slots := by
      refine List.filter_congr fun p hp => ?_
      rw [List.getElem?_append_left (List.mem_range.mp hp)]
    rw [liveIndexes, List.length_append, List.length_singleton, List.range_succ, List.filter_append, hbefore,
      List.length_append, entries_append, List.length_append, ih]
    cases s <;> simp [entries, Slot.held]

/-- A path that has more slots than there are entries has a free one. -/
theorem exists_free (hin : ∀ p ∈ path, p < slots.length) (h : (entries slots).length < path.toFinset.card) :
    ∃ p ∈ path, ∃ s, slots[p]? = some s ∧ s.Free := by
  by_contra hno
  have hsub : path.toFinset ⊆ (liveIndexes slots).toFinset := by
    intro p hp
    rw [List.mem_toFinset] at hp ⊢
    have hs : slots[p]? = some (slots.get ⟨p, hin p hp⟩) := List.getElem?_eq_getElem (hin p hp)
    rcases (slots.get ⟨p, hin p hp⟩).free_or_live with hfree | ⟨e, he⟩
    · exact absurd ⟨p, hp, _, hs, hfree⟩ hno
    · exact mem_liveIndexes (he ▸ hs)
  have hcard := (Finset.card_le_card hsub).trans (List.toFinset_card_le _)
  rw [length_liveIndexes] at hcard
  exact absurd h (Nat.not_lt.mpr hcard)

end Search

/-! ## Tables -/

/-- No two entries are the same. -/
def Distinct (equal : ε → ε → Prop) (slots : List (Slot ε)) : Prop :=
  (entries slots).Pairwise fun e e' => ¬ equal e e'

/-- Every entry is on its path. -/
def Placed (path : ε → List Nat) (slots : List (Slot ε)) : Prop :=
  ∀ ⦃j : Nat⦄ ⦃e : ε⦄, slots[j]? = some (.live e) → Reaches slots (path e) j

section Tables

variable {slots : List (Slot ε)} {path : ε → List Nat}

/-- What is in a slot after one was changed. -/
theorem live_set {i j : Nat} {new : Slot ε} {e : ε} (h : (slots.set i new)[j]? = some (.live e)) :
    j = i ∧ new = .live e ∨ j ≠ i ∧ slots[j]? = some (.live e) := by
  rw [List.getElem?_set] at h
  split at h
  next hij =>
    split at h
    next => exact .inl ⟨hij.symm, Option.some.inj h⟩
    next => simp at h
  next hij => exact .inr ⟨Ne.symm hij, h⟩

/-- Whatever one does to the order of the entries, they stay different. -/
theorem Distinct.perm {slots' : List (Slot ε)} {equal : ε → ε → Prop} (hsymm : ∀ e e', equal e e' → equal e' e)
    (h : Distinct equal slots) (hp : (entries slots').Perm (entries slots)) : Distinct equal slots' :=
  (hp.pairwise_iff fun hne heq => hne (hsymm _ _ heq)).mpr h

theorem Placed.replicate_empty (n : Nat) : Placed path (List.replicate n .empty) := by
  intro j e h
  have := List.eq_of_mem_replicate (List.mem_of_getElem? h)
  cases this

theorem Placed.set_live (h : Placed path slots) {j : Nat} {e : ε} (hr : Reaches slots (path e) j) :
    Placed path (slots.set j (.live e)) := by
  intro i e' hi
  rcases live_set hi with ⟨rfl, he⟩ | ⟨-, he⟩
  · cases he
    exact hr.set _ (by simp)
  · exact (h he).set _ (by simp)

theorem Placed.set_deleted (h : Placed path slots) (j : Nat) : Placed path (slots.set j .deleted) := by
  intro i e hi
  rcases live_set hi with ⟨-, he⟩ | ⟨-, he⟩
  · cases he
  · exact (h he).set _ (by simp)

end Tables

end CFLite.Framework
