import Mathlib.Logic.Relation
import CFLite.BinaryPlist.ReaderBounds

/-!
# What the data of a binary property list says

The object table and the offset table of a binary property list are a graph:
`Child m t off c` when the container at `off` has a reference to the object
at `c`. `Unfolds m t off u` says that the objects reachable from `off` make up
the finite tree `u`, with every reference written out; it does not mention the
decoder's cache, path or recursion. `PList.collect` makes sets and
dictionaries of such a tree.

* `Unfolds.unique`: an offset has one unfolding;
* `Unfolds.not_cyclic`: no chain of references from it comes back to an
  object on the chain.
-/

namespace CFLite

namespace PList

mutual

/-- The value that is decoded from an unfolded list: of equal members of a
set, or equal keys of a dictionary, the first one stays. -/
def collect : PList → PList
  | .primitive base value => .primitive base value
  | .container base kind list => .container base kind (kind.create cfEqual (collectList list))

def collectList : List PList → List PList
  | [] => []
  | x :: xs => collect x :: collectList xs

end

mutual

/-- Whether the members of all sets and the keys of all dictionaries are
compared by value: none of them contains an archiver UID or a date that is
NaN. -/
def keyedByValue : PList → Bool
  | .primitive _ _ => true
  | .container _ kind list =>
    keyedByValueList list && (list.take (kind.keyed list.length)).all (Object.all Primitive.byValue)

def keyedByValueList : List PList → Bool
  | [] => true
  | x :: xs => keyedByValue x && keyedByValueList xs

end

example (value : Primitive) :
    collect (.container () .array [.primitive () value]) = .container () .array [.primitive () value] := by
  simp [collect, collectList, Kind.create]

example (value : Primitive) : keyedByValue (.container () .set [.primitive () value]) = value.byValue := by
  simp [keyedByValue, keyedByValueList, Kind.keyed]

@[simp] theorem collectList_eq_map (list : List PList) : collectList list = list.map collect := by
  induction list with
  | nil => rfl
  | cons x xs ih => simp only [collectList, ih, List.map_cons]

@[simp] theorem keyedByValueList_eq_all (list : List PList) : keyedByValueList list = list.all keyedByValue := by
  induction list with
  | nil => rfl
  | cons x xs ih => simp only [keyedByValueList, ih, List.all_cons]

@[simp] theorem collect_primitive (base : Unit) (value : Primitive) :
    collect (.primitive base value) = .primitive base value := by
  simp only [collect]

@[simp] theorem collect_container (base : Unit) (kind : Kind) (list : List PList) :
    collect (.container base kind list) = .container base kind (kind.create cfEqual (list.map collect)) := by
  simp only [collect, collectList_eq_map]

@[simp] theorem keyedByValue_primitive (base : Unit) (value : Primitive) :
    keyedByValue (.primitive base value) = true := by
  simp only [keyedByValue]

theorem keyedByValue_container (base : Unit) (kind : Kind) (list : List PList) :
    keyedByValue (.container base kind list) = true ↔
      (∀ x ∈ list, x.keyedByValue = true) ∧
        ∀ x ∈ list.take (kind.keyed list.length), x.all Primitive.byValue = true := by
  simp only [keyedByValue, keyedByValueList_eq_all, Bool.and_eq_true, List.all_eq_true]

/-- Collecting only drops objects. -/
theorem all_collect {p : Primitive → Bool} {x : PList} (h : x.all p = true) : x.collect.all p = true := by
  induction x using Object.induction_on with
  | primitive base value => simpa using h
  | container base kind list ih =>
    simp only [Object.all_container, List.all_eq_true] at h
    simp only [collect_container, Object.all_container, List.all_eq_true]
    intro y hy
    obtain ⟨x, hx, rfl⟩ := List.mem_map.mp (Kind.create_subset kind _ hy)
    exact ih x hx (h x hx)

end PList

namespace BinaryPlist

open CFLite.Framework

/-- The offset is one an object can start at. -/
def InTable (t : Trailer) (off : Nat) : Prop := 8 ≤ off ∧ off ≤ t.objectsRangeEnd

instance (t : Trailer) (off : Nat) : Decidable (InTable t off) := inferInstanceAs (Decidable (_ ∧ _))

/-- The offsets that `count` references from address `p` on name. -/
def childOffsets (m : Memory) (t : Trailer) : (count p : Nat) → List Nat
  | 0, _ => []
  | count + 1, p => offsetOfRef m t (refAt m t p) :: childOffsets m t count (p + t.objectRefSize.toNat)

@[simp] theorem length_childOffsets (m : Memory) (t : Trailer) (count p : Nat) :
    (childOffsets m t count p).length = count := by
  induction count generalizing p with
  | zero => rfl
  | succ count ih => simp only [childOffsets, List.length_cons, ih]

/-- The container at `off` has a reference to the object at `c`. -/
def Child (m : Memory) (t : Trailer) (off c : Nat) : Prop :=
  InTable t off ∧ ∃ kind count refs,
    (readObject m t off).result = .ok (.container kind count refs) ∧ c ∈ childOffsets m t count refs

/-- The objects reachable from an offset make up a finite tree, whose
dictionaries have primitive keys. -/
inductive Unfolds (m : Memory) (t : Trailer) : Nat → PList → Prop where
  | primitive {off : Nat} {value : Primitive} (hin : InTable t off)
      (hread : (readObject m t off).result = .ok (.primitive value)) :
      Unfolds m t off (.primitive () value)
  | container {off : Nat} {kind : Kind} {count refs : Nat} {list : List PList} (hin : InTable t off)
      (hread : (readObject m t off).result = .ok (.container kind count refs)) (hlength : list.length = count)
      (hlist : ∀ p ∈ (childOffsets m t count refs).zip list, Unfolds m t p.1 p.2)
      (hkeys : ∀ x ∈ list.take (keyCount kind count), x.isPrimitive = true) :
      Unfolds m t off (.container () kind list)

/-- Two lists are equal if they agree wherever they are paired with a third
list of their length. -/
theorem eq_of_forall_zip {α β : Type} {offs : List α} {xs ys : List β} (hx : xs.length = offs.length)
    (hy : ys.length = offs.length) (h : ∀ p ∈ offs.zip xs, ∀ y, (p.1, y) ∈ offs.zip ys → p.2 = y) : xs = ys := by
  refine List.ext_getElem (by omega) fun i h₁ h₂ => ?_
  have hxi : (offs[i], xs[i]) ∈ offs.zip xs := List.mem_iff_getElem.mpr ⟨i, by simp; omega, by simp⟩
  have hyi : (offs[i], ys[i]) ∈ offs.zip ys := List.mem_iff_getElem.mpr ⟨i, by simp; omega, by simp⟩
  exact h _ hxi _ hyi

theorem Unfolds.unique {m : Memory} {t : Trailer} {off : Nat} {u u' : PList} (h : Unfolds m t off u)
    (h' : Unfolds m t off u') : u = u' := by
  induction h generalizing u' with
  | primitive hin hread =>
    cases h' with
    | primitive hin' hread' => rw [hread] at hread'; cases hread'; rfl
    | container hin' hread' => rw [hread] at hread'; cases hread'
  | container hin hread hlength hlist hkeys ih =>
    cases h' with
    | primitive hin' hread' => rw [hread] at hread'; cases hread'
    | container hin' hread' hlength' hlist' hkeys' =>
      rw [hread] at hread'
      cases hread'
      congr 1
      exact eq_of_forall_zip (by simpa using hlength) (by simpa using hlength') fun p hp y hy =>
        ih p hp (hlist' _ hy)

/-- Every child of an unfolded container is unfolded. -/
theorem Unfolds.child {m : Memory} {t : Trailer} {off c : Nat} {u : PList} (h : Unfolds m t off u)
    (hc : Child m t off c) : ∃ u', Unfolds m t c u' := by
  obtain ⟨-, kind, count, refs, hread, hmem⟩ := hc
  cases h with
  | primitive hin hread' => rw [hread] at hread'; cases hread'
  | container hin hread' hlength hlist hkeys =>
    rw [hread] at hread'
    cases hread'
    obtain ⟨i, hi, rfl⟩ := List.getElem_of_mem hmem
    rw [length_childOffsets] at hi
    exact ⟨_, hlist (_, _) (List.mem_iff_getElem.mpr ⟨i, by simp; omega, by simp; rfl⟩)⟩

/-- An unfolded object is not among the objects it refers to, directly or
not. -/
theorem Unfolds.irreflexive {m : Memory} {t : Trailer} {off : Nat} {u : PList} (h : Unfolds m t off u) :
    ¬Relation.TransGen (Child m t) off off := by
  induction h with
  | primitive hin hread =>
    intro hcycle
    obtain ⟨c, ⟨-, kind, count, refs, hread', -⟩, -⟩ := Relation.TransGen.head'_iff.mp hcycle
    rw [hread] at hread'; cases hread'
  | @container off kind count refs list hin hread hlength hlist hkeys ih =>
    intro hcycle
    obtain ⟨c, hc, hback⟩ := Relation.TransGen.head'_iff.mp hcycle
    obtain ⟨-, kind', count', refs', hread', hmem⟩ := id hc
    rw [hread] at hread'
    cases hread'
    obtain ⟨i, hi, rfl⟩ := List.getElem_of_mem hmem
    rw [length_childOffsets] at hi
    exact ih ((childOffsets m t count refs).get ⟨i, by simpa using hi⟩, list.get ⟨i, by omega⟩)
      (List.mem_iff_getElem.mpr ⟨i, by simp; omega, by simp⟩) (Relation.TransGen.tail' hback hc)

theorem Unfolds.reachable {m : Memory} {t : Trailer} {off c : Nat} {u : PList} (h : Unfolds m t off u)
    (hc : Relation.ReflTransGen (Child m t) off c) : ∃ u', Unfolds m t c u' := by
  induction hc with
  | refl => exact ⟨u, h⟩
  | tail _ hstep ih => obtain ⟨u', hu'⟩ := ih; exact hu'.child hstep

/-- No chain of references from an unfolded object comes back to an object
on the chain. -/
theorem Unfolds.not_cyclic {m : Memory} {t : Trailer} {off c : Nat} {u : PList} (h : Unfolds m t off u)
    (hc : Relation.ReflTransGen (Child m t) off c) : ¬Relation.TransGen (Child m t) c c := by
  obtain ⟨u', hu'⟩ := h.reachable hc
  exact hu'.irreflexive

end BinaryPlist

end CFLite
