import Mathlib.Data.List.Basic
import CFLite.Base.Number

/-!
# Core Foundation objects

The objects a property list is made of. A primitive holds its own data; a
container holds references. `Object β` is such an object with everything
reachable from it, unfolded to a tree whose nodes carry labels of type `β`:

* `CFTypeRef` labels each node with its runtime base (its address and whether
  it is mutable). Two references point to the same object exactly when the
  labelled trees are equal, so pointer equality is equality of `CFTypeRef`s
  and any sharing of sub-objects is kept;
* `PList` has no labels: the value of a property list (`Object.erase`).

A container's `list` holds its references as the code lays them out: for a
dictionary the keys and then the values, as `CFDictionaryGetKeysAndValues(d,
list, list + count)` does. The order of a set's or a dictionary's references
has no meaning.

`Object.induction_on` is the induction over an object and what it contains.
-/

namespace CFLite

/-- Objects without references. A date is the bits of its `CFAbsoluteTime`,
a string its UTF-16 code units. -/
inductive Primitive where
  | null
  | boolean (value : Bool)
  | number (value : CFNumber)
  | date (time : UInt64)
  | data (bytes : List UInt8)
  | string (chars : List UInt16)
  | uid (value : UInt32)
  deriving DecidableEq

/-- The kinds of containers. -/
inductive Kind where
  | array
  | set
  | dictionary
  deriving DecidableEq, Repr

/-- An object and what is reachable from it, with labels. -/
inductive Object (β : Type) where
  | primitive (base : β) (value : Primitive)
  | container (base : β) (kind : Kind) (list : List (Object β))

/-- What the code can tell about an object besides its type and contents. -/
structure CFRuntimeBase where
  address : Nat
  mutable : Bool
  deriving DecidableEq, Repr

/-- `CFPropertyListMutabilityOptions` -/
inductive Mutability where
  | immutable
  | mutableContainers
  | mutableContainersAndLeaves
  deriving DecidableEq, Repr

abbrev CFTypeRef := Object CFRuntimeBase

/-- The value of a property list. -/
abbrev PList := Object Unit

namespace Object

variable {β γ : Type}

/-- Induction over an object: a container may use the statement for each of
its references. -/
@[elab_as_elim]
theorem induction_on {P : Object β → Prop} (primitive : ∀ base value, P (.primitive base value))
    (container : ∀ base kind list, (∀ x ∈ list, P x) → P (.container base kind list)) (x : Object β) : P x :=
  Object.rec (motive_1 := P) (motive_2 := fun list => ∀ x ∈ list, P x) primitive container
    (fun _ h => by cases h)
    (fun _ _ hx hxs y hy => by
      rcases List.mem_cons.mp hy with rfl | hy
      · exact hx
      · exact hxs y hy) x

def base : Object β → β
  | .primitive base _ => base
  | .container base _ _ => base

/-- `_plistIsPrimitive` -/
def isPrimitive : Object β → Bool
  | .primitive _ _ => true
  | .container _ _ _ => false

mutual

/-- The value of an object. -/
def erase : Object β → PList
  | .primitive _ value => .primitive () value
  | .container _ kind list => .container () kind (eraseList list)

def eraseList : List (Object β) → List PList
  | [] => []
  | x :: xs => x.erase :: eraseList xs

end

@[simp] theorem eraseList_eq_map (list : List (Object β)) : eraseList list = list.map erase := by
  induction list with
  | nil => rfl
  | cons x xs ih => simp only [eraseList, ih, List.map_cons]

@[simp] theorem erase_primitive (base : β) (value : Primitive) :
    (Object.primitive base value).erase = .primitive () value := by
  simp only [erase]

@[simp] theorem erase_container (base : β) (kind : Kind) (list : List (Object β)) :
    (Object.container base kind list).erase = .container () kind (list.map erase) := by
  simp only [erase, eraseList_eq_map]

@[simp] theorem isPrimitive_erase (x : Object β) : x.erase.isPrimitive = x.isPrimitive := by
  cases x <;> simp [isPrimitive]

mutual

/-- Whether all primitives in an object satisfy `p`. -/
def all (p : Primitive → Bool) : Object β → Bool
  | .primitive _ value => p value
  | .container _ _ list => allList p list

def allList (p : Primitive → Bool) : List (Object β) → Bool
  | [] => true
  | x :: xs => x.all p && allList p xs

end

@[simp] theorem allList_eq_all (p : Primitive → Bool) (list : List (Object β)) :
    allList p list = list.all (Object.all p) := by
  induction list with
  | nil => rfl
  | cons x xs ih => simp only [allList, ih, List.all_cons]

@[simp] theorem all_primitive (p : Primitive → Bool) (base : β) (value : Primitive) :
    (Object.primitive base value).all p = p value := by
  simp only [all]

@[simp] theorem all_container (p : Primitive → Bool) (base : β) (kind : Kind) (list : List (Object β)) :
    (Object.container base kind list).all p = list.all (Object.all p) := by
  simp only [all, allList_eq_all]

@[simp] theorem all_erase (p : Primitive → Bool) (x : Object β) : x.erase.all p = x.all p := by
  induction x using Object.induction_on with
  | primitive base value => simp
  | container base kind list ih =>
    rw [Bool.eq_iff_iff]
    simp only [erase_container, all_container, List.all_map, List.all_eq_true, Function.comp]
    exact forall₂_congr fun x hx => by rw [ih x hx]

/-! ## Identity -/

section DecidableEq

variable [DecidableEq β]

mutual

/-- Whether two references are to the same object. -/
def same : Object β → Object β → Bool
  | .primitive b x, .primitive c y => b == c && x == y
  | .container b k xs, .container c l ys => b == c && k == l && sameList xs ys
  | _, _ => false

def sameList : List (Object β) → List (Object β) → Bool
  | [], [] => true
  | x :: xs, y :: ys => same x y && sameList xs ys
  | _, _ => false

end

theorem sameList_iff {xs ys : List (Object β)} (h : ∀ x ∈ xs, ∀ y, same x y = true ↔ x = y) :
    sameList xs ys = true ↔ xs = ys := by
  induction xs generalizing ys with
  | nil => cases ys <;> simp [sameList]
  | cons x xs ih =>
    cases ys with
    | nil => simp [sameList]
    | cons y ys =>
      simp only [sameList, Bool.and_eq_true, List.cons.injEq, h x List.mem_cons_self y,
        ih fun z hz => h z (List.mem_cons_of_mem x hz)]

theorem same_iff (x y : Object β) : same x y = true ↔ x = y := by
  induction x using Object.induction_on generalizing y with
  | primitive base value => cases y <;> simp [same]
  | container base kind list ih =>
    cases y with
    | primitive base' value' => simp [same]
    | container base' kind' list' => simp [same, sameList_iff ih, and_assoc]

instance : DecidableEq (Object β) := fun x y => decidable_of_iff _ (same_iff x y)

end DecidableEq

end Object

end CFLite
