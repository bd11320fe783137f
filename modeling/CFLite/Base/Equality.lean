import CFLite.Base.Object

/-!
# Equality and collections

`CFEqual`, and the collections that are made with it. Equality is one
recursion with parameters (`Object.equalBy`): what makes two references
identical, and how two primitives are compared.

* `CFEqual`: equality as the code decides it, by pointer for archiver UIDs;
* `PList.equal`: equality of values, `PList.cfEqual`: `CFEqual` of objects
  that share nothing;
* `CFEqual_eq_cfEqual`: without UIDs and dates that are NaN, `CFEqual` depends
  on the values alone;
* `Kind.create`: a set or a dictionary keeps the first of equal keys.
-/

namespace CFLite

/-! ## Equality -/

/-- Whether the references of two containers of one kind agree, given which
of the first ones equals which of the second: an array's in order, each of
a set's with some one, each entry of a dictionary with some entry. -/
def Kind.agree : Kind → List (List Bool) → Bool
  | .array, rows => (List.range rows.length).all fun i => (rows.getD i []).getD i false
  | .set, rows => rows.all fun row => row.any id
  | .dictionary, rows =>
    let n := rows.length / 2
    (List.range n).all fun i => (List.range n).any fun j =>
      (rows.getD i []).getD j false && (rows.getD (n + i) []).getD (n + j) false

/-- References that are each equal to the one in the same place agree. -/
theorem Kind.agree_of_diagonal {k : Kind} {rows : List (List Bool)}
    (h : ∀ i < rows.length, (rows.getD i []).getD i false = true) : k.agree rows = true := by
  cases k with
  | array => simpa [Kind.agree, List.all_eq_true] using h
  | set =>
    refine List.all_eq_true.mpr fun row hrow => ?_
    obtain ⟨i, hi, rfl⟩ := List.getElem_of_mem hrow
    have hd := h i hi
    rw [List.getD_eq_getElem?_getD, List.getD_eq_getElem?_getD, List.getElem?_eq_getElem hi,
      Option.getD_some] at hd
    refine List.any_eq_true.mpr ⟨true, ?_, rfl⟩
    cases hget : rows[i][i]? with
    | none => simp [hget] at hd
    | some b => simp only [hget, Option.getD_some] at hd; exact hd ▸ List.mem_of_getElem? hget
  | dictionary =>
    simp only [Kind.agree, List.all_eq_true, List.any_eq_true, List.mem_range, Bool.and_eq_true]
    exact fun i hi => ⟨i, hi, h i (by omega), h _ (by omega)⟩

namespace Object

variable {β : Type}

mutual

/-- The recursion of `CFEqual`: identical objects are equal, primitives are
compared by `value`, and containers by what they contain. -/
def equalBy (identical : Object β → Object β → Bool) (value : Primitive → Primitive → Bool) :
    Object β → Object β → Bool
  | .primitive b x, .primitive c y => identical (.primitive b x) (.primitive c y) || value x y
  | .container b k xs, .container c l ys =>
    identical (.container b k xs) (.container c l ys) ||
      (k == l && xs.length == ys.length && k.agree (equalRows identical value xs ys))
  | _, _ => false

/-- Which of the first references equals which of the second. -/
def equalRows (identical : Object β → Object β → Bool) (value : Primitive → Primitive → Bool) :
    List (Object β) → List (Object β) → List (List Bool)
  | [], _ => []
  | x :: xs, ys => ys.map (equalBy identical value x) :: equalRows identical value xs ys

end

variable {identical : Object β → Object β → Bool} {value : Primitive → Primitive → Bool}

example (b c : β) (x y : Primitive) :
    equalRows identical value [.primitive b x] [.primitive c y] =
      [[identical (.primitive b x) (.primitive c y) || value x y]] := by
  simp only [equalRows, equalBy, List.map_cons, List.map_nil]

theorem equalRows_eq_map (xs ys : List (Object β)) :
    equalRows identical value xs ys = xs.map fun x => ys.map (equalBy identical value x) := by
  induction xs with
  | nil => simp only [equalRows, List.map_nil]
  | cons x xs ih => simp only [equalRows, ih, List.map_cons]

@[simp] theorem equalBy_primitive (b c : β) (x y : Primitive) :
    equalBy identical value (.primitive b x) (.primitive c y) =
      (identical (.primitive b x) (.primitive c y) || value x y) := by
  simp only [equalBy]

theorem equalBy_container (b c : β) (k l : Kind) (xs ys : List (Object β)) :
    equalBy identical value (.container b k xs) (.container c l ys) =
      (identical (.container b k xs) (.container c l ys) ||
        (k == l && xs.length == ys.length && k.agree (xs.map fun x => ys.map (equalBy identical value x)))) := by
  simp only [equalBy, equalRows_eq_map]

/-- An object equals itself when its primitives do. -/
theorem equalBy_refl (x : Object β) (h : x.all (fun p => value p p) = true) :
    equalBy identical value x x = true := by
  induction x using Object.induction_on with
  | primitive base p => simp only [all_primitive] at h; simp [h]
  | container base kind list ih =>
    simp only [all_container, List.all_eq_true] at h
    rw [equalBy_container, Kind.agree_of_diagonal]
    · simp
    · intro i hi
      simp only [List.length_map] at hi
      simpa [hi] using ih list[i] (List.getElem_mem hi) (h _ (List.getElem_mem hi))

end Object

namespace Primitive

/-- The `equal` functions of the primitives' classes. Archiver UIDs have
none: they are equal only when they are the same object. -/
def cfEqual : Primitive → Primitive → Bool
  | .null, .null => true
  | .boolean a, .boolean b => a == b
  | .number a, .number b => a.equal b
  | .date a, .date b => doubleEqual a b
  | .data a, .data b => a == b
  | .string a, .string b => a == b
  | _, _ => false

/-- Equality of values: numbers by value, UIDs by value, dates by their
bits. -/
def equal : Primitive → Primitive → Bool
  | .number a, .number b => a.equal b
  | a, b => a == b

@[simp] theorem equal_refl (a : Primitive) : a.equal a = true := by
  cases a <;> simp [equal]

end Primitive

/-- `CFEqual` -/
def CFEqual : CFTypeRef → CFTypeRef → Bool := Object.equalBy (fun x y => decide (x = y)) Primitive.cfEqual

namespace PList

/-- Two property lists are equal. -/
def equal : PList → PList → Bool := Object.equalBy (fun _ _ => false) Primitive.equal

/-- `CFEqual` of objects that are not identical and contain no identical
objects. -/
def cfEqual : PList → PList → Bool := Object.equalBy (fun _ _ => false) Primitive.cfEqual

theorem equal_refl (x : PList) : x.equal x = true := by
  refine Object.equalBy_refl x ?_
  induction x using Object.induction_on with
  | primitive base value => simp
  | container base kind list ih => simpa using ih

end PList

/-- `CFEqual` compares the value, not the identity, of such a primitive. -/
def Primitive.byValue (p : Primitive) : Bool := p.cfEqual p

/-- Objects whose primitives are compared by value equal themselves. -/
theorem CFEqual_self {x : CFTypeRef} (h : x.all Primitive.byValue = true) : CFEqual x x = true :=
  Object.equalBy_refl x h

theorem PList.cfEqual_self {x : PList} (h : x.all Primitive.byValue = true) : x.cfEqual x = true :=
  Object.equalBy_refl x h

theorem CFEqual_eq_cfEqual {x : CFTypeRef} (y : CFTypeRef) (h : x.all Primitive.byValue = true) :
    CFEqual x y = x.erase.cfEqual y.erase := by
  induction x using Object.induction_on generalizing y with
  | primitive base p =>
    by_cases heq : Object.primitive base p = y
    · rw [← heq, CFEqual_self h, PList.cfEqual_self (by rwa [Object.all_erase])]
    · cases y <;> simp [CFEqual, PList.cfEqual, Object.equalBy, heq]
  | container base kind list ih =>
    by_cases heq : Object.container base kind list = y
    · rw [← heq, CFEqual_self h, PList.cfEqual_self (by rwa [Object.all_erase])]
    · cases y with
      | primitive base' q => simp [CFEqual, PList.cfEqual, Object.equalBy]
      | container base' kind' list' =>
        rw [Object.all_container, List.all_eq_true] at h
        have hrows : (list.map fun x => list'.map (CFEqual x)) =
            (list.map Object.erase).map fun x => (list'.map Object.erase).map x.cfEqual := by
          rw [List.map_map]
          refine List.map_congr_left fun x hx => ?_
          rw [Function.comp, List.map_map]
          exact List.map_congr_left fun y _ => ih x hx y (h x hx)
        simp only [CFEqual, PList.cfEqual, Object.erase_container, Object.equalBy_container, heq,
          decide_false, Bool.false_or, List.length_map] at hrows ⊢
        rw [hrows]

/-! ## Collections -/

/-- `CFSetAddValue`, `CFDictionaryAddValue`: nothing is added when the
collection already has an equal key. -/
def addValue {α : Type} (equal : α → α → Bool) (values : List α) (x : α) : List α :=
  if values.any (equal · x) then values else values ++ [x]

/-- The references of a collection made from a list of references. -/
def Kind.create {α : Type} (equal : α → α → Bool) (kind : Kind) (list : List α) : List α :=
  match kind with
  | .array => list
  | .set => list.foldl (addValue equal) []
  | .dictionary =>
    let n := list.length / 2
    let entries := ((list.take n).zip (list.drop n)).foldl (addValue fun a b => equal a.1 b.1) []
    entries.map Prod.fst ++ entries.map Prod.snd

/-- The number of a collection's references that are compared when it is
made: its members or its keys. -/
def Kind.keyed (kind : Kind) (count : Nat) : Nat :=
  match kind with
  | .array => 0
  | .set => count
  | .dictionary => count / 2

section create

variable {α β : Type} {equal : α → α → Bool} {equal' : β → β → Bool} {f : α → β}

theorem addValue_subset (values : List α) (x : α) : addValue equal values x ⊆ values ++ [x] := by
  simp only [addValue]
  split
  · exact List.subset_append_left ..
  · exact List.Subset.refl _

theorem foldl_addValue_subset (list values : List α) : list.foldl (addValue equal) values ⊆ values ++ list := by
  induction list generalizing values with
  | nil => simp
  | cons x list ih =>
    refine List.Subset.trans (ih _) (List.append_subset.mpr ⟨?_, ?_⟩)
    · exact List.Subset.trans (addValue_subset values x) (by simp)
    · exact List.subset_append_of_subset_right _ (List.subset_cons_self x list)

/-- Adding values of which no two are equal. -/
theorem foldl_addValue_of_pairwise {list values : List α}
    (h : (values ++ list).Pairwise fun a b => equal a b = false) :
    list.foldl (addValue equal) values = values ++ list := by
  induction list generalizing values with
  | nil => simp
  | cons x list ih =>
    have hany : values.any (equal · x) = false :=
      List.any_eq_false.mpr fun y hy => by
        have := (List.pairwise_append.mp h).2.2 y hy x List.mem_cons_self
        simp [this]
    rw [List.foldl_cons, addValue, hany, if_neg (by simp), ih (by simpa using h)]
    simp

/-- Adding values commutes with a map that keeps their equality. -/
theorem map_foldl_addValue {list values : List α}
    (h : ∀ x ∈ values ++ list, ∀ y ∈ values ++ list, equal x y = equal' (f x) (f y)) :
    (list.foldl (addValue equal) values).map f = (list.map f).foldl (addValue equal') (values.map f) := by
  induction list generalizing values with
  | nil => rfl
  | cons x list ih =>
    have hany : values.any (equal · x) = (values.map f).any (equal' · (f x)) := by
      rw [List.any_map, Bool.eq_iff_iff]
      simp only [List.any_eq_true, Function.comp]
      exact exists_congr fun y => and_congr_right fun hy => by rw [h y (by simp [hy]) x (by simp)]
    have hsub : addValue equal values x ++ list ⊆ values ++ x :: list := by
      refine List.append_subset.mpr ⟨List.Subset.trans (addValue_subset values x) (by simp), ?_⟩
      exact List.subset_append_of_subset_right _ (List.subset_cons_self x list)
    simp only [List.foldl_cons, List.map_cons]
    rw [ih fun y hy z hz => h y (hsub hy) z (hsub hz)]
    simp only [addValue, hany]
    split <;> simp

theorem Kind.map_create {kind : Kind} {list : List α}
    (h : ∀ x ∈ list.take (kind.keyed list.length), ∀ y ∈ list.take (kind.keyed list.length),
      equal x y = equal' (f x) (f y)) :
    (kind.create equal list).map f = kind.create equal' (list.map f) := by
  cases kind with
  | array => rfl
  | set => exact map_foldl_addValue (by simpa [Kind.keyed] using h)
  | dictionary =>
    have hentries : (((list.take (list.length / 2)).zip (list.drop (list.length / 2))).foldl
        (addValue fun a b => equal a.1 b.1) []).map (Prod.map f f) =
          (((list.take (list.length / 2)).zip (list.drop (list.length / 2))).map (Prod.map f f)).foldl
            (addValue fun a b => equal' a.1 b.1) [] :=
      map_foldl_addValue fun x hx y hy => h _ (List.of_mem_zip hx).1 _ (List.of_mem_zip hy).1
    rw [← List.zip_map] at hentries
    simp only [Kind.create, List.length_map, ← List.map_take, ← List.map_drop, ← hentries, List.map_append,
      List.map_map]
    rfl

theorem Kind.create_subset (kind : Kind) (list : List α) : kind.create equal list ⊆ list := by
  cases kind with
  | array => exact List.Subset.refl _
  | set =>
    have h : list.foldl (addValue equal) [] ⊆ [] ++ list := foldl_addValue_subset list []
    simpa [Kind.create] using h
  | dictionary =>
    intro x hx
    simp only [Kind.create, List.mem_append, List.mem_map] at hx
    obtain ⟨e, he, rfl⟩ | ⟨e, he, rfl⟩ := hx
    · exact List.mem_of_mem_take (List.of_mem_zip (by simpa using foldl_addValue_subset _ _ he)).1
    · exact List.mem_of_mem_drop (List.of_mem_zip (by simpa using foldl_addValue_subset _ _ he)).2

end create

end CFLite
