import CFLite.Base.PropertyList
import CFLite.PropertyList.Validation

/-!
# Objects as graphs

An object with everything reachable from it is a finite graph without cycles,
so validating it ends and says whether all of it is well-formed.

* `Object.subobjects`: an object and what it contains, keys included;
* `cell`: an object as a node of the graph;
* `isValidObject_iff`: what `CFPropertyListIsValid` answers.
-/

namespace CFLite

/-! ## Sub-objects -/

namespace Object

variable {β : Type}

mutual

/-- An object and everything reachable from it. -/
def subobjects : Object β → List (Object β)
  | .primitive base value => [.primitive base value]
  | .container base kind list => .container base kind list :: subobjectsList list

def subobjectsList : List (Object β) → List (Object β)
  | [] => []
  | x :: xs => x.subobjects ++ subobjectsList xs

end

@[simp] theorem subobjectsList_eq_flatMap (list : List (Object β)) :
    subobjectsList list = list.flatMap subobjects := by
  induction list with
  | nil => rfl
  | cons x xs ih => simp only [subobjectsList, ih, List.flatMap_cons]

@[simp] theorem subobjects_primitive (base : β) (value : Primitive) :
    (Object.primitive base value).subobjects = [.primitive base value] := by
  simp only [subobjects]

@[simp] theorem subobjects_container (base : β) (kind : Kind) (list : List (Object β)) :
    (Object.container base kind list).subobjects = .container base kind list :: list.flatMap subobjects := by
  simp only [subobjects, subobjectsList_eq_flatMap]

theorem self_mem_subobjects (x : Object β) : x ∈ x.subobjects := by
  cases x <;> simp

theorem forall_subobjects_container {P : Object β → Prop} {base : β} {kind : Kind} {list : List (Object β)} :
    (∀ z ∈ (Object.container base kind list).subobjects, P z) ↔
      P (.container base kind list) ∧ ∀ x ∈ list, ∀ z ∈ x.subobjects, P z := by
  simp only [subobjects_container, List.mem_cons, List.mem_flatMap, forall_eq_or_imp]
  refine and_congr_right fun _ => ⟨fun h x hx z hz => h z ⟨x, hx, hz⟩, ?_⟩
  rintro h z ⟨x, hx, hz⟩
  exact h x hx z hz

theorem length_subobjects_lt {base : β} {kind : Kind} {list : List (Object β)} {x : Object β} (hx : x ∈ list) :
    x.subobjects.length < (Object.container base kind list).subobjects.length := by
  obtain ⟨before, after, rfl⟩ := List.append_of_mem hx
  simp only [subobjects_container, List.flatMap_append, List.flatMap_cons, List.length_cons, List.length_append]
  omega

end Object

namespace PropertyListValidation

open CFLite.Framework Relation

/-! ## The graph -/

/-- `CFGetTypeID` of an object without references. -/
def primitiveType : Primitive → CFTypeID
  | .null => .other "CFNull"
  | .boolean _ => .boolean
  | .number _ => .number
  | .date _ => .date
  | .data _ => .data
  | .string _ => .string
  | .uid _ => .keyedArchiverUID

theorem primitiveType_leaf (value : Primitive) : primitiveType value ≠ .array ∧ primitiveType value ≠ .dictionary := by
  cases value <;> simp [primitiveType]

/-- An object as a node, and what it contains as its references. -/
def cell : CFTypeRef → Cell CFTypeRef
  | .primitive _ value => .leaf (primitiveType value) (primitiveType_leaf value)
  | .container _ .array list => .array (list.map some)
  | .container _ .set _ => .leaf (.other "CFSet") (by decide)
  | .container _ .dictionary list =>
    .dictionary (((list.take (list.length / 2)).zip (list.drop (list.length / 2))).map fun e => (some e.1, some e.2))

/-- `CFPropertyListIsValid` of an object. -/
def isValidObject (x : CFTypeRef) (format : CFPropertyListFormat) : Bool :=
  match (isValid cell format (x.subobjects.length + 1) (some x)).result with
  | .ok (answer, _) => answer
  | .error _ => false

/-- What a dictionary contains in the graph are its values. -/
theorem contains_dictionary {base : CFRuntimeBase} {list : List CFTypeRef} {y : CFTypeRef}
    (h : Contains cell (.container base .dictionary list) y) : y ∈ list.drop (list.length / 2) := by
  simp only [Contains, cell, Cell.values, Cell.entries, List.not_mem_nil, false_or, List.mem_map, Prod.mk.injEq,
    Option.some.injEq] at h
  obtain ⟨key, ⟨k, v⟩, he, -, rfl⟩ := h
  exact (List.of_mem_zip he).2

theorem contains_mem {x y : CFTypeRef} (h : Contains cell x y) :
    ∃ base kind list, x = .container base kind list ∧ y ∈ list := by
  match x with
  | .primitive base value => simp [Contains, cell, Cell.values, Cell.entries] at h
  | .container base .set list => simp [Contains, cell, Cell.values, Cell.entries] at h
  | .container base .array list =>
    exact ⟨base, .array, list, rfl, by simpa [Contains, cell, Cell.values, Cell.entries] using h⟩
  | .container base .dictionary list =>
    exact ⟨base, .dictionary, list, rfl, List.mem_of_mem_drop (contains_dictionary h)⟩

theorem mem_subobjects_of_contains {x y : CFTypeRef} (h : ReflTransGen (Contains cell) x y) : y ∈ x.subobjects := by
  induction h using ReflTransGen.head_induction_on with
  | refl => exact Object.self_mem_subobjects y
  | head hx _ ih =>
    obtain ⟨base, kind, list, rfl, hmem⟩ := contains_mem hx
    rw [Object.subobjects_container]
    exact List.mem_cons_of_mem _ (List.mem_flatMap.mpr ⟨_, hmem, ih⟩)

theorem length_subobjects_of_contains {x y : CFTypeRef} (h : Contains cell x y) :
    y.subobjects.length < x.subobjects.length := by
  obtain ⟨base, kind, list, rfl, hy⟩ := contains_mem h
  exact Object.length_subobjects_lt hy

/-- No object contains itself. -/
theorem not_transGen_contains (x : CFTypeRef) : ¬ TransGen (Contains cell) x x := by
  have hlt : ∀ y, TransGen (Contains cell) x y → y.subobjects.length < x.subobjects.length := by
    intro y h
    induction h with
    | single h => exact length_subobjects_of_contains h
    | tail _ h ih => exact (length_subobjects_of_contains h).trans ih
  exact fun h => Nat.lt_irrefl _ (hlt x h)

/-- Everything that an object contains is well-formed. -/
def AllWellFormed (format : CFPropertyListFormat) (x : CFTypeRef) : Prop :=
  ∀ y, ReflTransGen (Contains cell) x y → WellFormed cell format y

theorem isValidObject_iff {x : CFTypeRef} {format : CFPropertyListFormat} :
    isValidObject x format = true ↔ AllWellFormed format x := by
  have hkeys : ∀ y : CFTypeRef, ∀ entry ∈ (cell y).entries, entry.1 ≠ none := by
    rintro (⟨_, value⟩ | ⟨_, _ | _ | _, list⟩) entry hentry
    all_goals simp only [cell, Cell.entries, List.not_mem_nil, List.mem_map] at hentry
    obtain ⟨e, -, rfl⟩ := hentry
    exact Option.some_ne_none _
  have hgraph : IsPropertyListGraph cell format (some x) ↔ AllWellFormed format x := by
    simp only [IsPropertyListGraph, Option.some.injEq, exists_eq_left', AllWellFormed]
    exact forall₂_congr fun y _ => and_iff_left (not_transGen_contains y)
  -- going down, the objects get smaller
  have h := isValid_some (x := x) cell format (fun _ y => y.subobjects.length)
    (fun _ _ _ _ hy => length_subobjects_of_contains hy) (Nat.lt_succ_self _)
  rw [← hgraph, isValidObject]
  constructor
  · intro hanswer
    by_contra hvalid
    obtain ⟨s, hs, -⟩ := h.rejects hvalid (not_nullKeyFirst hkeys)
    rw [isValid, hs] at hanswer
    exact Bool.false_ne_true hanswer
  · intro hvalid
    rw [isValid, h.accepts hvalid]

section

variable {format : CFPropertyListFormat}

theorem AllWellFormed.child {x y : CFTypeRef} (h : AllWellFormed format x)
    (hy : Contains cell x y) : AllWellFormed format y :=
  fun z hz => h z (.head hy hz)

theorem AllWellFormed.self {x : CFTypeRef} (h : AllWellFormed format x) :
    WellFormed cell format x :=
  h x .refl

theorem not_allWellFormed_null (base : CFRuntimeBase) : ¬ AllWellFormed format (.primitive base .null) :=
  fun h => h.self.allowed

theorem not_allWellFormed_set (base : CFRuntimeBase) (list : List CFTypeRef) :
    ¬ AllWellFormed format (.container base .set list) :=
  fun h => h.self.allowed

/-- The elements of an array. -/
theorem AllWellFormed.element {base : CFRuntimeBase} {list : List CFTypeRef}
    (h : AllWellFormed format (.container base .array list)) {x : CFTypeRef} (hx : x ∈ list) :
    AllWellFormed format x :=
  h.child (.inl (List.mem_map_of_mem hx))

section Dictionary

variable {base : CFRuntimeBase} {keys values : List CFTypeRef}

theorem entries_dictionary (hlength : keys.length = values.length) :
    (cell (.container base .dictionary (keys ++ values))).entries =
      (keys.zip values).map fun e => (some e.1, some e.2) := by
  have hhalf : (keys ++ values).length / 2 = keys.length := by
    rw [List.length_append]
    omega
  simp only [cell, Cell.entries, hhalf, List.take_left, List.drop_left]

theorem AllWellFormed.value (h : AllWellFormed format (.container base .dictionary (keys ++ values)))
    (hlength : keys.length = values.length) {x : CFTypeRef} (hx : x ∈ values) : AllWellFormed format x := by
  rw [← List.map_snd_zip hlength.ge] at hx
  obtain ⟨e, he, rfl⟩ := List.mem_map.mp hx
  refine h.child (.inr ⟨some e.1, ?_⟩)
  rw [entries_dictionary hlength]
  exact List.mem_map.mpr ⟨e, he, rfl⟩

theorem AllWellFormed.key (h : AllWellFormed format (.container base .dictionary (keys ++ values)))
    (hlength : keys.length = values.length) {x : CFTypeRef} (hx : x ∈ keys) :
    ∃ base chars, x = .primitive base (.string chars) := by
  rw [← List.map_fst_zip hlength.le] at hx
  obtain ⟨e, he, rfl⟩ := List.mem_map.mp hx
  have hentry := h.self.entries (some e.1, some e.2) (by
    rw [entries_dictionary hlength]
    exact List.mem_map.mpr ⟨e, he, rfl⟩)
  obtain ⟨y, hy, htype⟩ := hentry.1
  obtain rfl := Option.some.inj hy
  rcases hkey : e.1 with ⟨b, value⟩ | ⟨b, kind, list⟩
  · rw [hkey] at htype
    cases value <;> cases htype
    exact ⟨b, _, rfl⟩
  · rw [hkey] at htype
    cases kind <;> cases htype

end Dictionary

end

end PropertyListValidation

end CFLite
