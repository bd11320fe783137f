import CFLite.Base.Equality

/-!
# Property lists

`PList.isPropertyList` picks out the property lists among the objects, and
`PropertyList` is such a list in memory, with its sharing. Its dictionaries are
keyed by distinct strings, so that decoding, which drops equal keys, keeps all
of them (`PList.collect_eq_self` in the reader).

* `Object.map`: a change of the primitives;
* `PList.all_of_equal`: a property of primitives that equality respects passes
  between equal lists.
-/

namespace CFLite

namespace Primitive

def isString : Primitive → Bool
  | .string _ => true
  | _ => false

end Primitive

namespace PList

mutual

/-- A property list: no null and no sets, and the keys of a dictionary are
distinct strings. The references of a container are pointers in one 64-bit
address space. -/
def isPropertyList : PList → Bool
  | .primitive _ value => value ≠ .null
  | .container _ kind list =>
    isPropertyListList list && list.length * 8 < 2 ^ 64 &&
      match kind with
      | .array => true
      | .set => false
      | .dictionary =>
        let keys := list.take (list.length / 2)
        list.length % 2 = 0 && keys.all (fun key => key.isPrimitive && key.all Primitive.isString) && keys.Nodup

def isPropertyListList : List PList → Bool
  | [] => true
  | x :: xs => isPropertyList x && isPropertyListList xs

end

example : isPropertyList (.container () .array [.primitive () .null]) = false := by
  simp [isPropertyList, isPropertyListList]

@[simp] theorem isPropertyListList_eq_all (list : List PList) :
    isPropertyListList list = list.all isPropertyList := by
  induction list with
  | nil => rfl
  | cons x xs ih => simp only [isPropertyListList, ih, List.all_cons]

@[simp] theorem isPropertyList_primitive (base : Unit) (value : Primitive) :
    isPropertyList (.primitive base value) = true ↔ value ≠ .null := by
  simp [isPropertyList]

theorem isPropertyList_array (base : Unit) (list : List PList) :
    isPropertyList (.container base .array list) = true ↔
      (∀ x ∈ list, x.isPropertyList = true) ∧ list.length * 8 < 2 ^ 64 := by
  simp [isPropertyList]

theorem isPropertyList_dictionary (base : Unit) (list : List PList) :
    isPropertyList (.container base .dictionary list) = true ↔
      (∀ x ∈ list, x.isPropertyList = true) ∧ list.length * 8 < 2 ^ 64 ∧ list.length % 2 = 0 ∧
        (∀ key ∈ list.take (list.length / 2), ∃ chars, key = .primitive () (.string chars)) ∧
        (list.take (list.length / 2)).Nodup := by
  have hkey : ∀ key : PList, (key.isPrimitive && key.all Primitive.isString) = true ↔
      ∃ chars, key = .primitive () (.string chars) := by
    rintro (⟨_, value⟩ | ⟨_, kind, list⟩)
    · cases value <;> simp [Object.isPrimitive, Primitive.isString]
    · simp [Object.isPrimitive]
  simp only [isPropertyList, isPropertyListList_eq_all, Bool.and_eq_true, List.all_eq_true, hkey, decide_eq_true_eq,
    and_assoc]

@[simp] theorem isPropertyList_set (base : Unit) (list : List PList) :
    isPropertyList (.container base .set list) = false := by
  simp [isPropertyList]

end PList

/-- A property list in memory. -/
structure PropertyList where
  root : CFTypeRef
  valid : root.erase.isPropertyList = true

/-! ## Changing the primitives -/

namespace Object

variable {β : Type}

mutual

/-- An object with its primitives changed. -/
def map (g : Primitive → Primitive) : Object β → Object β
  | .primitive base value => .primitive base (g value)
  | .container base kind list => .container base kind (mapList g list)

def mapList (g : Primitive → Primitive) : List (Object β) → List (Object β)
  | [] => []
  | x :: xs => x.map g :: mapList g xs

end

example (g : Primitive → Primitive) (b c : β) (kind : Kind) (value : Primitive) :
    (Object.container b kind [.primitive c value]).map g = .container b kind [.primitive c (g value)] := by
  simp only [map, mapList]

@[simp] theorem mapList_eq_map (g : Primitive → Primitive) (list : List (Object β)) :
    mapList g list = list.map (Object.map g) := by
  induction list with
  | nil => rfl
  | cons x xs ih => simp only [mapList, ih, List.map_cons]

@[simp] theorem map_primitive (g : Primitive → Primitive) (base : β) (value : Primitive) :
    (Object.primitive base value).map g = .primitive base (g value) := by
  simp only [map]

@[simp] theorem map_container (g : Primitive → Primitive) (base : β) (kind : Kind) (list : List (Object β)) :
    (Object.container base kind list).map g = .container base kind (list.map (Object.map g)) := by
  simp only [map, mapList_eq_map]

/-- A change that leaves all primitives of an object alone. -/
theorem map_eq_self {g : Primitive → Primitive} {x : Object β} (h : x.all (fun p => g p = p) = true) :
    x.map g = x := by
  induction x using Object.induction_on with
  | primitive base value => simpa using h
  | container base kind list ih =>
    simp only [all_container, List.all_eq_true] at h
    rw [map_container, List.map_congr_left fun x hx => ih x hx (h x hx), List.map_id']

theorem all_map_eq (g : Primitive → Primitive) (p : Primitive → Bool) (x : Object β) :
    (x.map g).all p = x.all fun value => p (g value) := by
  induction x using Object.induction_on with
  | primitive base value => simp
  | container base kind list ih =>
    rw [Bool.eq_iff_iff]
    simp only [map_container, all_container, List.all_map, List.all_eq_true, Function.comp]
    exact forall₂_congr fun x hx => by rw [ih x hx]

theorem all_mono₂ {p q r : Primitive → Bool} (h : ∀ value, p value = true → q value = true → r value = true)
    {x : Object β} (hp : x.all p = true) (hq : x.all q = true) : x.all r = true := by
  induction x using Object.induction_on with
  | primitive base value =>
    rw [all_primitive] at hp hq ⊢
    exact h value hp hq
  | container base kind list ih =>
    rw [all_container, List.all_eq_true] at hp hq ⊢
    exact fun x hx => ih x hx (hp x hx) (hq x hx)

theorem all_mono {p q : Primitive → Bool} (h : ∀ value, p value = true → q value = true) {x : Object β}
    (hx : x.all p = true) : x.all q = true :=
  all_mono₂ (fun value hp _ => h value hp) hx hx

theorem all_map {g : Primitive → Primitive} {p : Primitive → Bool} (h : ∀ value, p (g value) = true) (x : Object β) :
    (x.map g).all p = true := by
  induction x using Object.induction_on with
  | primitive base value => simp [h]
  | container base kind list ih => simpa using ih

end Object

/-! ## Equal lists -/

/-- Of containers that agree, each reference of the first equals one of the
second. -/
theorem Kind.exists_of_agree {kind : Kind} {rows : List (List Bool)} (h : kind.agree rows = true)
    (heven : kind = .dictionary → rows.length % 2 = 0) {i : Nat} (hi : i < rows.length) :
    ∃ j, (rows.getD i []).getD j false = true := by
  cases kind with
  | array =>
    simp only [Kind.agree, List.all_eq_true, List.mem_range] at h
    exact ⟨i, h i hi⟩
  | set =>
    simp only [Kind.agree, List.all_eq_true, List.any_eq_true] at h
    obtain ⟨b, hb, htrue⟩ := h rows[i] (List.getElem_mem hi)
    obtain ⟨j, hj, rfl⟩ := List.getElem_of_mem hb
    exact ⟨j, by simpa [hi, hj] using htrue⟩
  | dictionary =>
    simp only [Kind.agree, List.all_eq_true, List.any_eq_true, List.mem_range, Bool.and_eq_true] at h
    have heven := heven rfl
    rcases Nat.lt_or_ge i (rows.length / 2) with hkey | hvalue
    · obtain ⟨j, -, hj, -⟩ := h i hkey
      exact ⟨j, hj⟩
    · obtain ⟨j, -, -, hj⟩ := h (i - rows.length / 2) (by omega)
      rw [Nat.add_sub_cancel' hvalue] at hj
      exact ⟨_, hj⟩

/-- A property of primitives that equality respects passes from a list to a
property list that is equal to it. -/
theorem PList.all_of_equal {p : Primitive → Bool} (hp : ∀ a b : Primitive, a.equal b = true → p b = true → p a = true)
    {x y : PList} (hx : x.isPropertyList = true) (h : x.equal y = true) (hy : y.all p = true) : x.all p = true := by
  induction x using Object.induction_on generalizing y with
  | primitive base value =>
    cases y with
    | primitive base' value' =>
      simp only [PList.equal, Object.equalBy_primitive, Bool.false_or] at h
      simp only [Object.all_primitive] at hy ⊢
      exact hp _ _ h hy
    | container base' kind' list' => simp [PList.equal, Object.equalBy] at h
  | container base kind list ih =>
    cases y with
    | primitive base' value' => simp [PList.equal, Object.equalBy] at h
    | container base' kind' list' =>
      simp only [PList.equal, Object.equalBy_container, Bool.false_or, Bool.and_eq_true, beq_iff_eq] at h
      obtain ⟨⟨-, -⟩, hagree⟩ := h
      have hvalid : (∀ x ∈ list, PList.isPropertyList x = true) ∧ (kind = .dictionary → list.length % 2 = 0) := by
        cases kind with
        | array => exact ⟨((isPropertyList_array _ _).mp hx).1, fun h => by cases h⟩
        | set => simp at hx
        | dictionary =>
          have h := (isPropertyList_dictionary _ _).mp hx
          exact ⟨h.1, fun _ => h.2.2.1⟩
      simp only [Object.all_container, List.all_eq_true] at hy ⊢
      intro z hz
      obtain ⟨i, hi, rfl⟩ := List.getElem_of_mem hz
      obtain ⟨j, hj⟩ := Kind.exists_of_agree hagree (by simpa using hvalid.2) (i := i) (by simpa using hi)
      simp only [List.getD_eq_getElem?_getD, List.getElem?_map, List.getElem?_eq_getElem hi, Option.map_some,
        Option.getD_some] at hj
      cases hw : list'[j]? with
      | none => simp [hw] at hj
      | some w =>
        rw [hw, Option.map_some, Option.getD_some] at hj
        exact ih _ hz (hvalid.1 _ hz) hj (hy w (List.mem_of_getElem? hw))

end CFLite
