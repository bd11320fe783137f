import Mathlib.Data.List.Dedup
import CFLite.BinaryPlist.Writer

/-!
# Reference numbers of flattened objects

What `_flattenPlist` leaves in `objlist` and `objtable`: every object that
the listed containers refer to has a reference number, and that number is an
index of it in `objlist`. An object may be listed more than once, and has the
number of its first place.

* `Flattens`: what flattening some objects does to the lists;
* `flatten_flattens`: by induction on the object;
* `flatten_root`: the top object has number 0;
* `length_objlist`: how many objects are listed.
-/

namespace CFLite.BinaryPlist

/-- The objects whose reference numbers are written for an object. -/
def writtenRefs : CFTypeRef → List CFTypeRef
  | .primitive _ _ => []
  | .container _ .set _ => []
  | .container _ _ list => list

namespace Flattened

/-- The tables agree: uniqued objects have a number, and a number is an index
of its object, as long as the indexes fit a `uint32_t`. -/
structure Ok (f : Flattened) : Prop where
  uniqued : ∀ x ∈ f.uniquingset, (f.lookup x).isSome
  numbered : f.objlist.length ≤ 2 ^ 32 → ∀ x r, f.lookup x = some r → f.objlist[r]? = some x

theorem ok_empty : Ok ⟨[], [], []⟩ := ⟨by simp, by simp [lookup]⟩

/-- Everything that `x` refers to has a number. -/
def Closed (f : Flattened) (x : CFTypeRef) : Prop := ∀ y ∈ writtenRefs x, (f.lookup y).isSome

end Flattened

open Flattened

/-- Flattening the objects `xs` takes `f` to `f'`: numbers that are given
stay, `xs` have numbers, and of the objects that are added all references have
numbers. `P` is any property that passes from a container to its
references. -/
structure Flattens (P : CFTypeRef → Prop) (xs : List CFTypeRef) (f f' : Flattened) : Prop where
  ok : f'.Ok
  kept : ∀ x r, f.lookup x = some r → f'.lookup x = some r
  listed : ∀ x ∈ xs, (f'.lookup x).isSome
  added : ∃ added, f'.objlist = f.objlist ++ added ∧ ∀ x ∈ added, f'.Closed x ∧ P x

theorem Flattened.Closed.mono {f f' : Flattened} {x : CFTypeRef} (h : f.Closed x)
    (hkept : ∀ x r, f.lookup x = some r → f'.lookup x = some r) : f'.Closed x := by
  intro y hy
  obtain ⟨r, hr⟩ := Option.isSome_iff_exists.mp (h y hy)
  rw [hkept y r hr]; rfl

theorem Flattened.lookup_append (f : Flattened) (x y : CFTypeRef) :
    (f.append x).lookup y =
      if y = x ∧ (f.lookup x).isNone then some (f.objlist.length % 2 ^ 32) else f.lookup y := by
  simp only [Flattened.append, Flattened.lookup]
  by_cases hx : (List.lookup x f.objtable).isSome
  · simp [hx, Option.isNone_iff_eq_none, Option.isSome_iff_ne_none.mp hx]
  · rw [Option.not_isSome_iff_eq_none] at hx
    by_cases hyx : y = x
    · simp [hx, hyx]
    · simp [hx, hyx, List.lookup_cons, beq_eq_false_iff_ne.mpr hyx]

/-- Listing one object. -/
theorem Flattened.Ok.append {f : Flattened} (hf : f.Ok) (x : CFTypeRef) :
    (f.append x).Ok ∧ (∀ y r, f.lookup y = some r → (f.append x).lookup y = some r) ∧
      ((f.append x).lookup x).isSome := by
  have hkept : ∀ y r, f.lookup y = some r → (f.append x).lookup y = some r := by
    intro y r h
    rw [lookup_append, if_neg, h]
    rintro ⟨rfl, hnone⟩
    simp [h] at hnone
  refine ⟨⟨fun y hy => ?_, fun hlen y r hr => ?_⟩, hkept, ?_⟩
  · obtain ⟨r, hr⟩ := Option.isSome_iff_exists.mp (hf.uniqued y hy)
    rw [hkept y r hr]; rfl
  · simp only [Flattened.append, List.length_append, List.length_singleton] at hlen ⊢
    rw [lookup_append] at hr
    split at hr
    · rename_i h
      cases hr
      rw [Nat.mod_eq_of_lt (by omega), h.1, List.getElem?_append_right (Nat.le_refl _), Nat.sub_self]
      rfl
    · have := hf.numbered (by omega) y r hr
      rw [List.getElem?_append_left (List.getElem?_eq_some_iff.mp this).1]
      exact this
  · rw [lookup_append]
    split
    · rfl
    · rename_i h
      simpa [Option.isNone_iff_eq_none, Option.isSome_iff_ne_none] using h

theorem Flattens.nil {P : CFTypeRef → Prop} {f : Flattened} (hf : f.Ok) : Flattens P [] f f :=
  ⟨hf, fun _ _ h => h, by simp, [], by simp, by simp⟩

theorem Flattens.cons {P : CFTypeRef → Prop} {x : CFTypeRef} {xs : List CFTypeRef} {f f₁ f₂ : Flattened}
    (h₁ : Flattens P [x] f f₁) (h₂ : Flattens P xs f₁ f₂) : Flattens P (x :: xs) f f₂ := by
  obtain ⟨added₁, heq₁, hadded₁⟩ := h₁.added
  obtain ⟨added₂, heq₂, hadded₂⟩ := h₂.added
  refine ⟨h₂.ok, fun y r h => h₂.kept y r (h₁.kept y r h), ?_, added₁ ++ added₂, ?_, ?_⟩
  · intro y hy
    rcases List.mem_cons.mp hy with rfl | hy
    · obtain ⟨r, hr⟩ := Option.isSome_iff_exists.mp (h₁.listed y (by simp))
      rw [h₂.kept y r hr]; rfl
    · exact h₂.listed y hy
  · rw [heq₂, heq₁, List.append_assoc]
  · intro y hy
    rcases List.mem_append.mp hy with hy | hy
    · exact ⟨(hadded₁ y hy).1.mono h₂.kept, (hadded₁ y hy).2⟩
    · exact hadded₂ y hy

section Hereditary

variable {P : CFTypeRef → Prop}

/-- An object is listed, and then the objects it refers to are flattened. -/
theorem Flattened.Ok.flattens_append {f f' : Flattened} (hf : f.Ok) {x : CFTypeRef} (hx : P x)
    (h : Flattens P (writtenRefs x) (f.append x) f') : Flattens P [x] f f' := by
  obtain ⟨-, hkept, hlisted⟩ := hf.append x
  obtain ⟨added, heq, hadded⟩ := h.added
  refine ⟨h.ok, fun y r hr => h.kept y r (hkept y r hr), ?_, x :: added, ?_, ?_⟩
  · intro y hy
    cases List.mem_singleton.mp hy
    obtain ⟨r, hr⟩ := Option.isSome_iff_exists.mp hlisted
    rw [h.kept x r hr]; rfl
  · simp [heq, Flattened.append]
  · intro y hy
    rcases List.mem_cons.mp hy with rfl | hy
    · exact ⟨h.listed, hx⟩
    · exact hadded y hy

theorem flattenList_flattens {xs : List CFTypeRef} (hall : ∀ x ∈ xs, P x)
    (ih : ∀ x ∈ xs, ∀ {f : Flattened}, f.Ok → P x → Flattens P [x] f (flatten x f)) {f : Flattened} (hf : f.Ok) :
    Flattens P xs f (flattenList xs f) := by
  induction xs generalizing f with
  | nil => simp only [flattenList]; exact Flattens.nil hf
  | cons x xs ihxs =>
    rw [List.forall_mem_cons] at hall ih
    have h₁ := ih.1 hf hall.1
    simp only [flattenList]
    exact h₁.cons (ihxs hall.2 ih.2 h₁.ok)

variable (hP : ∀ base kind list, P (.container base kind list) → ∀ x ∈ list, P x)

include hP

theorem flatten_flattens (x : CFTypeRef) {f : Flattened} (hf : f.Ok) (hx : P x) : Flattens P [x] f (flatten x f) := by
  induction x using Object.induction_on generalizing f with
  | primitive base value =>
    simp only [flatten]
    split
    · split
      · -- already in the set
        rename_i hmem
        refine ⟨hf, fun _ _ h => h, ?_, [], by simp, by simp⟩
        simpa using hf.uniqued _ (List.contains_iff_mem.mp hmem)
      · have happ := hf.append (.primitive base value)
        have h := hf.flattens_append hx (.nil happ.1)
        refine ⟨⟨fun y hy => ?_, h.ok.numbered⟩, h.kept, h.listed, h.added⟩
        rcases List.mem_cons.mp hy with rfl | hy
        · exact happ.2.2
        · exact h.ok.uniqued y hy
    · exact hf.flattens_append hx (.nil (hf.append _).1)
  | container base kind list ih =>
    have happ := (hf.append (.container base kind list)).1
    have hlist := flattenList_flattens (hP base kind list hx) (fun x hx _ hf hpx => ih x hx hf hpx) happ
    simp only [flatten]
    cases kind with
    | set => exact hf.flattens_append hx (.nil happ)
    | array => rw [if_pos (.inr rfl)]; exact hf.flattens_append hx hlist
    | dictionary => rw [if_pos (.inl rfl)]; exact hf.flattens_append hx hlist

/-- The top object is listed first. -/
theorem flatten_root (x : CFTypeRef) (hx : P x) : (flatten x ⟨[], [], []⟩).objlist[0]? = some x := by
  cases x with
  | primitive base value =>
    simp only [flatten]
    split <;> simp [Flattened.append]
  | container base kind list =>
    have happ := (ok_empty.append (.container base kind list)).1
    obtain ⟨added, heq, -⟩ := (flattenList_flattens (hP base kind list hx)
      (fun x _ _ hf hpx => flatten_flattens hP x hf hpx) happ).added
    simp only [flatten]
    split
    · rw [heq]; simp [Flattened.append]
    · simp [Flattened.append]

end Hereditary

/-! ## The number of objects -/

mutual

/-- The references that flattening an object follows, to the object itself
and from it on. -/
def visited : CFTypeRef → List CFTypeRef
  | .primitive base value => [.primitive base value]
  | .container base kind list => .container base kind list :: if kind = .set then [] else visitedList list

def visitedList : List CFTypeRef → List CFTypeRef
  | [] => []
  | x :: xs => visited x ++ visitedList xs

end

/-- Whether an object is listed only once. -/
def isListedOnce : CFTypeRef → Bool
  | .primitive _ value => isUniqued value
  | .container _ _ _ => false

/-- The number of objects that are written: one for each reference to a
container, a boolean or an archiver UID, and one for each of the other
objects. -/
def objectCount (x : CFTypeRef) : Nat :=
  (visited x).countP (fun y => !isListedOnce y) + ((visited x).filter isListedOnce).dedup.length

/-- What `_flattenPlist` does with one object, without the objects it refers
to. -/
def visit (f : Flattened) (x : CFTypeRef) : Flattened :=
  if isListedOnce x then
    if f.uniquingset.contains x then f else { f with uniquingset := x :: f.uniquingset }.append x
  else f.append x

theorem flattenList_eq_foldl_visit {xs : List CFTypeRef}
    (h : ∀ x ∈ xs, ∀ f, flatten x f = (visited x).foldl visit f) (f : Flattened) :
    flattenList xs f = (visitedList xs).foldl visit f := by
  induction xs generalizing f with
  | nil => simp only [flattenList, visitedList, List.foldl_nil]
  | cons x xs ih =>
    rw [List.forall_mem_cons] at h
    simp only [flattenList, visitedList, List.foldl_append, h.1, ih h.2]

theorem flatten_eq_foldl_visit (x : CFTypeRef) (f : Flattened) : flatten x f = (visited x).foldl visit f := by
  induction x using Object.induction_on generalizing f with
  | primitive base value =>
    simp only [flatten, visited, List.foldl_cons, List.foldl_nil, visit, isListedOnce]
    rfl
  | container base kind list ih =>
    have hlist := flattenList_eq_foldl_visit ih
    have hvisit : visit f (.container base kind list) = f.append (.container base kind list) := rfl
    simp only [flatten, visited, List.foldl_cons, hvisit]
    cases kind with
    | set => simp
    | array => simp [hlist]
    | dictionary => simp [hlist]

/-- What listing some objects does to the numbers of listed and uniqued
objects. -/
theorem foldl_visit_length (xs : List CFTypeRef) {f : Flattened} (hf : f.uniquingset.Nodup) :
    let f' := xs.foldl visit f
    f'.uniquingset.Nodup ∧
      (∀ x, x ∈ f'.uniquingset ↔ x ∈ f.uniquingset ∨ (x ∈ xs ∧ isListedOnce x = true)) ∧
      f'.objlist.length + f.uniquingset.length =
        f.objlist.length + xs.countP (fun x => !isListedOnce x) + f'.uniquingset.length := by
  induction xs generalizing f with
  | nil => simp [hf]
  | cons x xs ih =>
    simp only [List.foldl_cons, visit]
    split
    · rename_i honce
      split
      · rename_i hmem
        rw [List.contains_iff_mem] at hmem
        obtain ⟨hnodup, hiff, hlen⟩ := ih hf
        refine ⟨hnodup, fun y => ?_, by simpa [honce] using hlen⟩
        rw [hiff, List.mem_cons]
        grind
      · rename_i hmem
        rw [List.contains_iff_mem] at hmem
        obtain ⟨hnodup, hiff, hlen⟩ := ih (f := { f with uniquingset := x :: f.uniquingset }.append x)
          (List.nodup_cons.mpr ⟨hmem, hf⟩)
        simp only [Flattened.append, List.length_append, List.length_cons, List.length_nil] at hlen
        refine ⟨hnodup, fun y => ?_, ?_⟩
        · rw [hiff]
          simp only [Flattened.append, List.mem_cons]
          grind
        · simp only [Flattened.append, List.countP_cons, honce, Bool.not_true, Bool.false_eq_true, if_false]
          omega
    · rename_i honce
      obtain ⟨hnodup, hiff, hlen⟩ := ih (f := f.append x) hf
      simp only [Flattened.append, List.length_append, List.length_cons, List.length_nil] at hlen
      refine ⟨hnodup, fun y => ?_, ?_⟩
      · rw [hiff]
        simp only [Flattened.append, List.mem_cons]
        grind
      · simp only [Flattened.append, List.countP_cons, honce, Bool.not_false, if_true]
        omega

/-- The number of listed objects. -/
theorem length_objlist (x : CFTypeRef) : (flatten x ⟨[], [], []⟩).objlist.length = objectCount x := by
  obtain ⟨hnodup, hiff, hlen⟩ := foldl_visit_length (visited x) (f := ⟨[], [], []⟩) List.nodup_nil
  rw [flatten_eq_foldl_visit, objectCount]
  have hperm : ((visited x).foldl visit ⟨[], [], []⟩).uniquingset.Perm ((visited x).filter isListedOnce).dedup := by
    rw [List.perm_ext_iff_of_nodup hnodup (List.nodup_dedup _)]
    intro y
    rw [hiff, List.mem_dedup, List.mem_filter]
    simp
  rw [← hperm.length_eq]
  simpa using hlen

end CFLite.BinaryPlist
