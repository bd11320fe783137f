import Mathlib.Data.Finset.Insert
import CFLite.Framework.PathSearch

/-!
# Validating property lists

`CFPropertyListIsValid`. The objects are the nodes of a finite graph, a heap
that gives each node its type and its references; a reference may be `NULL`,
and containers may share objects and contain themselves.

The recursion goes through two callbacks, `CFArrayApplyFunction` and
`CFDictionaryApplyFunction` call them for each element also after a failure.
The set of the containers on the current path and the error are the state. A
dictionary is the list of its entries in the order of the enumeration.

Only a non-container has its type tested before the path, and `CFGetTypeID`
reads its argument: a `NULL` key stops the process before the answer is no.

* `IsPropertyListGraph`: what the answer should be;
* `NullKeyFirst`: going down from a node and through its elements in order, a
  `NULL` key is met before anything that makes the answer no;
* `isValid_decides_iff`: every graph is decided rightly unless `NullKeyFirst`.
-/

namespace CFLite.PropertyListValidation

open CFLite.Framework Relation

/-! ## Objects -/

/-- The types that `initStatics` knows or that matter here, and all others by
the name of their class. -/
inductive CFTypeID where
  | string
  | data
  | boolean
  | number
  | date
  | keyedArchiverUID
  | array
  | dictionary
  | other (className : String)
  deriving DecidableEq, Repr

/-- `CFCopyTypeIDDescription` -/
def CFTypeID.description : CFTypeID → String
  | .string => "CFString"
  | .data => "CFData"
  | .boolean => "CFBoolean"
  | .number => "CFNumber"
  | .date => "CFDate"
  | .keyedArchiverUID => "CFKeyedArchiverUID"
  | .array => "CFArray"
  | .dictionary => "CFDictionary"
  | .other className => className

/-- `CFPropertyListFormat` -/
inductive CFPropertyListFormat where
  | openStep
  | xml
  | binary
  deriving DecidableEq, Repr

/-- An object: the references of a container, and otherwise only a type. -/
inductive Cell (ι : Type) where
  | leaf (type : CFTypeID) (h : type ≠ .array ∧ type ≠ .dictionary)
  | array (values : List (Option ι))
  | dictionary (entries : List (Option ι × Option ι))

namespace Cell

variable {ι : Type}

def type : Cell ι → CFTypeID
  | leaf type _ => type
  | array _ => .array
  | dictionary _ => .dictionary

/-- The values of an array, `NULL` elsewhere. -/
def values : Cell ι → List (Option ι)
  | array values => values
  | _ => []

def entries : Cell ι → List (Option ι × Option ι)
  | dictionary entries => entries
  | _ => []

end Cell

/-! ## The code -/

/-- The path down to the object and the error. -/
structure State (ι : Type) where
  set : Finset ι
  error : Option String

abbrev Validate (ι : Type) := Run Empty (State ι)

section

variable {ι : Type} [DecidableEq ι]

/-- `*error = …` -/
def setError (message : String) : Validate ι Unit := Run.modify fun s => { s with error := some message }

/-- `if (c && !*(ctx->error)) *(ctx->error) = …` -/
def noteError (c : Prop) [Decidable c] (message : String) : Validate ι Unit := do
  let s ← Run.get
  if c ∧ s.error.isNone then setError message

/-- `CFSetAddValue` -/
def addValue (x : ι) : Validate ι Unit := Run.modify fun s => { s with set := insert x s.set }

/-- `CFSetRemoveValue` -/
def removeValue (x : ι) : Validate ι Unit := Run.modify fun s => { s with set := s.set.erase x }

/-- `CFGetTypeID`, which reads the object. -/
def getTypeID (heap : ι → Cell ι) : Option ι → Validate ι CFTypeID
  | none => Run.halt
  | some x => return (heap x).type

/-- `__CFPropertyListIsArrayPlistAux`, from the answer so far to the new one. -/
def isArrayPlistAux (isValidAux : Option ι → Validate ι Bool) (answer : Bool) (value : Option ι) :
    Validate ι Bool := do
  if !answer then return answer
  noteError (value = none) "property list arrays cannot contain NULL"
  if value = none then return false
  isValidAux value

/-- `__CFPropertyListIsDictPlistAux` -/
def isDictPlistAux (heap : ι → Cell ι) (isValidAux : Option ι → Validate ι Bool) (answer : Bool)
    (entry : Option ι × Option ι) : Validate ι Bool := do
  let (key, value) := entry
  if !answer then return answer
  noteError (key = none) "property list dictionaries cannot contain NULL keys"
  noteError (value = none) "property list dictionaries cannot contain NULL values"
  let keyType ← getTypeID heap key
  noteError (keyType ≠ .string)
    ("property list dictionaries may only have keys which are CFStrings, not '" ++ keyType.description ++ "'")
  if key = none ∨ value = none ∨ keyType ≠ .string then return false
  isValidAux value

/-- `__CFPropertyListIsValidAux`, on a bound on its depth. -/
def isValidAux (heap : ι → Cell ι) (format : CFPropertyListFormat) (recursive : Bool) :
    Nat → Option ι → Validate ι Bool
  | 0, _ => Run.outOfFuel
  | _ + 1, none => do
    setError "property lists cannot contain NULL"
    return false
  | n + 1, some plist => do
    let type := (heap plist).type
    if type = .string then return true
    if type = .data then return true
    if format ≠ .openStep then
      if type = .boolean then return true
      if type = .number then return true
      if type = .date then return true
      if type = .keyedArchiverUID then return true
    if !recursive ∧ type = .array then return true
    if !recursive ∧ type = .dictionary then return true
    -- at any one invocation of this function, set should contain the objects in the "path" down to this object
    if plist ∈ (← Run.get).set then
      setError "property lists cannot contain recursive container references"
      return false
    if type = .array then
      addValue plist
      let answer ← (heap plist).values.foldlM (isArrayPlistAux (isValidAux heap format true n)) true
      removeValue plist
      return answer
    if type = .dictionary then
      addValue plist
      let answer ← (heap plist).entries.foldlM (isDictPlistAux heap (isValidAux heap format true n)) true
      removeValue plist
      return answer
    setError ("property lists cannot contain objects of type '" ++ type.description ++ "'")
    return false

example (heap : ι → Cell ι) (plist : ι) (h : (heap plist).type = .string) :
    isValidAux heap .xml true 1 (some plist) = pure true := by
  simp [isValidAux, h]

/-- `CFPropertyListIsValid` up to the release of the set and the error. -/
def isValid (heap : ι → Cell ι) (format : CFPropertyListFormat) (n : Nat) (plist : Option ι) :
    Outcome Empty (Bool × State ι) :=
  isValidAux heap format true n plist ⟨∅, none⟩

end

/-! ## Property lists -/

section

variable {ι : Type} (heap : ι → Cell ι) (format : CFPropertyListFormat)

/-- `y` is an element or a value of the container `x`. -/
def Contains (x y : ι) : Prop := some y ∈ (heap x).values ∨ ∃ key, (key, some y) ∈ (heap x).entries

/-- The types allowed in a format: the old style has no numbers, booleans,
dates and UIDs. -/
def Allowed : CFTypeID → Prop
  | .string | .data | .array | .dictionary => True
  | .boolean | .number | .date | .keyedArchiverUID => format ≠ .openStep
  | .other _ => False

instance : DecidablePred (Allowed format)
  | .string | .data | .array | .dictionary => .isTrue trivial
  | .boolean | .number | .date | .keyedArchiverUID => inferInstanceAs (Decidable (format ≠ .openStep))
  | .other _ => .isFalse id

/-- A key is a string, and not `NULL`. -/
def IsKey (key : Option ι) : Prop := ∃ x, key = some x ∧ (heap x).type = .string

/-- What an object must satisfy by itself. -/
structure WellFormed (x : ι) : Prop where
  allowed : Allowed format (heap x).type
  values : none ∉ (heap x).values
  entries : ∀ entry ∈ (heap x).entries, IsKey heap entry.1 ∧ entry.2 ≠ none

/-- What `CFPropertyListIsValid` has to decide: all objects reached from the
root are well-formed and no chain of containers returns to its start. -/
def IsPropertyListGraph (root : Option ι) : Prop :=
  ∃ x, root = some x ∧
    ∀ y, ReflTransGen (Contains heap) x y → WellFormed heap format y ∧ ¬ TransGen (Contains heap) y y

/-- A reference to a property list that does not meet the path. -/
def IsElement (path : Set ι) (value : Option ι) : Prop :=
  ∃ y, value = some y ∧ Clear (Contains heap) (WellFormed heap format) path y

def IsEntry (path : Set ι) (entry : Option ι × Option ι) : Prop :=
  IsKey heap entry.1 ∧ IsElement heap format path entry.2

/-- Below `x`, the first thing that is wrong is a `NULL` key. -/
inductive NullKeyFirst : Set ι → ι → Prop where
  | key {path : Set ι} {x : ι} {before after : List (Option ι × Option ι)} {value : Option ι} (hx : x ∉ path)
      (hentries : (heap x).entries = before ++ (none, value) :: after)
      (hbefore : ∀ entry ∈ before, IsEntry heap format (insert x path) entry) : NullKeyFirst path x
  | entry {path : Set ι} {x y : ι} {before after : List (Option ι × Option ι)} {key : Option ι} (hx : x ∉ path)
      (hentries : (heap x).entries = before ++ (key, some y) :: after)
      (hbefore : ∀ entry ∈ before, IsEntry heap format (insert x path) entry) (hkey : IsKey heap key)
      (hy : NullKeyFirst (insert x path) y) : NullKeyFirst path x
  | element {path : Set ι} {x y : ι} {before after : List (Option ι)} (hx : x ∉ path)
      (hvalues : (heap x).values = before ++ some y :: after)
      (hbefore : ∀ value ∈ before, IsElement heap format (insert x path) value)
      (hy : NullKeyFirst (insert x path) y) : NullKeyFirst path x

end

/-! ## The conditions, one level down -/

section

variable {ι : Type} {heap : ι → Cell ι} {format : CFPropertyListFormat} {path : Set ι} {x : ι}

theorem isPropertyListGraph_some :
    IsPropertyListGraph heap format (some x) ↔ Clear (Contains heap) (WellFormed heap format) ∅ x := by
  simp only [IsPropertyListGraph, Option.some.injEq, exists_eq_left', clear_empty]

theorem clear_leaf {type : CFTypeID} {h} (hcell : heap x = .leaf type h) (hx : x ∉ path) :
    Clear (Contains heap) (WellFormed heap format) path x ↔ Allowed format type := by
  rw [clear_iff]
  constructor
  · rintro ⟨-, hgood, -⟩
    simpa only [hcell, Cell.type] using hgood.allowed
  · intro hallowed
    refine ⟨hx, ⟨?_, ?_, ?_⟩, fun y hy => ?_⟩
    · simpa only [hcell, Cell.type] using hallowed
    · simp [hcell, Cell.values]
    · simp [hcell, Cell.entries]
    · simp [Contains, hcell, Cell.values, Cell.entries] at hy

theorem clear_array {values : List (Option ι)} (hcell : heap x = .array values) (hx : x ∉ path) :
    Clear (Contains heap) (WellFormed heap format) path x ↔
      ∀ value ∈ values, IsElement heap format (insert x path) value := by
  have hcontains : ∀ y, Contains heap x y ↔ some y ∈ values := fun y => by
    simp [Contains, hcell, Cell.values, Cell.entries]
  rw [clear_iff]
  constructor
  · rintro ⟨-, hgood, hchildren⟩ value hvalue
    cases value with
    | none => exact absurd (by simpa only [hcell, Cell.values] using hvalue) hgood.values
    | some y => exact ⟨y, rfl, hchildren y ((hcontains y).mpr hvalue)⟩
  · intro h
    refine ⟨hx, ⟨?_, ?_, ?_⟩, fun y hy => ?_⟩
    · simp [hcell, Cell.type, Allowed]
    · simp only [hcell, Cell.values]
      intro hnone
      obtain ⟨y, hy, -⟩ := h none hnone
      cases hy
    · simp [hcell, Cell.entries]
    · obtain ⟨y', hy', hclear⟩ := h (some y) ((hcontains y).mp hy)
      cases hy'
      exact hclear

theorem clear_dictionary {entries : List (Option ι × Option ι)} (hcell : heap x = .dictionary entries)
    (hx : x ∉ path) :
    Clear (Contains heap) (WellFormed heap format) path x ↔
      ∀ entry ∈ entries, IsEntry heap format (insert x path) entry := by
  have hcontains : ∀ y, Contains heap x y ↔ ∃ key, (key, some y) ∈ entries := fun y => by
    simp [Contains, hcell, Cell.values, Cell.entries]
  rw [clear_iff]
  constructor
  · rintro ⟨-, hgood, hchildren⟩ ⟨key, value⟩ hentry
    have hentry' := hgood.entries (key, value) (by simpa only [hcell, Cell.entries] using hentry)
    cases value with
    | none => exact absurd rfl hentry'.2
    | some y => exact ⟨hentry'.1, y, rfl, hchildren y ((hcontains y).mpr ⟨key, hentry⟩)⟩
  · intro h
    refine ⟨hx, ⟨?_, ?_, ?_⟩, fun y hy => ?_⟩
    · simp [hcell, Cell.type, Allowed]
    · simp [hcell, Cell.values]
    · simp only [hcell, Cell.entries]
      intro entry hentry
      obtain ⟨hkey, y, hy, -⟩ := h entry hentry
      exact ⟨hkey, by simp [hy]⟩
    · obtain ⟨key, hentry⟩ := (hcontains y).mp hy
      obtain ⟨-, y', hy', hclear⟩ := h _ hentry
      cases hy'
      exact hclear

theorem nullKeyFirst_not_mem (h : NullKeyFirst heap format path x) : x ∉ path := by
  cases h <;> assumption

/-- Without `NULL` keys there is none to be met. -/
theorem not_nullKeyFirst (hkeys : ∀ x, ∀ entry ∈ (heap x).entries, entry.1 ≠ none) :
    ¬ NullKeyFirst heap format path x := by
  intro h
  induction h with
  | key _ hentries _ => exact hkeys _ _ (hentries ▸ List.mem_append_cons_self) rfl
  | entry _ _ _ _ _ ih => exact ih
  | element _ _ _ _ ih => exact ih

theorem not_nullKeyFirst_leaf {type : CFTypeID} {h} (hcell : heap x = .leaf type h) :
    ¬ NullKeyFirst heap format path x := by
  rintro (⟨-, hentries, -⟩ | ⟨-, hentries, -, -, -⟩ | ⟨-, hvalues, -, -⟩)
  · simp [hcell, Cell.entries] at hentries
  · simp [hcell, Cell.entries] at hentries
  · simp [hcell, Cell.values] at hvalues

theorem nullKeyFirst_array {values : List (Option ι)} (hcell : heap x = .array values) (hx : x ∉ path) :
    NullKeyFirst heap format path x ↔
      ∃ before value after, values = before ++ value :: after ∧
        (∀ value ∈ before, IsElement heap format (insert x path) value) ∧
        ∃ y, value = some y ∧ NullKeyFirst heap format (insert x path) y := by
  constructor
  · rintro (⟨-, hentries, -⟩ | ⟨-, hentries, -, -, -⟩ | ⟨-, hvalues, hbefore, hy⟩)
    · simp [hcell, Cell.entries] at hentries
    · simp [hcell, Cell.entries] at hentries
    · exact ⟨_, _, _, by simpa only [hcell, Cell.values] using hvalues, hbefore, _, rfl, hy⟩
  · rintro ⟨before, value, after, hvalues, hbefore, y, rfl, hy⟩
    exact .element hx (by simpa only [hcell, Cell.values] using hvalues) hbefore hy

theorem nullKeyFirst_dictionary {entries : List (Option ι × Option ι)} (hcell : heap x = .dictionary entries)
    (hx : x ∉ path) :
    NullKeyFirst heap format path x ↔
      ∃ before entry after, entries = before ++ entry :: after ∧
        (∀ entry ∈ before, IsEntry heap format (insert x path) entry) ∧
        (entry.1 = none ∨
          IsKey heap entry.1 ∧ ∃ y, entry.2 = some y ∧ NullKeyFirst heap format (insert x path) y) := by
  constructor
  · rintro (⟨-, hentries, hbefore⟩ | ⟨-, hentries, hbefore, hkey, hy⟩ | ⟨-, hvalues, -, -⟩)
    · exact ⟨_, _, _, by simpa only [hcell, Cell.entries] using hentries, hbefore, .inl rfl⟩
    · exact ⟨_, _, _, by simpa only [hcell, Cell.entries] using hentries, hbefore, .inr ⟨hkey, _, rfl, hy⟩⟩
    · simp [hcell, Cell.values] at hvalues
  · rintro ⟨before, ⟨key, value⟩, after, hentries, hbefore, rfl | ⟨hkey, y, rfl, hy⟩⟩
    · exact .key hx (by simpa only [hcell, Cell.entries] using hentries) hbefore
    · exact .entry hx (by simpa only [hcell, Cell.entries] using hentries) hbefore hkey hy

end

/-! ## The callbacks -/

/-- The state after a failure below a path. -/
def Failed {ι : Type} (set : Finset ι) (s : State ι) : Prop := s.set = set ∧ s.error ≠ none

section

variable {ι : Type} {set : Finset ι} {aux : Option ι → Validate ι Bool} {valid fatal : ι → Prop}

theorem isArrayPlistAux_false (value : Option ι) (s : State ι) :
    (isArrayPlistAux aux false value s).result = .ok (false, s) := rfl

theorem isDictPlistAux_false (heap : ι → Cell ι) (entry : Option ι × Option ι) (s : State ι) :
    (isDictPlistAux heap aux false entry s).result = .ok (false, s) := rfl

theorem isArrayPlistAux_decides {value : Option ι}
    (haux : ∀ y, value = some y → Decides (aux (some y)) ⟨set, none⟩ (Failed set) (valid y) (fatal y)) :
    Decides (isArrayPlistAux aux true value) ⟨set, none⟩ (Failed set) (∃ y, value = some y ∧ valid y)
      (∃ y, value = some y ∧ fatal y) := by
  cases value with
  | none =>
    refine ⟨by simp, by simp, fun _ _ => ⟨⟨set, some "property list arrays cannot contain NULL"⟩, rfl, rfl, nofun⟩⟩
  | some y =>
    exact ((haux y rfl).congr (by simp) (by simp)).of_eq (by simp [isArrayPlistAux, noteError])

theorem isDictPlistAux_decides (heap : ι → Cell ι) {entry : Option ι × Option ι}
    (haux : ∀ y, entry.2 = some y → Decides (aux (some y)) ⟨set, none⟩ (Failed set) (valid y) (fatal y)) :
    Decides (isDictPlistAux heap aux true entry) ⟨set, none⟩ (Failed set)
      (IsKey heap entry.1 ∧ ∃ y, entry.2 = some y ∧ valid y)
      (entry.1 = none ∨ IsKey heap entry.1 ∧ ∃ y, entry.2 = some y ∧ fatal y) := by
  obtain ⟨key, value⟩ := entry
  cases key with
  | none =>
    refine ⟨?_, fun _ => ?_, ?_⟩
    · rintro ⟨⟨x, hx, -⟩, -⟩
      cases hx
    · cases value <;> rfl
    · intro _ h
      exact absurd (.inl rfl) h
  | some x =>
    by_cases htype : (heap x).type = .string
    · have hkey : IsKey heap (some x) := ⟨x, rfl, htype⟩
      cases value with
      | none =>
        refine ⟨by simp, by simp, fun _ _ =>
          ⟨⟨set, some "property list dictionaries cannot contain NULL values"⟩, ?_, rfl, nofun⟩⟩
        simp [isDictPlistAux, noteError, getTypeID, htype, setError]
      | some y =>
        exact ((haux y rfl).congr (by simp [hkey]) (by simp [hkey])).of_eq
          (by simp [isDictPlistAux, noteError, getTypeID, htype])
    · have hkey : ¬ IsKey heap (some x) := by
        rintro ⟨y, hy, hstring⟩
        cases hy
        exact htype hstring
      refine ⟨by simp [hkey], by simp [hkey], fun _ _ => ?_⟩
      cases value with
      | none =>
        refine ⟨⟨set, some "property list dictionaries cannot contain NULL values"⟩, ?_, rfl, nofun⟩
        simp [isDictPlistAux, noteError, getTypeID, htype, setError]
      | some y =>
        refine ⟨⟨set, some ("property list dictionaries may only have keys which are CFStrings, not '" ++
          (heap x).type.description ++ "'")⟩, ?_, rfl, nofun⟩
        simp [isDictPlistAux, noteError, getTypeID, htype, setError]

end

/-! ## The recursion -/

section

variable {ι : Type} [DecidableEq ι] {heap : ι → Cell ι} {format : CFPropertyListFormat} {set : Finset ι}

/-- A container is on the path while its elements are visited. -/
theorem onPath_decides {x : ι} {loop : Validate ι Bool} {valid fatal : Prop} (hx : x ∉ set)
    (h : Decides loop ⟨insert x set, none⟩ (Failed (insert x set)) valid fatal) :
    Decides (do addValue x; let answer ← loop; removeValue x; return answer) ⟨set, none⟩ (Failed set) valid
      fatal := by
  have hrun : ((do addValue x; let answer ← loop; removeValue x; return answer : Validate ι Bool) ⟨set, none⟩) =
      (loop ⟨insert x set, none⟩).andThen fun p => ⟨[], .ok (p.1, { p.2 with set := p.2.set.erase x })⟩ := by
    simp only [addValue, removeValue, Run.modify_bind]
    rfl
  refine ⟨fun hvalid => ?_, fun hfatal => ?_, fun hvalid hfatal => ?_⟩
  · rw [hrun, Outcome.andThen_of_ok (h.accepts hvalid)]
    simp only [Finset.erase_insert hx]
  · rw [hrun, Outcome.andThen_of_error (h.halts hfatal)]
  · obtain ⟨s', hs', hset, herror⟩ := h.rejects hvalid hfatal
    refine ⟨{ s' with set := s'.set.erase x }, ?_, ?_, herror⟩
    · rw [hrun, Outcome.andThen_of_ok hs']
    · simp only [hset, Finset.erase_insert hx]

theorem isValidAux_leaf (format : CFPropertyListFormat) {x : ι} {type : CFTypeID} {h}
    (hcell : heap x = .leaf type h) (hx : x ∉ set) (n : Nat) :
    (isValidAux heap format true (n + 1) (some x) ⟨set, none⟩).result =
      if Allowed format type then .ok (true, ⟨set, none⟩)
      else .ok (false, ⟨set, some ("property lists cannot contain objects of type '" ++ type.description ++ "'")⟩) := by
  have htype : (heap x).type = type := by rw [hcell]; rfl
  obtain ⟨harray, hdictionary⟩ := h
  by_cases hformat : format = .openStep <;> cases type
  all_goals first
    | exact absurd rfl harray
    | exact absurd rfl hdictionary
    | simp [isValidAux, htype, hformat, hx, Allowed, setError]

theorem isValidAux_onPath {x : ι} (hcell : (heap x).type = .array ∨ (heap x).type = .dictionary) (hx : x ∈ set)
    (n : Nat) :
    (isValidAux heap format true (n + 1) (some x) ⟨set, none⟩).result =
      .ok (false, ⟨set, some "property lists cannot contain recursive container references"⟩) := by
  rcases hcell with htype | htype <;> simp [isValidAux, htype, hx, setError]

theorem isValidAux_array {x : ι} {values : List (Option ι)} (hcell : heap x = .array values) (hx : x ∉ set) (n : Nat) :
    isValidAux heap format true (n + 1) (some x) ⟨set, none⟩ =
      (do
        addValue x
        let answer ← values.foldlM (isArrayPlistAux (isValidAux heap format true n)) true
        removeValue x
        return answer : Validate ι Bool) ⟨set, none⟩ := by
  have htype : (heap x).type = .array := by rw [hcell]; rfl
  have hvalues : (heap x).values = values := by rw [hcell]; rfl
  simp [isValidAux, htype, hvalues, hx]

theorem isValidAux_dictionary {x : ι} {entries : List (Option ι × Option ι)} (hcell : heap x = .dictionary entries)
    (hx : x ∉ set) (n : Nat) :
    isValidAux heap format true (n + 1) (some x) ⟨set, none⟩ =
      (do
        addValue x
        let answer ← entries.foldlM (isDictPlistAux heap (isValidAux heap format true n)) true
        removeValue x
        return answer : Validate ι Bool) ⟨set, none⟩ := by
  have htype : (heap x).type = .dictionary := by rw [hcell]; rfl
  have hentries : (heap x).entries = entries := by rw [hcell]; rfl
  simp [isValidAux, htype, hentries, hx]

/-- With a bound that exceeds a measure of what is left below the path, which
holds only containers, the recursion ends and leaves the path as it was. -/
theorem isValidAux_decides (heap : ι → Cell ι) (format : CFPropertyListFormat) (left : Finset ι → ι → Nat)
    (hleft : ∀ set x y, x ∉ set → Contains heap x y → left (insert x set) y < left set x) {n : Nat} {x : ι}
    (hn : left set x < n) (hset : ∀ y ∈ set, (heap y).type = .array ∨ (heap y).type = .dictionary) :
    Decides (isValidAux heap format true n (some x)) ⟨set, none⟩ (Failed set)
      (Clear (Contains heap) (WellFormed heap format) set x) (NullKeyFirst heap format set x) := by
  induction n generalizing set x with
  | zero => exact absurd hn (Nat.not_lt_zero _)
  | succ n ih =>
    by_cases hx : x ∈ set
    · refine ⟨fun h => absurd hx h.not_mem, fun h => absurd hx (nullKeyFirst_not_mem h), fun _ _ => ?_⟩
      exact ⟨_, isValidAux_onPath (hset x hx) hx n, rfl, nofun⟩
    · -- below a container the path is longer and still holds only containers
      have hbelow (hcontainer : (heap x).type = .array ∨ (heap x).type = .dictionary) (y : ι)
          (hy : Contains heap x y) :
          Decides (isValidAux heap format true n (some y)) ⟨insert x set, none⟩ (Failed (insert x set))
            (Clear (Contains heap) (WellFormed heap format) (insert x set) y)
            (NullKeyFirst heap format (insert x set) y) := by
        rw [← Finset.coe_insert]
        refine ih (Nat.lt_of_lt_of_le (hleft set x y hx hy) (Nat.lt_succ_iff.mp hn)) fun z hz => ?_
        rcases Finset.mem_insert.mp hz with rfl | hz
        · exact hcontainer
        · exact hset z hz
      cases hcell : heap x with
      | leaf type h =>
        have hrun := isValidAux_leaf format hcell hx n
        refine ⟨fun hclear => ?_, fun hfatal => absurd hfatal (not_nullKeyFirst_leaf hcell), fun hclear _ => ?_⟩
        · rw [hrun, if_pos ((clear_leaf hcell hx).mp hclear)]
        · rw [hrun, if_neg fun hallowed => hclear ((clear_leaf hcell hx).mpr hallowed)]
          exact ⟨_, rfl, rfl, nofun⟩
      | array values =>
        have hloop := Decides.foldlM isArrayPlistAux_false fun value (hvalue : value ∈ values) =>
          isArrayPlistAux_decides fun y hy =>
            hbelow (.inl (by rw [hcell]; rfl)) y (.inl (by rw [hcell]; exact hy ▸ hvalue))
        exact ((onPath_decides hx hloop).congr (clear_array hcell hx).symm
          (nullKeyFirst_array hcell hx).symm).of_eq (isValidAux_array hcell hx n)
      | dictionary entries =>
        have hloop := Decides.foldlM (isDictPlistAux_false heap) fun entry (hentry : entry ∈ entries) =>
          isDictPlistAux_decides heap fun y hy =>
            hbelow (.inr (by rw [hcell]; rfl)) y (.inr ⟨entry.1, by rw [hcell]; exact hy ▸ hentry⟩)
        exact ((onPath_decides hx hloop).congr (clear_dictionary hcell hx).symm
          (nullKeyFirst_dictionary hcell hx).symm).of_eq (isValidAux_dictionary hcell hx n)

/-- A root that is an object is decided rightly unless a `NULL` key is the first
thing that is wrong below it, and the process stops there. -/
theorem isValid_some (heap : ι → Cell ι) (format : CFPropertyListFormat) (left : Finset ι → ι → Nat)
    (hleft : ∀ set x y, x ∉ set → Contains heap x y → left (insert x set) y < left set x) {n : Nat} {x : ι}
    (hn : left ∅ x < n) :
    Decides (isValidAux heap format true n (some x)) ⟨∅, none⟩ (Failed ∅) (IsPropertyListGraph heap format (some x))
      (NullKeyFirst heap format ∅ x) :=
  (isValidAux_decides heap format left hleft hn nofun).congr
    (by rw [Finset.coe_empty, isPropertyListGraph_some]) (by rw [Finset.coe_empty])

/-! ## The answer -/

/-- The answer comes, it is right, and the path set is empty again. -/
def DecidesGraph (heap : ι → Cell ι) (format : CFPropertyListFormat) (n : Nat) (root : Option ι) : Prop :=
  ∃ answer error, (isValid heap format n root).result = .ok (answer, ⟨∅, error⟩) ∧
    (answer = true ↔ IsPropertyListGraph heap format root)

/-- Every graph is decided rightly unless a `NULL` key is the first thing that
is wrong below its root. -/
theorem isValid_decides_iff [Fintype ι] (heap : ι → Cell ι) (format : CFPropertyListFormat) (n : Nat)
    (hn : Fintype.card ι < n) (root : Option ι) :
    DecidesGraph heap format n root ↔ ∀ x, root = some x → ¬ NullKeyFirst heap format ∅ x := by
  cases root with
  | none =>
    obtain ⟨n, rfl⟩ := Nat.exists_eq_succ_of_ne_zero (Nat.ne_zero_of_lt hn)
    refine iff_of_true ⟨false, some "property lists cannot contain NULL", rfl, ?_⟩ nofun
    simp [IsPropertyListGraph]
  | some x =>
    -- each object on the path leaves fewer
    have h := isValid_some (x := x) heap format (fun set _ => setᶜ.card) (fun _ _ _ hx _ => card_compl_insert_lt hx)
      (by simpa only [Finset.compl_empty, Finset.card_univ] using hn)
    constructor
    · rintro ⟨answer, error, hanswer, -⟩ y ⟨⟩ hfatal
      rw [isValid, h.halts hfatal] at hanswer
      cases hanswer
    · intro hfatal
      by_cases hvalid : IsPropertyListGraph heap format (some x)
      · exact ⟨true, none, h.accepts hvalid, iff_of_true rfl hvalid⟩
      · obtain ⟨⟨set, error⟩, hs, rfl, -⟩ := h.rejects hvalid (hfatal x rfl)
        exact ⟨false, error, hs, iff_of_false Bool.false_ne_true hvalid⟩

/-- Two references to one dictionary. -/
def sharedDictionary : Fin 3 → Cell (Fin 3)
  | 0 => .array [some 1, some 1]
  | 1 => .dictionary [(some 2, some 2)]
  | 2 => .leaf .string (by decide)

theorem isValid_decides_shared : DecidesGraph sharedDictionary .xml 4 (some 0) :=
  (isValid_decides_iff sharedDictionary .xml 4 (by decide) (some 0)).mpr
    fun _ _ => not_nullKeyFirst (by decide)

/-- A dictionary with a `NULL` key and a string. -/
def nullKey : Fin 2 → Cell (Fin 2)
  | 0 => .dictionary [(none, some 1)]
  | 1 => .leaf .string (by decide)

theorem isValid_null_key : ¬ ∃ n, DecidesGraph nullKey .binary n (some 0) := by
  rintro ⟨_ | _ | n, answer, error, h, -⟩ <;> cases h

end

end CFLite.PropertyListValidation
