import CFLite.PropertyList.NumberCopy
import CFLite.PropertyList.ObjectGraph

/-!
# Deep copies

`CFPropertyListCreateDeepCopy` with `_arrayDeepImmutableCopy` and
`_arrayDeepMutableCopy`. A new object gets the next unused address, which is
the state; `NULL` is no result. The copies of the references of a container
are a list of actions, which each container runs in its own order. References
that are given up on the way to `NULL` are not counted here.

Every call validates its argument again, and only the binary format's UIDs
pass without a branch that copies them.
-/

namespace CFLite.DeepCopy

open PropertyListValidation Relation

/-! ## The code -/

/-- What may be retained in place of a copy: an immutable string that has the
allocator of the copy and owns its characters. -/
abbrev Retains := CFTypeRef → Bool

/-- A function that returns an object or `NULL`, with the next address. -/
abbrev Copy := StateT Nat Option

/-- The runtime base of a new object. -/
def allocate (mutable : Bool) : Copy CFRuntimeBase := fun next => some (⟨next, mutable⟩, next + 1)

def newPrimitive (mutable : Bool) (value : Primitive) : Copy CFTypeRef := do
  return .primitive (← allocate mutable) value

/-- `CFStringCreateCopy`; it is called on strings only. -/
def stringCreateCopy (retains : Retains) (str : CFTypeRef) : Copy CFTypeRef :=
  match str with
  | .primitive base (.string chars) =>
    if !base.mutable && retains str then return str else newPrimitive false (.string chars)
  | _ => failure

/-- `CFDictionarySetValue`: the value of an equal key is replaced. -/
def setValue {α : Type} (equal : α → α → Bool) (entries : List (α × α)) (entry : α × α) : List (α × α) :=
  if entries.any fun e => equal e.1 entry.1 then
    entries.map fun e => if equal e.1 entry.1 then (e.1, entry.2) else e
  else entries ++ [entry]

/-- A dictionary of the copies, filled with `CFDictionarySetValue` if it is
mutable, and made by `CFDictionaryCreate` if not. -/
def newDictionary (isMutable : Bool) (entries : List (CFTypeRef × CFTypeRef)) : Copy CFTypeRef := do
  let base ← allocate isMutable
  let entries := if isMutable then entries.foldl (setValue CFEqual) []
    else entries.foldl (addValue fun a b => CFEqual a.1 b.1) []
  return .container base .dictionary (entries.map Prod.fst ++ entries.map Prod.snd)

/-- An entry, given its key and the copy of its value. -/
def copyEntry (retains : Retains) (entry : CFTypeRef × Copy CFTypeRef) : Copy (CFTypeRef × CFTypeRef) := do
  let newKey ← stringCreateCopy retains entry.1
  let newValue ← entry.2
  return (newKey, newValue)

/-- The branch for dictionaries, given the keys and the copies of the values.
An empty one comes out the same as in the branch of its own. -/
def copyDictionary (retains : Retains) (isMutable : Bool) (keys : List CFTypeRef) (values : List (Copy CFTypeRef)) :
    Copy CFTypeRef := do
  newDictionary isMutable (← (keys.zip values).mapM (copyEntry retains))

/-- `_arrayDeepImmutableCopy`, given the copies of the values. -/
def arrayDeepImmutableCopy (values : List (Copy CFTypeRef)) : Copy CFTypeRef := do
  let list ← values.mapM id
  return .container (← allocate false) .array list

/-- `_arrayDeepMutableCopy` -/
def arrayDeepMutableCopy (values : List (Copy CFTypeRef)) : Copy CFTypeRef := do
  let base ← allocate true
  let list ← values.mapM id
  return .container base .array list

/-- The branches for objects without references. -/
def copyPrimitive (retains : Retains) (mutabilityOption : Mutability) (base : CFRuntimeBase) :
    Primitive → Copy CFTypeRef
  | .data bytes => newPrimitive (mutabilityOption = .mutableContainersAndLeaves) (.data bytes)
  | .number number => newPrimitive false (.number number.copy)
  | .boolean value => return .primitive base (.boolean value)
  | .date time => newPrimitive false (.date time)
  | .string chars =>
    if mutabilityOption = .mutableContainersAndLeaves then newPrimitive true (.string chars)
    else stringCreateCopy retains (.primitive base (.string chars))
  | .uid _ => failure
  | .null => failure

mutual

/-- `CFPropertyListCreateDeepCopy` -/
def createDeepCopy (retains : Retains) (mutabilityOption : Mutability) : CFTypeRef → Copy CFTypeRef
  | .primitive base value =>
    if !isValidObject (.primitive base value) .binary then failure
    else copyPrimitive retains mutabilityOption base value
  | .container base kind list =>
    if !isValidObject (.container base kind list) .binary then failure
    else
      let copies := createDeepCopies retains mutabilityOption list
      let count := list.length / 2
      match kind with
      | .dictionary =>
        copyDictionary retains (mutabilityOption ≠ .immutable) (list.take count) (copies.drop count)
      | .array =>
        if mutabilityOption = .immutable then arrayDeepImmutableCopy copies else arrayDeepMutableCopy copies
      | .set => failure

/-- The copies of references. -/
def createDeepCopies (retains : Retains) (mutabilityOption : Mutability) :
    List CFTypeRef → List (Copy CFTypeRef)
  | [] => []
  | x :: xs => createDeepCopy retains mutabilityOption x :: createDeepCopies retains mutabilityOption xs

end

example (retains : Retains) (base : CFRuntimeBase) :
    createDeepCopies retains .immutable [.container base .set []] = [failure] := by
  simp [createDeepCopies, createDeepCopy]

@[simp] theorem createDeepCopies_eq_map (retains : Retains) (option : Mutability) (list : List CFTypeRef) :
    createDeepCopies retains option list = list.map (createDeepCopy retains option) := by
  induction list with
  | nil => simp only [createDeepCopies, List.map_nil]
  | cons x xs ih => simp only [createDeepCopies, ih, List.map_cons]

/-! ## Sequences of copies -/

section mapM

variable {α β : Type} {f : α → Copy β} {list : List α}

theorem bind_apply (x : Copy α) (f : α → Copy β) (next : Nat) :
    (x >>= f) next = (x next).bind fun p => f p.1 p.2 := rfl

@[simp] theorem pure_apply (a : α) (next : Nat) : (pure a : Copy α) next = some (a, next) := rfl

@[simp] theorem failure_apply (next : Nat) : (failure : Copy α) next = none := rfl

/-- A property of each result, from the address it was made at on. -/
theorem mapM_copy {R : Nat → α → β → Prop} (hR : ∀ {n m a b}, n ≤ m → R m a b → R n a b)
    (h : ∀ a ∈ list, ∀ next, ∃ b next', f a next = some (b, next') ∧ next ≤ next' ∧ R next a b) (next : Nat) :
    ∃ bs next', list.mapM f next = some (bs, next') ∧ next ≤ next' ∧ List.Forall₂ (R next) list bs := by
  induction list generalizing next with
  | nil => exact ⟨[], next, rfl, le_rfl, .nil⟩
  | cons a list ih =>
    obtain ⟨b, next₁, hb, hle, hRb⟩ := h a List.mem_cons_self next
    obtain ⟨bs, next₂, hbs, hle', hRbs⟩ := ih (fun c hc => h c (List.mem_cons_of_mem a hc)) next₁
    refine ⟨b :: bs, next₂, ?_, hle.trans hle', .cons hRb (hRbs.imp fun _ _ => hR hle)⟩
    simp only [List.mapM_cons, bind_apply, hb, Option.bind_some, hbs, pure_apply]

/-- One reference that is not copied is enough for `NULL`. -/
theorem mapM_none (h : ∃ a ∈ list, ∀ next, f a next = none) (next : Nat) : list.mapM f next = none := by
  induction list generalizing next with
  | nil => simp at h
  | cons a list ih =>
    rw [List.mapM_cons]
    cases ha : f a next with
    | none => simp only [bind_apply, ha, Option.bind_none]
    | some p =>
      have hrest : list.mapM f p.2 = none := by
        refine ih ?_ p.2
        obtain ⟨c, hc, hnone⟩ := h
        rcases List.mem_cons.mp hc with rfl | hc
        · rw [hnone] at ha
          cases ha
        · exact ⟨c, hc, hnone⟩
      simp only [bind_apply, ha, Option.bind_some, hrest, Option.bind_none]

theorem map_eq_of_forall₂ {γ : Type} {R : α → β → Prop} {g : α → γ} {k : β → γ} (hR : ∀ a b, R a b → k b = g a)
    {bs : List β} (h : List.Forall₂ R list bs) : bs.map k = list.map g := by
  induction h with
  | nil => rfl
  | cons hab _ ih => simp only [List.map_cons, hR _ _ hab, ih]

theorem exists_of_forall₂ {R : α → β → Prop} {bs : List β} (h : List.Forall₂ R list bs) {b : β} (hb : b ∈ bs) :
    ∃ a ∈ list, R a b := by
  induction h with
  | nil => cases hb
  | cons hab _ ih =>
    rcases List.mem_cons.mp hb with rfl | hb
    · exact ⟨_, List.mem_cons_self, hab⟩
    · obtain ⟨a, ha, hR⟩ := ih hb
      exact ⟨a, List.mem_cons_of_mem _ ha, hR⟩

end mapM

/-! ## What a copy is -/

/-- The value of a copy of an object without references. -/
def copied : Primitive → Primitive
  | .number number => .number number.copy
  | value => value

/-- The objects that can be changed in place are containers, strings and
data. -/
def isMutable : CFTypeRef → Bool
  | .container base _ _ => base.mutable
  | .primitive base (.string _) => base.mutable
  | .primitive base (.data _) => base.mutable
  | .primitive _ _ => false

/-- A string or a data. -/
def isLeaf : CFTypeRef → Bool
  | .primitive _ (.string _) => true
  | .primitive _ (.data _) => true
  | _ => false

/-- `y` is a copy of `x` made of the addresses from `next` on. -/
structure IsCopy (option : Mutability) (next : Nat) (x y : CFTypeRef) : Prop where
  erase : y.erase = x.erase.map copied
  containers : ∀ z ∈ y.subobjects, z.isPrimitive = false →
    next ≤ z.base.address ∧ z.base.mutable = decide (option ≠ .immutable)
  fresh : ∀ z ∈ y.subobjects, isMutable z = true → next ≤ z.base.address
  leaves : option = .mutableContainersAndLeaves → ∀ z, ReflTransGen (Contains cell) y z → isLeaf z = true →
    isMutable z = true

theorem IsCopy.mono {option : Mutability} {n m : Nat} {x y : CFTypeRef} (hle : n ≤ m) (h : IsCopy option m x y) :
    IsCopy option n x y where
  erase := h.erase
  containers z hz hc := ⟨hle.trans (h.containers z hz hc).1, (h.containers z hz hc).2⟩
  fresh z hz hm := hle.trans (h.fresh z hz hm)
  leaves := h.leaves

/-- What copying an object without references gives. -/
theorem IsCopy.of_primitive {option : Mutability} {next : Nat} {base base' : CFRuntimeBase} (value : Primitive)
    (hfresh : isMutable (.primitive base' (copied value)) = true → next ≤ base'.address)
    (hleaf : option = .mutableContainersAndLeaves → isLeaf (.primitive base' (copied value)) = true →
      isMutable (.primitive base' (copied value)) = true) :
    IsCopy option next (.primitive base value) (.primitive base' (copied value)) where
  erase := by simp
  containers z hz hc := by
    rw [Object.subobjects_primitive, List.mem_singleton] at hz
    subst hz
    cases hc
  fresh z hz hm := by
    rw [Object.subobjects_primitive, List.mem_singleton] at hz
    subst hz
    exact hfresh hm
  leaves hoption z hz hl := by
    rcases hz.cases_head with rfl | ⟨w, hw, -⟩
    · exact hleaf hoption hl
    · obtain ⟨b, k, l, hcontainer, -⟩ := contains_mem hw
      cases hcontainer

/-! ## Primitives -/

section Copies

variable {retains : Retains} {option : Mutability}

/-- A key, or a string that stays immutable. -/
theorem stringCreateCopy_spec (retains : Retains) (base : CFRuntimeBase) (chars : List UInt16) (next : Nat) :
    ∃ base' next', stringCreateCopy retains (.primitive base (.string chars)) next =
      some (.primitive base' (.string chars), next') ∧ next ≤ next' ∧ base'.mutable = false := by
  simp only [stringCreateCopy]
  by_cases h : (!base.mutable && retains (.primitive base (.string chars))) = true
  · rw [if_pos h]
    exact ⟨base, next, rfl, le_rfl, by simpa using (Bool.and_eq_true_iff.mp h).1⟩
  · rw [if_neg h]
    exact ⟨⟨next, false⟩, next + 1, rfl, Nat.le_succ next, rfl⟩

theorem copyPrimitive_spec (base : CFRuntimeBase) {value : Primitive} (hnull : value ≠ .null)
    (huid : ∀ uid, value ≠ .uid uid) (next : Nat) :
    ∃ y next', copyPrimitive retains option base value next = some (y, next') ∧ next ≤ next' ∧
      IsCopy option next (.primitive base value) y := by
  cases value with
  | null => exact absurd rfl hnull
  | uid uid => exact absurd rfl (huid uid)
  | boolean value => exact ⟨_, next, rfl, le_rfl, .of_primitive (.boolean value) nofun nofun⟩
  | number number => exact ⟨_, next + 1, rfl, Nat.le_succ next, .of_primitive (.number number) nofun nofun⟩
  | date time => exact ⟨_, next + 1, rfl, Nat.le_succ next, .of_primitive (.date time) nofun nofun⟩
  | data bytes =>
    refine ⟨_, next + 1, rfl, Nat.le_succ next, .of_primitive (.data bytes) (fun _ => le_rfl) fun h _ => ?_⟩
    simp [isMutable, copied, h]
  | string chars =>
    simp only [copyPrimitive]
    by_cases h : option = .mutableContainersAndLeaves
    · rw [if_pos h]
      exact ⟨_, next + 1, rfl, Nat.le_succ next,
        .of_primitive (.string chars) (fun _ => le_rfl) fun _ _ => rfl⟩
    · rw [if_neg h]
      obtain ⟨base', next', hcopy, hle, himmutable⟩ := stringCreateCopy_spec retains base chars next
      refine ⟨_, next', hcopy, hle, .of_primitive (.string chars) (fun hm => ?_) fun hoption => absurd hoption h⟩
      simp [copied, isMutable, himmutable] at hm

/-! ## Containers -/

/-- A container of copies and of keys. -/
theorem IsCopy.of_container {next : Nat} {base base' : CFRuntimeBase} {kind : Kind} {list ys : List CFTypeRef}
    (hnew : next ≤ base'.address) (hmutable : base'.mutable = decide (option ≠ .immutable))
    (herase : ys.map Object.erase = list.map fun x => x.erase.map copied)
    (hys : ∀ y ∈ ys, (∃ x, IsCopy option next x y) ∨
      ∃ b chars, y = .primitive b (.string chars) ∧ b.mutable = false)
    (hvalues : ∀ y, Contains cell (.container base' kind ys) y → ∃ x, IsCopy option next x y) :
    IsCopy option next (.container base kind list) (.container base' kind ys) where
  erase := by simp only [Object.erase_container, Object.map_container, herase, List.map_map, Function.comp_def]
  containers := by
    refine Object.forall_subobjects_container.mpr ⟨fun _ => ⟨hnew, hmutable⟩, fun y hy => ?_⟩
    rcases hys y hy with ⟨x, hx⟩ | ⟨b, chars, rfl, -⟩
    · exact hx.containers
    · simp [Object.isPrimitive]
  fresh := by
    refine Object.forall_subobjects_container.mpr ⟨fun _ => hnew, fun y hy => ?_⟩
    rcases hys y hy with ⟨x, hx⟩ | ⟨b, chars, rfl, hb⟩
    · exact hx.fresh
    · simp [isMutable, hb]
  leaves hoption z hz hl := by
    rcases hz.cases_head with rfl | ⟨y, hy, hz⟩
    · cases hl
    · obtain ⟨x, hx⟩ := hvalues y hy
      exact hx.leaves hoption z hz hl

variable {list : List CFTypeRef}

/-- Each reference of an array has a copy. -/
theorem mapM_createDeepCopy (h : ∀ x ∈ list, ∀ next, ∃ y next', createDeepCopy retains option x next = some (y, next') ∧
      next ≤ next' ∧ IsCopy option next x y) (next : Nat) :
    ∃ ys next', (createDeepCopies retains option list).mapM id next = some (ys, next') ∧ next ≤ next' ∧
      List.Forall₂ (IsCopy option next) list ys := by
  rw [createDeepCopies_eq_map, List.mapM_map]
  exact mapM_copy (fun hle hcopy => hcopy.mono hle) h next

theorem array_spec (base : CFRuntimeBase) (h : ∀ x ∈ list, ∀ next, ∃ y next',
      createDeepCopy retains option x next = some (y, next') ∧ next ≤ next' ∧ IsCopy option next x y) (next : Nat) :
    ∃ y next', (if option = .immutable then arrayDeepImmutableCopy (createDeepCopies retains option list)
        else arrayDeepMutableCopy (createDeepCopies retains option list)) next = some (y, next') ∧ next ≤ next' ∧
      IsCopy option next (.container base .array list) y := by
  have hcopy {base' : CFRuntimeBase} {next₁ : Nat} {ys : List CFTypeRef} (hle : next ≤ next₁)
      (hys : List.Forall₂ (IsCopy option next₁) list ys) (hnew : next ≤ base'.address)
      (hmutable : base'.mutable = decide (option ≠ .immutable)) :
      IsCopy option next (.container base .array list) (.container base' .array ys) := by
    have hof : ∀ y ∈ ys, ∃ x, IsCopy option next x y := fun y hy => by
      obtain ⟨x, -, hx⟩ := exists_of_forall₂ hys hy
      exact ⟨x, hx.mono hle⟩
    refine .of_container hnew hmutable ?_ (fun y hy => .inl (hof y hy)) fun y hy => ?_
    · exact map_eq_of_forall₂ (fun _ _ hcopy => hcopy.erase) hys
    · obtain ⟨b, k, l, hcontainer, hmem⟩ := contains_mem hy
      cases hcontainer
      exact hof y hmem
  by_cases himmutable : option = .immutable
  · obtain ⟨ys, next', hrun, hle, hys⟩ := mapM_createDeepCopy h next
    rw [if_pos himmutable]
    refine ⟨.container ⟨next', false⟩ .array ys, next' + 1, ?_, hle.trans (Nat.le_succ _),
      hcopy le_rfl hys hle (by simp [himmutable])⟩
    simp only [arrayDeepImmutableCopy, bind_apply, hrun, Option.bind_some, allocate, pure_apply]
  · obtain ⟨ys, next', hrun, hle, hys⟩ := mapM_createDeepCopy h (next + 1)
    rw [if_neg himmutable]
    refine ⟨.container ⟨next, true⟩ .array ys, next', ?_, (Nat.le_succ _).trans hle,
      hcopy (Nat.le_succ next) hys le_rfl (by simp [himmutable])⟩
    simp only [arrayDeepMutableCopy, bind_apply, allocate, Option.bind_some, hrun, pure_apply]

/-- A key and its copy. -/
def IsKeyCopy (x y : CFTypeRef) : Prop :=
  ∃ base base' chars, x = .primitive base (.string chars) ∧ y = .primitive base' (.string chars) ∧
    base'.mutable = false

theorem IsKeyCopy.erase {x y : CFTypeRef} (h : IsKeyCopy x y) : y.erase = x.erase := by
  obtain ⟨_, _, chars, rfl, rfl, -⟩ := h
  simp

theorem IsKeyCopy.erase_copied {x y : CFTypeRef} (h : IsKeyCopy x y) : y.erase = x.erase.map copied := by
  obtain ⟨_, _, chars, rfl, rfl, -⟩ := h
  simp [copied]

/-- Copies of keys with different characters are not equal. -/
theorem CFEqual_keys {x y x' y' : CFTypeRef} (hx : IsKeyCopy x x') (hy : IsKeyCopy y y') (h : x.erase ≠ y.erase) :
    CFEqual x' y' = false := by
  obtain ⟨_, b, chars, rfl, rfl, -⟩ := hx
  obtain ⟨_, b', chars', rfl, rfl, -⟩ := hy
  have hchars : chars ≠ chars' := by
    rintro rfl
    simp at h
  simp [CFEqual, Primitive.cfEqual, hchars]

theorem foldl_setValue_of_pairwise {α : Type} {equal : α → α → Bool} {entries before : List (α × α)}
    (h : (before ++ entries).Pairwise fun a b => equal a.1 b.1 = false) :
    entries.foldl (setValue equal) before = before ++ entries := by
  induction entries generalizing before with
  | nil => simp
  | cons e entries ih =>
    have hany : before.any (fun a => equal a.1 e.1) = false :=
      List.any_eq_false.mpr fun a ha => by
        rw [(List.pairwise_append.mp h).2.2 a ha e List.mem_cons_self]
        exact Bool.false_ne_true
    rw [List.foldl_cons, setValue, hany, if_neg Bool.false_ne_true, ih (by simpa using h)]
    simp

/-- A dictionary of entries with different keys holds them all. -/
theorem newDictionary_eq (isMutable : Bool) {entries : List (CFTypeRef × CFTypeRef)}
    (h : entries.Pairwise fun a b => CFEqual a.1 b.1 = false) (next : Nat) :
    newDictionary isMutable entries next =
      some (.container ⟨next, isMutable⟩ .dictionary (entries.map Prod.fst ++ entries.map Prod.snd), next + 1) := by
  have hset : entries.foldl (setValue CFEqual) [] = entries := foldl_setValue_of_pairwise h
  have hadd : entries.foldl (addValue fun a b => CFEqual a.1 b.1) [] = entries := foldl_addValue_of_pairwise h
  cases isMutable <;> simp [newDictionary, bind_apply, allocate, hset, hadd]

def IsEntryCopy (option : Mutability) (next : Nat) (entry copy : CFTypeRef × CFTypeRef) : Prop :=
  IsKeyCopy entry.1 copy.1 ∧ IsCopy option next entry.2 copy.2

variable {keys values : List CFTypeRef}

/-- The copies of the entries of a dictionary. -/
theorem entries_spec (hkeys : ∀ key ∈ keys, ∃ base chars, key = .primitive base (.string chars))
    (h : ∀ x ∈ values, ∀ next, ∃ y next', createDeepCopy retains option x next = some (y, next') ∧
      next ≤ next' ∧ IsCopy option next x y) (next : Nat) :
    ∃ entries next', (keys.zip (createDeepCopies retains option values)).mapM (copyEntry retains) next =
      some (entries, next') ∧ next ≤ next' ∧ List.Forall₂ (IsEntryCopy option next) (keys.zip values) entries := by
  rw [createDeepCopies_eq_map, List.zip_map_right, List.mapM_map]
  refine mapM_copy (fun hle hcopy => ⟨hcopy.1, hcopy.2.mono hle⟩) ?_ next
  rintro ⟨key, value⟩ hmem next
  obtain ⟨hkey, hvalue⟩ := List.of_mem_zip hmem
  obtain ⟨base, chars, rfl⟩ := hkeys key hkey
  obtain ⟨base', next₁, hnewKey, hle₁, himmutable⟩ := stringCreateCopy_spec retains base chars next
  obtain ⟨y, next₂, hnewValue, hle₂, hcopy⟩ := h value hvalue next₁
  refine ⟨(_, y), next₂, ?_, hle₁.trans hle₂, ⟨base, base', chars, rfl, rfl, himmutable⟩, hcopy.mono hle₁⟩
  change copyEntry retains (.primitive base (.string chars), createDeepCopy retains option value) next = _
  simp only [copyEntry, bind_apply, hnewKey, Option.bind_some, hnewValue, pure_apply]

variable {entries : List (CFTypeRef × CFTypeRef)}

/-- The keys of the copies differ as the keys do. -/
theorem pairwise_copies {next : Nat} {originals : List (CFTypeRef × CFTypeRef)}
    (h : List.Forall₂ (IsEntryCopy option next) originals entries)
    (hdistinct : (originals.map fun e => e.1.erase).Nodup) : entries.Pairwise fun a b => CFEqual a.1 b.1 = false := by
  induction h with
  | nil => exact .nil
  | @cons e e' originals entries he hrest ih =>
    obtain ⟨hhead, htail⟩ := List.nodup_cons.mp hdistinct
    refine .cons (fun b hb => ?_) (ih htail)
    obtain ⟨a, ha, hab⟩ := exists_of_forall₂ hrest hb
    exact CFEqual_keys he.1 hab.1 fun heq => hhead (List.mem_map.mpr ⟨a, ha, heq.symm⟩)

theorem isCopy_dictionary {next : Nat} (base base' : CFRuntimeBase) (hlength : keys.length = values.length)
    (h : List.Forall₂ (IsEntryCopy option next) (keys.zip values) entries) (hnew : next ≤ base'.address)
    (hmutable : base'.mutable = decide (option ≠ .immutable)) :
    IsCopy option next (.container base .dictionary (keys ++ values))
      (.container base' .dictionary (entries.map Prod.fst ++ entries.map Prod.snd)) := by
  have hvalue : ∀ y ∈ entries.map Prod.snd, ∃ x, IsCopy option next x y := by
    intro y hy
    obtain ⟨e, he, rfl⟩ := List.mem_map.mp hy
    obtain ⟨a, -, ha⟩ := exists_of_forall₂ h he
    exact ⟨a.2, ha.2⟩
  have hkey : ∀ y ∈ entries.map Prod.fst, ∃ x, IsKeyCopy x y := by
    intro y hy
    obtain ⟨e, he, rfl⟩ := List.mem_map.mp hy
    obtain ⟨a, -, ha⟩ := exists_of_forall₂ h he
    exact ⟨a.1, ha.1⟩
  refine .of_container hnew hmutable ?_ (fun y hy => ?_) fun y hy => ?_
  · -- keys to keys and values to values
    have hfst : entries.map (fun e => e.1.erase) = (keys.zip values).map fun e => e.1.erase.map copied :=
      map_eq_of_forall₂ (fun _ _ he => he.1.erase_copied) h
    have hsnd : entries.map (fun e => e.2.erase) = (keys.zip values).map fun e => e.2.erase.map copied :=
      map_eq_of_forall₂ (fun _ _ he => he.2.erase) h
    have hkeys : (keys.zip values).map Prod.fst = keys := List.map_fst_zip hlength.le
    have hvalues : (keys.zip values).map Prod.snd = values := List.map_snd_zip hlength.ge
    rw [List.map_append, List.map_map, List.map_map, List.map_append]
    refine congrArg₂ _ (hfst.trans ?_) (hsnd.trans ?_)
    · conv_rhs => rw [← hkeys, List.map_map]
      rfl
    · conv_rhs => rw [← hvalues, List.map_map]
      rfl
  · rcases List.mem_append.mp hy with hy | hy
    · obtain ⟨x, _, b, chars, -, rfl, hb⟩ := hkey y hy
      exact .inr ⟨b, chars, rfl, hb⟩
    · exact .inl (hvalue y hy)
  · refine hvalue y ?_
    have hhalf : (entries.map Prod.fst ++ entries.map Prod.snd).length / 2 = (entries.map Prod.fst).length := by
      simp only [List.length_append, List.length_map]
      omega
    have hmem := contains_dictionary hy
    rwa [hhalf, List.drop_left] at hmem

theorem dictionary_spec (base : CFRuntimeBase) (hlength : keys.length = values.length)
    (hkeys : ∀ key ∈ keys, ∃ base chars, key = .primitive base (.string chars))
    (hdistinct : (keys.map Object.erase).Nodup)
    (h : ∀ x ∈ values, ∀ next, ∃ y next', createDeepCopy retains option x next = some (y, next') ∧ next ≤ next' ∧
      IsCopy option next x y) (next : Nat) :
    ∃ y next', copyDictionary retains (decide (option ≠ .immutable)) keys (createDeepCopies retains option values)
        next = some (y, next') ∧ next ≤ next' ∧ IsCopy option next (.container base .dictionary (keys ++ values)) y := by
  obtain ⟨entries, next', hrun, hle, hentries⟩ := entries_spec hkeys h next
  have horiginals : ((keys.zip values).map fun e => e.1.erase) = keys.map Object.erase := by
    conv_rhs => rw [← List.map_fst_zip hlength.le, List.map_map]
    rfl
  have hpairwise := pairwise_copies hentries (horiginals ▸ hdistinct)
  refine ⟨_, next' + 1, ?_, hle.trans (Nat.le_succ next'),
    isCopy_dictionary base ⟨next', decide (option ≠ .immutable)⟩ hlength hentries hle rfl⟩
  simp only [copyDictionary, bind_apply, hrun, Option.bind_some]
  exact newDictionary_eq _ hpairwise next'

/-! ## The recursion -/

/-- A dictionary holds as many values as keys, and no two keys are equal. -/
def IsDictionary (list : List CFTypeRef) : Prop :=
  list.length % 2 = 0 ∧ ((list.take (list.length / 2)).map Object.erase).Nodup

/-- All dictionaries in an object are dictionaries. -/
def HasDictionaries (x : CFTypeRef) : Prop :=
  ∀ z ∈ x.subobjects, ∀ base list, z = .container base .dictionary list → IsDictionary list

def isUID : Primitive → Bool
  | .uid _ => true
  | _ => false

theorem HasDictionaries.mem {base : CFRuntimeBase} {kind : Kind} (h : HasDictionaries (.container base kind list))
    {x : CFTypeRef} (hx : x ∈ list) : HasDictionaries x :=
  (Object.forall_subobjects_container.mp h).2 x hx

theorem createDeepCopy_invalid {x : CFTypeRef} (h : ¬ AllWellFormed .binary x) (next : Nat) :
    createDeepCopy retains option x next = none := by
  have hinvalid : isValidObject x .binary = false := Bool.eq_false_iff.mpr fun hvalid => h (isValidObject_iff.mp hvalid)
  cases x with
  | primitive base value => rw [createDeepCopy, hinvalid]; rfl
  | container base kind list => rw [createDeepCopy, hinvalid]; rfl

theorem createDeepCopy_array {base : CFRuntimeBase} (h : AllWellFormed .binary (.container base .array list)) :
    createDeepCopy retains option (.container base .array list) =
      if option = .immutable then arrayDeepImmutableCopy (createDeepCopies retains option list)
      else arrayDeepMutableCopy (createDeepCopies retains option list) := by
  rw [createDeepCopy, isValidObject_iff.mpr h]
  rfl

theorem createDeepCopy_dictionary {base : CFRuntimeBase} (hlength : keys.length = values.length)
    (h : AllWellFormed .binary (.container base .dictionary (keys ++ values))) :
    createDeepCopy retains option (.container base .dictionary (keys ++ values)) =
      copyDictionary retains (decide (option ≠ .immutable)) keys (createDeepCopies retains option values) := by
  have hhalf : (keys ++ values).length / 2 = keys.length := by
    rw [List.length_append]
    omega
  rw [createDeepCopy, isValidObject_iff.mpr h]
  simp only [Bool.not_true, Bool.false_eq_true, if_false, createDeepCopies_eq_map, hhalf, List.take_left,
    ← List.map_drop, List.drop_left]

/-- The keys and the values of a dictionary. -/
theorem IsDictionary.split {list : List CFTypeRef} (h : IsDictionary list) :
    ∃ keys values, list = keys ++ values ∧ keys.length = values.length ∧ (keys.map Object.erase).Nodup := by
  refine ⟨list.take (list.length / 2), list.drop (list.length / 2), (List.take_append_drop _ list).symm, ?_, h.2⟩
  have heven := h.1
  rw [List.length_take, List.length_drop]
  omega

theorem createDeepCopy_spec {x : CFTypeRef} (hvalid : AllWellFormed .binary x) (hdict : HasDictionaries x)
    (huid : x.all (fun value => !isUID value) = true) (next : Nat) :
    ∃ y next', createDeepCopy retains option x next = some (y, next') ∧ next ≤ next' ∧ IsCopy option next x y := by
  induction x using Object.induction_on generalizing next with
  | primitive base value =>
    rw [createDeepCopy, isValidObject_iff.mpr hvalid]
    refine copyPrimitive_spec base ?_ ?_ next
    · rintro rfl
      exact not_allWellFormed_null base hvalid
    · rintro uid rfl
      simp [isUID] at huid
  | container base kind list ih =>
    rw [Object.all_container, List.all_eq_true] at huid
    cases kind with
    | set => exact absurd hvalid (not_allWellFormed_set base list)
    | array =>
      rw [createDeepCopy_array hvalid]
      exact array_spec base (fun x hx next => ih x hx (hvalid.element hx) (hdict.mem hx) (huid x hx) next) next
    | dictionary =>
      obtain ⟨keys, values, rfl, hlength, hdistinct⟩ := (hdict _ (Object.self_mem_subobjects _) base list rfl).split
      rw [createDeepCopy_dictionary hlength hvalid]
      refine dictionary_spec base hlength (fun key hkey => hvalid.key hlength hkey) hdistinct (fun x hx next => ?_) next
      have hmem : x ∈ keys ++ values := List.mem_append_right keys hx
      exact ih x hmem (hvalid.value hlength hx) (hdict.mem hmem) (huid x hmem) next

/-- A UID anywhere in the list, and the copy is `NULL`. -/
theorem createDeepCopy_none {x : CFTypeRef} (hdict : HasDictionaries x)
    (huid : x.all (fun value => !isUID value) = false) (next : Nat) : createDeepCopy retains option x next = none := by
  by_cases hvalid : AllWellFormed .binary x
  case neg => exact createDeepCopy_invalid hvalid next
  induction x using Object.induction_on generalizing next with
  | primitive base value =>
    rw [createDeepCopy, isValidObject_iff.mpr hvalid]
    cases value <;> first | rfl | simp [isUID] at huid
  | container base kind list ih =>
    rw [Object.all_container, List.all_eq_false] at huid
    obtain ⟨x, hx, hxuid⟩ := huid
    rw [Bool.not_eq_true] at hxuid
    cases kind with
    | set => exact absurd hvalid (not_allWellFormed_set base list)
    | array =>
      have hnone : ∀ next, (createDeepCopies retains option list).mapM id next = none := by
        rw [createDeepCopies_eq_map]
        exact mapM_none ⟨_, List.mem_map_of_mem hx, fun next => ih x hx (hdict.mem hx) hxuid next (hvalid.element hx)⟩
      rw [createDeepCopy_array hvalid]
      by_cases himmutable : option = .immutable
      · simp only [if_pos himmutable, arrayDeepImmutableCopy, bind_apply, hnone, Option.bind_none]
      · simp only [if_neg himmutable, arrayDeepMutableCopy, bind_apply, allocate, Option.bind_some, hnone,
          Option.bind_none]
    | dictionary =>
      obtain ⟨keys, values, rfl, hlength, -⟩ := (hdict _ (Object.self_mem_subobjects _) base list rfl).split
      -- the keys are strings, so the UID is below a value
      have hvalue : x ∈ values := by
        refine (List.mem_append.mp hx).resolve_left fun hkey => ?_
        obtain ⟨b, chars, rfl⟩ := hvalid.key hlength hkey
        simp [isUID] at hxuid
      rw [← List.map_snd_zip hlength.ge] at hvalue
      obtain ⟨e, he, rfl⟩ := List.mem_map.mp hvalue
      have hentry (next : Nat) : copyEntry retains (e.1, createDeepCopy retains option e.2) next = none := by
        have hnone := fun next => ih e.2 hx (hdict.mem hx) hxuid next
          (hvalid.value hlength (List.of_mem_zip he).2)
        rw [copyEntry, bind_apply]
        cases stringCreateCopy retains e.1 next with
        | none => rfl
        | some p => simp only [Option.bind_some, bind_apply, hnone, Option.bind_none]
      have hmem : (e.1, createDeepCopy retains option e.2) ∈ keys.zip (createDeepCopies retains option values) := by
        rw [createDeepCopies_eq_map, List.zip_map_right]
        exact List.mem_map.mpr ⟨e, he, rfl⟩
      rw [createDeepCopy_dictionary hlength hvalid, copyDictionary, bind_apply, mapM_none ⟨_, hmem, hentry⟩,
        Option.bind_none]

/-! ## Equality -/

/-- An object with its primitives changed is equal to it when they are. -/
theorem equalBy_map {identical : PList → PList → Bool} {value : Primitive → Primitive → Bool}
    {g : Primitive → Primitive} {x : PList} (h : x.all (fun p => value (g p) p) = true) :
    Object.equalBy identical value (x.map g) x = true := by
  induction x using Object.induction_on with
  | primitive base p =>
    rw [Object.all_primitive] at h
    simp [h]
  | container base kind list ih =>
    simp only [Object.all_container, List.all_eq_true] at h
    rw [Object.map_container, Object.equalBy_container, Kind.agree_of_diagonal]
    · simp
    · intro i hi
      simp only [List.length_map] at hi
      simpa [hi] using ih list[i] (List.getElem_mem hi) (h _ (List.getElem_mem hi))

/-- A value that its copy equals. -/
def isCopyable : Primitive → Bool
  | .number number => number.isCopyable
  | _ => true

theorem equal_copied {value : Primitive} (h : isCopyable value = true) : (copied value).equal value = true := by
  cases value with
  | number number => exact CFNumber.copy_equal h
  | _ => simp [copied]

theorem cfEqual_copied {value : Primitive} (hcopyable : isCopyable value = true) (h : value.byValue = true) :
    (copied value).cfEqual value = true := by
  cases value with
  | number number => exact CFNumber.copy_equal hcopyable
  | _ => exact h

theorem byValue_copied {value : Primitive} (h : value.byValue = true) : (copied value).byValue = true := by
  cases value with
  | number number => exact CFNumber.equal_refl _
  | _ => exact h

theorem IsCopy.equal {next : Nat} {x y : CFTypeRef} (h : IsCopy option next x y) (hcopyable : x.all isCopyable = true) :
    PList.equal y.erase x.erase = true := by
  rw [h.erase]
  refine equalBy_map ?_
  rw [Object.all_erase]
  exact Object.all_mono (fun value hvalue => equal_copied hvalue) hcopyable

theorem IsCopy.cfEqual {next : Nat} {x y : CFTypeRef} (h : IsCopy option next x y) (hcopyable : x.all isCopyable = true)
    (hvalue : x.all Primitive.byValue = true) : CFEqual y x = true := by
  have hy : y.all Primitive.byValue = true := by
    rw [← Object.all_erase, h.erase, Object.all_map_eq, Object.all_erase]
    exact Object.all_mono (fun value hvalue => byValue_copied hvalue) hvalue
  rw [CFEqual_eq_cfEqual x hy, h.erase]
  refine equalBy_map ?_
  rw [Object.all_erase]
  exact Object.all_mono₂ (fun value => cfEqual_copied) hcopyable hvalue

/-! ## Changes -/

mutual

/-- What a reference shows after the object at an address has become another
one. -/
def replaceAt (address : Nat) (new : CFTypeRef) : CFTypeRef → CFTypeRef
  | .primitive base value => if base.address = address then new else .primitive base value
  | .container base kind list =>
    if base.address = address then new else .container base kind (replaceAtList address new list)

def replaceAtList (address : Nat) (new : CFTypeRef) : List CFTypeRef → List CFTypeRef
  | [] => []
  | x :: xs => replaceAt address new x :: replaceAtList address new xs

end

example (new x : CFTypeRef) (h : x.base.address = 1) :
    replaceAt 1 new (.container ⟨2, true⟩ .array [x]) = .container ⟨2, true⟩ .array [new] := by
  cases x <;> simp_all [replaceAt, replaceAtList, Object.base]

theorem replaceAtList_eq_map (address : Nat) (new : CFTypeRef) (list : List CFTypeRef) :
    replaceAtList address new list = list.map (replaceAt address new) := by
  induction list with
  | nil => simp only [replaceAtList, List.map_nil]
  | cons x xs ih => simp only [replaceAtList, ih, List.map_cons]

/-- Nothing changes in an object that is not made of the one that changes. -/
theorem replaceAt_eq_self {address : Nat} (new : CFTypeRef) {x : CFTypeRef}
    (h : ∀ z ∈ x.subobjects, z.base.address ≠ address) : replaceAt address new x = x := by
  induction x using Object.induction_on with
  | primitive base value =>
    have hself : base.address ≠ address := h _ (Object.self_mem_subobjects _)
    rw [replaceAt, if_neg hself]
  | container base kind list ih =>
    have hself : base.address ≠ address := h _ (Object.self_mem_subobjects _)
    have hlist := (Object.forall_subobjects_container.mp h).2
    rw [replaceAt, if_neg hself, replaceAtList_eq_map, List.map_congr_left fun x hx => ih x hx (hlist x hx),
      List.map_id']

/-! ## Deep copies are faithful -/

/-- What is promised of the copy `y` of the property list `x`. -/
structure IsFaithful (option : Mutability) (x y : CFTypeRef) : Prop where
  equal : x.all isCopyable = true → PList.equal y.erase x.erase = true
  cfEqual : x.all isCopyable = true → x.all Primitive.byValue = true → CFEqual y x = true
  /-- The containers of the copy are other objects. -/
  containers : ∀ z ∈ y.subobjects, z.isPrimitive = false →
    z.base.mutable = decide (option ≠ .immutable) ∧ ∀ w ∈ x.subobjects, w.base.address ≠ z.base.address
  /-- So are, under the third option, the strings and data that are elements and
  values. -/
  leaves : option = .mutableContainersAndLeaves → ∀ z, ReflTransGen (Contains cell) y z → isLeaf z = true →
    isMutable z = true ∧ ∀ w ∈ x.subobjects, w.base.address ≠ z.base.address
  /-- What is done to a mutable object of the copy does not show in the
  original. -/
  unchanged : ∀ z ∈ y.subobjects, isMutable z = true → ∀ new, replaceAt z.base.address new x = x

/-- An array of a mutable string and an integer. -/
def stringAndInteger : CFTypeRef :=
  .container ⟨3, false⟩ .array [.primitive ⟨1, true⟩ (.string [0x61]), .primitive ⟨2, false⟩ (.number (.sint64 7))]

/-- A UID in an array. -/
def uidInArray : CFTypeRef := .container ⟨2, false⟩ .array [.primitive ⟨1, false⟩ (.uid 1)]

end Copies

end CFLite.DeepCopy
