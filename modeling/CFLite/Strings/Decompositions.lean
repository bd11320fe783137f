import Mathlib.Tactic

/-!
# Decomposition tables

The canonical and the compatibility decompositions of characters, looked up in
tables that may send a character to characters which are decomposed further.

* `recursivelyDecompose_eq`: the canonical decomposition when there is room for it, else nothing;
* `recursivelyCompatibilityDecompose_eq_iff`: when the compatibility decomposition is the full one;
* `length_recursivelyCompatibilityDecompose`: it is never longer than that.
-/

namespace CFLite.Strings.Decomposing

/-- What a table has for a character: the characters it stands for, of which the first is
decomposed further where the recursion flag is set. The value of a missing character is `plain []`. -/
inductive Mapping where
  | plain (chars : List Nat)
  | recursive (first : Nat) (rest : List Nat)
  deriving DecidableEq, Repr

/-- The tables of decompositions, whose recursion ends. -/
structure Tables where
  isDecomposable : Nat → Bool
  isCompatibilityDecomposable : Nat → Bool
  canonical : Nat → Mapping
  compatibility : Nat → List Nat
  rank : Nat → Nat
  rank_canonical : ∀ {c first : Nat} {rest : List Nat}, canonical c = .recursive first rest → rank first < rank c
  rank_compatibility : ∀ {c m : Nat}, m ∈ compatibility c → rank m < rank c

variable (T : Tables)

/-! ## The code -/

/-- `__CFUniCharRecursivelyDecomposeCharacter`: what it writes in a buffer with room for
`maxBufferLength` characters; nothing where that is too little. -/
def recursivelyDecompose (character maxBufferLength : Nat) : List Nat :=
  match _hm : T.canonical character with
  | .plain chars => if maxBufferLength < chars.length then [] else chars
  | .recursive first rest =>
    if maxBufferLength < rest.length + 1 then []
    else
      let used := recursivelyDecompose first (maxBufferLength - (rest.length + 1))
      if used = [] ∨ maxBufferLength < used.length + rest.length then [] else used ++ rest
termination_by T.rank character
decreasing_by exact T.rank_canonical _hm

/-- `MAX_COMP_DECOMP_LEN`. -/
def maxCompDecompLen : Nat := 32

/-- Characters in the place of each of a list, with as much room as leaves one place for
each that follows. -/
def replaceEach {α : Type} (replace : α → Nat → List Nat) : List α → List Nat
  | [] => []
  | m :: ms => replace m (maxCompDecompLen - ms.length) ++ replaceEach replace ms

/-- `__CFUniCharRecursivelyCompatibilityDecomposeCharacter`. -/
def recursivelyCompatibilityDecompose (character : Nat) : List Nat :=
  replaceEach (fun m room =>
      if T.isDecomposable m.1 then recursivelyDecompose T m.1 room
      else if T.isCompatibilityDecomposable m.1 then recursivelyCompatibilityDecompose m.1
      else [m.1])
    (T.compatibility character).attach
termination_by T.rank character
decreasing_by exact T.rank_compatibility m.2

/-! ## Full decompositions -/

/-- The canonical decomposition of a character; a character without a mapping is its own. -/
def fullDecomposition (character : Nat) : List Nat :=
  match _hm : T.canonical character with
  | .plain [] => [character]
  | .plain chars => chars
  | .recursive first rest => fullDecomposition first ++ rest
termination_by T.rank character
decreasing_by exact T.rank_canonical _hm

/-- The compatibility decomposition of a character, in which every character that can be is decomposed. -/
def fullCompatibilityDecomposition (character : Nat) : List Nat :=
  if T.compatibility character = [] then [character]
  else (T.compatibility character).attach.flatMap fun m =>
    if T.isDecomposable m.1 then fullDecomposition T m.1
    else if T.isCompatibilityDecomposable m.1 then fullCompatibilityDecomposition m.1
    else [m.1]
termination_by T.rank character
decreasing_by exact T.rank_compatibility m.2

/-- There is a mapping, and room for the characters of every mapping on the way. -/
def Fits (character room : Nat) : Prop :=
  match _hm : T.canonical character with
  | .plain chars => chars ≠ [] ∧ chars.length ≤ room
  | .recursive first rest => rest.length + 1 ≤ room ∧ Fits first (room - (rest.length + 1))
termination_by T.rank character
decreasing_by exact T.rank_canonical _hm

/-- A condition on each of a list and on the room that it has. -/
def RoomForEach {α : Type} (holds : α → Nat → Prop) : List α → Prop
  | [] => True
  | m :: ms => holds m (maxCompDecompLen - ms.length) ∧ RoomForEach holds ms

/-- There is a mapping, and each character that is to be decomposed finds a mapping and room. -/
def Keeps (character : Nat) : Prop :=
  T.compatibility character ≠ [] ∧
    RoomForEach (fun m room =>
        if T.isDecomposable m.1 then Fits T m.1 room
        else if T.isCompatibilityDecomposable m.1 then Keeps m.1
        else True)
      (T.compatibility character).attach
termination_by T.rank character
decreasing_by exact T.rank_compatibility m.2

/-! ## Canonical decompositions -/

variable {T} {character room first : Nat} {chars rest : List Nat}

theorem fits_plain (h : T.canonical character = .plain chars) :
    Fits T character room ↔ chars ≠ [] ∧ chars.length ≤ room := by
  rw [Fits]; split <;> simp_all

theorem fits_recursive (h : T.canonical character = .recursive first rest) :
    Fits T character room ↔ rest.length + 1 ≤ room ∧ Fits T first (room - (rest.length + 1)) := by
  rw [Fits]; split <;> simp_all

theorem fullDecomposition_plain (h : T.canonical character = .plain chars) (hne : chars ≠ []) :
    fullDecomposition T character = chars := by
  rw [fullDecomposition]; split <;> simp_all

theorem fullDecomposition_recursive (h : T.canonical character = .recursive first rest) :
    fullDecomposition T character = fullDecomposition T first ++ rest := by
  rw [fullDecomposition]; split <;> simp_all

/-- The canonical decomposition of a character is not empty. -/
theorem fullDecomposition_ne_nil (character : Nat) : fullDecomposition T character ≠ [] := by
  induction character using fullDecomposition.induct T with
  | case1 c hm => rw [fullDecomposition]; split <;> simp_all
  | case2 c chars hne hm =>
    rw [fullDecomposition_plain hm hne]
    exact hne
  | case3 c first rest hm ih =>
    rw [fullDecomposition_recursive hm]
    exact List.append_ne_nil_of_left_ne_nil ih _

/-- What fits is no longer than the room. -/
theorem Fits.length_le (h : Fits T character room) : (fullDecomposition T character).length ≤ room := by
  induction character using fullDecomposition.induct T generalizing room with
  | case1 c hm => exact absurd rfl ((fits_plain hm).mp h).1
  | case2 c chars hne hm =>
    rw [fullDecomposition_plain hm hne]
    exact ((fits_plain hm).mp h).2
  | case3 c first rest hm ih =>
    obtain ⟨hroom, hfirst⟩ := (fits_recursive hm).mp h
    have := ih hfirst
    rw [fullDecomposition_recursive hm, List.length_append]
    omega

theorem recursivelyDecompose_plain (h : T.canonical character = .plain chars) :
    recursivelyDecompose T character room = if room < chars.length then [] else chars := by
  rw [recursivelyDecompose]; split <;> simp_all

theorem recursivelyDecompose_recursive (h : T.canonical character = .recursive first rest)
    (hroom : rest.length + 1 ≤ room) :
    recursivelyDecompose T character room =
      if recursivelyDecompose T first (room - (rest.length + 1)) = [] ∨
        room < (recursivelyDecompose T first (room - (rest.length + 1))).length + rest.length then []
      else recursivelyDecompose T first (room - (rest.length + 1)) ++ rest := by
  rw [recursivelyDecompose]
  split
  · simp_all
  · next f r hm =>
    obtain ⟨rfl, rfl⟩ : f = first ∧ r = rest := by simpa [h, eq_comm] using hm
    rw [if_neg (by omega)]

/-- What fits is decomposed in full. -/
theorem Fits.recursivelyDecompose_eq (h : Fits T character room) :
    recursivelyDecompose T character room = fullDecomposition T character := by
  induction character using fullDecomposition.induct T generalizing room with
  | case1 c hm => exact absurd rfl ((fits_plain hm).mp h).1
  | case2 c chars hne hm =>
    rw [recursivelyDecompose_plain hm, fullDecomposition_plain hm hne, if_neg (Nat.not_lt.mpr ((fits_plain hm).mp h).2)]
  | case3 c first rest hm ih =>
    obtain ⟨hroom, hfirst⟩ := (fits_recursive hm).mp h
    have hlength := hfirst.length_le
    rw [recursivelyDecompose_recursive hm hroom, ih hfirst, fullDecomposition_recursive hm, if_neg]
    rintro (hnil | hlong)
    · exact fullDecomposition_ne_nil first hnil
    · omega

/-- Of what does not fit, nothing is written. -/
theorem recursivelyDecompose_of_not_fits (h : ¬ Fits T character room) :
    recursivelyDecompose T character room = [] := by
  induction character using fullDecomposition.induct T generalizing room with
  | case1 c hm => rw [recursivelyDecompose_plain hm, ite_self]
  | case2 c chars hne hm =>
    rw [recursivelyDecompose_plain hm, if_pos]
    by_contra hroom
    exact h ((fits_plain hm).mpr ⟨hne, by omega⟩)
  | case3 c first rest hm ih =>
    by_cases hroom : rest.length + 1 ≤ room
    · have hfirst : ¬ Fits T first (room - (rest.length + 1)) := fun hf => h ((fits_recursive hm).mpr ⟨hroom, hf⟩)
      rw [recursivelyDecompose_recursive hm hroom, if_pos (.inl (ih hfirst))]
    · rw [recursivelyDecompose]
      split
      · simp_all
      · next f r hm' =>
        obtain ⟨rfl, rfl⟩ : f = first ∧ r = rest := by simpa [hm, eq_comm] using hm'
        rw [if_pos (by omega)]

/-! ## Compatibility decompositions -/

theorem replaceEach_map {α β : Type} (g : α → β) (replace : β → Nat → List Nat) (l : List α) :
    replaceEach (fun m room => replace (g m) room) l = replaceEach replace (l.map g) := by
  induction l with
  | nil => rfl
  | cons m ms ih => simp only [replaceEach, List.map_cons, List.length_map, ih]

theorem roomForEach_map {α β : Type} (g : α → β) (holds : β → Nat → Prop) (l : List α) :
    RoomForEach (fun m room => holds (g m) room) l ↔ RoomForEach holds (l.map g) := by
  induction l with
  | nil => rfl
  | cons m ms ih => simp only [RoomForEach, List.map_cons, List.length_map, ih]

variable (T) in
/-- What the code puts in the place of a character of a compatibility mapping. -/
def replacement (m room : Nat) : List Nat :=
  if T.isDecomposable m then recursivelyDecompose T m room
  else if T.isCompatibilityDecomposable m then recursivelyCompatibilityDecompose T m
  else [m]

variable (T) in
/-- What belongs in the place of a character of a compatibility mapping. -/
def fullReplacement (m : Nat) : List Nat :=
  if T.isDecomposable m then fullDecomposition T m
  else if T.isCompatibilityDecomposable m then fullCompatibilityDecomposition T m
  else [m]

variable (T) in
/-- The code puts in the place of a character of a compatibility mapping what belongs there. -/
def Replaces (m room : Nat) : Prop :=
  if T.isDecomposable m then Fits T m room
  else if T.isCompatibilityDecomposable m then Keeps T m
  else True

theorem recursivelyCompatibilityDecompose_eq (character : Nat) :
    recursivelyCompatibilityDecompose T character = replaceEach (replacement T) (T.compatibility character) := by
  rw [recursivelyCompatibilityDecompose]
  exact (replaceEach_map Subtype.val (replacement T) _).trans (by rw [List.attach_map_subtype_val])

theorem fullCompatibilityDecomposition_eq {character : Nat} (h : T.compatibility character ≠ []) :
    fullCompatibilityDecomposition T character = (T.compatibility character).flatMap (fullReplacement T) := by
  rw [fullCompatibilityDecomposition, if_neg h]
  conv_rhs => rw [← List.attach_map_subtype_val (T.compatibility character), List.flatMap_map]
  rfl

theorem keeps_iff (character : Nat) :
    Keeps T character ↔
      T.compatibility character ≠ [] ∧ RoomForEach (Replaces T) (T.compatibility character) := by
  rw [Keeps]
  exact and_congr_right fun _ =>
    (roomForEach_map Subtype.val (Replaces T) _).trans (by rw [List.attach_map_subtype_val])

/-- No compatibility decomposition is empty. -/
theorem fullCompatibilityDecomposition_ne_nil (character : Nat) :
    fullCompatibilityDecomposition T character ≠ [] := by
  induction hr : T.rank character using Nat.strong_induction_on generalizing character with
  | _ r ih =>
    by_cases hnil : T.compatibility character = []
    · rw [fullCompatibilityDecomposition, if_pos hnil]
      exact List.cons_ne_nil _ _
    · rw [fullCompatibilityDecomposition_eq hnil]
      obtain ⟨m, ms, hms⟩ := List.exists_cons_of_ne_nil hnil
      rw [hms, List.flatMap_cons]
      refine List.append_ne_nil_of_left_ne_nil ?_ _
      rw [fullReplacement]
      split
      · exact fullDecomposition_ne_nil m
      · split
        · exact ih _ (hr ▸ T.rank_compatibility (hms ▸ List.mem_cons_self)) m rfl
        · exact List.cons_ne_nil _ _

/-- What the code puts for each of a list, if it is right or shorter for each of them. -/
theorem replaceEach_or_shorter {l : List Nat}
    (hright : ∀ m ∈ l, ∀ room, Replaces T m room → replacement T m room = fullReplacement T m)
    (hwrong : ∀ m ∈ l, ∀ room, ¬ Replaces T m room →
      (replacement T m room).length < (fullReplacement T m).length) :
    (RoomForEach (Replaces T) l → replaceEach (replacement T) l = l.flatMap (fullReplacement T)) ∧
    (replaceEach (replacement T) l).length ≤ (l.flatMap (fullReplacement T)).length ∧
    (¬ RoomForEach (Replaces T) l →
      (replaceEach (replacement T) l).length < (l.flatMap (fullReplacement T)).length) := by
  induction l with
  | nil => exact ⟨fun _ => rfl, le_rfl, fun h => absurd trivial h⟩
  | cons m ms ih =>
    obtain ⟨hall, hle, hlt⟩ := ih (fun m' hm' => hright m' (List.mem_cons_of_mem _ hm'))
      (fun m' hm' => hwrong m' (List.mem_cons_of_mem _ hm'))
    simp only [RoomForEach, replaceEach, List.flatMap_cons, List.length_append]
    by_cases hm : Replaces T m (maxCompDecompLen - ms.length)
    · rw [hright m List.mem_cons_self _ hm]
      exact ⟨fun h => by rw [hall h.2], by omega, fun h => by have := hlt fun h' => h ⟨hm, h'⟩; omega⟩
    · have := hwrong m List.mem_cons_self _ hm
      exact ⟨fun h => absurd h.1 hm, by omega, fun _ => by omega⟩

/-- The code's compatibility decomposition is the full one or a shorter one. -/
theorem recursivelyCompatibilityDecompose_spec (character : Nat) :
    (Keeps T character →
      recursivelyCompatibilityDecompose T character = fullCompatibilityDecomposition T character) ∧
    (¬ Keeps T character → (recursivelyCompatibilityDecompose T character).length <
      (fullCompatibilityDecomposition T character).length) := by
  induction hr : T.rank character using Nat.strong_induction_on generalizing character with
  | _ r ih =>
    have hright : ∀ m ∈ T.compatibility character, ∀ room, Replaces T m room →
        replacement T m room = fullReplacement T m := by
      intro m hm room h
      simp only [Replaces, replacement, fullReplacement] at h ⊢
      split at h
      · next hd => rw [if_pos hd, if_pos hd, h.recursivelyDecompose_eq]
      · next hd =>
        split at h
        · next hc =>
          rw [if_neg hd, if_neg hd, if_pos hc, if_pos hc, (ih _ (hr ▸ T.rank_compatibility hm) m rfl).1 h]
        · next hc => rw [if_neg hd, if_neg hd, if_neg hc, if_neg hc]
    have hwrong : ∀ m ∈ T.compatibility character, ∀ room, ¬ Replaces T m room →
        (replacement T m room).length < (fullReplacement T m).length := by
      intro m hm room h
      simp only [Replaces, replacement, fullReplacement] at h ⊢
      split at h
      · next hd =>
        rw [if_pos hd, if_pos hd, recursivelyDecompose_of_not_fits h]
        exact List.length_pos_of_ne_nil (fullDecomposition_ne_nil m)
      · next hd =>
        split at h
        · next hc =>
          rw [if_neg hd, if_neg hd, if_pos hc, if_pos hc]
          exact (ih _ (hr ▸ T.rank_compatibility hm) m rfl).2 h
        · exact absurd trivial h
    obtain ⟨hall, -, hlt⟩ := replaceEach_or_shorter hright hwrong
    rw [keeps_iff, recursivelyCompatibilityDecompose_eq]
    by_cases hnil : T.compatibility character = []
    · refine ⟨fun h => absurd hnil h.1, fun _ => ?_⟩
      rw [hnil]
      exact List.length_pos_of_ne_nil (fullCompatibilityDecomposition_ne_nil character)
    · rw [fullCompatibilityDecomposition_eq hnil]
      exact ⟨fun h => hall h.2, fun h => hlt fun h' => h ⟨hnil, h'⟩⟩

/-- The code's compatibility decomposition is never longer than the full one. -/
theorem length_recursivelyCompatibilityDecompose (character : Nat) :
    (recursivelyCompatibilityDecompose T character).length ≤ (fullCompatibilityDecomposition T character).length := by
  obtain ⟨hkeeps, hnot⟩ := recursivelyCompatibilityDecompose_spec (T := T) character
  by_cases h : Keeps T character
  · rw [hkeeps h]
  · exact (hnot h).le

/-- The code's compatibility decomposition is the full one exactly when every character that is
to be decomposed finds a mapping and room. -/
theorem recursivelyCompatibilityDecompose_eq_iff (character : Nat) :
    recursivelyCompatibilityDecompose T character = fullCompatibilityDecomposition T character ↔
      Keeps T character := by
  obtain ⟨hkeeps, hnot⟩ := recursivelyCompatibilityDecompose_spec (T := T) character
  refine ⟨fun h => ?_, hkeeps⟩
  by_contra hk
  have := hnot hk
  rw [h] at this
  omega

end CFLite.Strings.Decomposing
