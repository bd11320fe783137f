import CFLite.Strings.DecomposeRuns

/-!
# Exact decomposition

What `CFUniCharDecompose` reports is the canonical decomposition when no mark is dropped.

* `keepsRuns_spec`: a dropped mark makes what is written shorter;
* `runsFrom_apart`: no marks stand on both sides of a cut between two runs;
* `decomposesExactly_iff`: when the call is exact.
-/

namespace CFLite.Strings.Decomposing

open Framework

variable {format : Format} {maxLength : Nat}

section Run

variable {T : CanonicalTables} {isHFSPlus : Bool}

/-! ## Nothing is lost -/

variable (T isHFSPlus) in
theorem flatten_runsFrom (pending cs : List Nat) : (runsFrom T isHFSPlus pending cs).flatten = pending ++ cs := by
  have hemit : ∀ (pending : List Nat) (runs : List (List Nat)),
      (emit pending runs).flatten = pending ++ runs.flatten := by
    intro pending runs
    rw [emit]
    split
    · next h => rw [h, List.nil_append]
    · rfl
  induction pending, cs using runsFrom.induct T isHFSPlus with
  | case1 pending => rw [runsFrom, hemit, List.flatten_nil]
  | case2 pending c cs hmark ih => rw [runsFrom, if_pos hmark, ih, List.append_assoc, List.singleton_append]
  | case3 pending c cs hmark hone ih =>
    rw [runsFrom, if_neg hmark, if_pos hone, hemit, List.flatten_cons, ih]
    rfl
  | case4 pending c cs hmark hone ih =>
    rw [runsFrom, if_neg hmark, if_neg hone, hemit, ih]
    rfl

variable (T isHFSPlus format maxLength) in
/-- The runs that are written are the first ones. -/
theorem writeRuns_prefix (size used : Nat) (runs : List (List Nat)) :
    (writeRuns T isHFSPlus format maxLength size used runs).1 <+: runs := by
  induction runs generalizing size used with
  | nil => exact List.prefix_refl _
  | cons run runs ih =>
    rw [writeRuns]
    split
    · exact List.nil_prefix
    · exact (List.prefix_cons_inj run).mpr (ih _ _)

variable (T isHFSPlus) in
/-- Each mark of a run finds room in the buffer for its decomposition. -/
def RoomForMarks : List Nat × Nat → List Nat → Prop
  | _, [] => True
  | b, c :: cs =>
    (isDecomposableWithFlag T isHFSPlus c = true → FitsCharacter T c (grownSize b.1.length b.2 - b.1.length)) ∧
      RoomForMarks (addMark T isHFSPlus b c) cs

variable (T isHFSPlus) in
/-- Each mark of a run, which may be the first of it, finds room in the buffer for its decomposition. -/
def KeepsMarks (size : Nat) : List Nat → Prop
  | [] => True
  | c :: cs =>
    if IsMark T c then RoomForMarks T isHFSPlus ([], size) (c :: cs)
    else RoomForMarks T isHFSPlus (startOf T isHFSPlus c, size) cs

variable (T isHFSPlus format maxLength) in
/-- Every run that is written keeps its marks. -/
def KeepsRuns : (size used : Nat) → List (List Nat) → Prop
  | _, _, [] => True
  | size, used, run :: runs =>
    Overflows format maxLength used (bufferOf T isHFSPlus size run).1 ∨
      (KeepsMarks T isHFSPlus size run ∧
        KeepsRuns (bufferOf T isHFSPlus size run).2 (used + unitLength format (bufferOf T isHFSPlus size run).1) runs)

variable (T isHFSPlus format) in
/-- Marks that find room are decomposed in full; else something is missing. -/
theorem roomForMarks_spec {marks : List Nat} (hmarks : ∀ c ∈ marks, 0x80 ≤ c) (b : List Nat × Nat) :
    (RoomForMarks T isHFSPlus b marks →
      (marks.foldl (addMark T isHFSPlus) b).1 = b.1 ++ marks.flatMap (canonicalDecomposition T isHFSPlus)) ∧
    unitLength format (marks.foldl (addMark T isHFSPlus) b).1 ≤
      unitLength format b.1 + unitLength format (marks.flatMap (canonicalDecomposition T isHFSPlus)) ∧
    (¬ RoomForMarks T isHFSPlus b marks →
      unitLength format (marks.foldl (addMark T isHFSPlus) b).1 <
        unitLength format b.1 + unitLength format (marks.flatMap (canonicalDecomposition T isHFSPlus))) := by
  induction marks generalizing b with
  | nil => exact ⟨fun _ => (List.append_nil _).symm, le_rfl, fun h => absurd trivial h⟩
  | cons c marks ih =>
    rw [List.forall_mem_cons] at hmarks
    obtain ⟨hall, hle, hlt⟩ := ih hmarks.2 (addMark T isHFSPlus b c)
    obtain ⟨hroom, hnot⟩ := addMark_eq T isHFSPlus b hmarks.1
    have hpos := unitLength_pos format (canonicalDecomposition_ne_nil T isHFSPlus c)
    simp only [RoomForMarks, List.foldl_cons, List.flatMap_cons, unitLength_append]
    by_cases hc : isDecomposableWithFlag T isHFSPlus c = true →
        FitsCharacter T c (grownSize b.1.length b.2 - b.1.length)
    · rw [hroom hc] at hall hle hlt
      rw [unitLength_append] at hle hlt
      exact ⟨fun h => by rw [hall h.2, List.append_assoc], by omega, fun h => by
        have := hlt fun h' => h ⟨hc, h'⟩
        omega⟩
    · rw [hnot hc] at hle
      exact ⟨fun h => absurd h.1 hc, by omega, fun _ => by omega⟩

variable (T) in
/-- The characters of a run behind the first are marks. -/
def IsRun (run : List Nat) : Prop := ∀ c ∈ run.tail, IsMark T c

theorem isRun_nil : IsRun T [] := fun _ hd => absurd hd List.not_mem_nil

variable (format) in
/-- A run that keeps its marks is decomposed in full; else something is missing. -/
theorem keepsMarks_spec (hfit : SingleFit T isHFSPlus) {run : List Nat} (hrun : IsRun T run) (size : Nat) :
    unitLength format (bufferOf T isHFSPlus size run).1 ≤
        unitLength format (run.flatMap (canonicalDecomposition T isHFSPlus)) ∧
      (unitLength format (bufferOf T isHFSPlus size run).1 =
          unitLength format (run.flatMap (canonicalDecomposition T isHFSPlus)) ↔
        KeepsMarks T isHFSPlus size run) := by
  cases run with
  | nil => exact ⟨le_rfl, iff_of_true rfl trivial⟩
  | cons c marks =>
    have hmarks : ∀ d ∈ marks, 0x80 ≤ d := fun d hd => (hrun d hd).1
    rw [KeepsMarks, bufferOf]
    by_cases hmark : IsMark T c
    · rw [if_pos hmark, if_pos hmark, ← List.foldl_cons]
      obtain ⟨hall, hle, hlt⟩ := roomForMarks_spec format T isHFSPlus
        (List.forall_mem_cons.mpr ⟨hmark.1, hmarks⟩) ([], size)
      rw [unitLength_nil, Nat.zero_add] at hle hlt
      refine ⟨hle, fun h => ?_, fun h => by rw [hall h, List.nil_append]⟩
      by_contra hnot
      have := hlt hnot
      omega
    · rw [if_neg hmark, if_neg hmark, startOf_eq hfit]
      obtain ⟨hall, hle, hlt⟩ := roomForMarks_spec format T isHFSPlus
        hmarks (canonicalDecomposition T isHFSPlus c, size)
      dsimp only at hle hlt
      rw [List.flatMap_cons, unitLength_append]
      refine ⟨hle, fun h => ?_, fun h => by rw [hall h, unitLength_append]⟩
      by_contra hnot
      have := hlt hnot
      omega

variable (format maxLength) in
/-- What is written is as long as the decompositions of its characters exactly when every
run that is written keeps its marks. -/
theorem keepsRuns_spec (hfit : SingleFit T isHFSPlus) {runs : List (List Nat)} (hruns : ∀ run ∈ runs, IsRun T run)
    (size used : Nat) :
    (writeRuns T isHFSPlus format maxLength size used runs).2 ≤ used + unitLength format
        ((writeRuns T isHFSPlus format maxLength size used runs).1.flatten.flatMap
          (canonicalDecomposition T isHFSPlus)) ∧
      ((writeRuns T isHFSPlus format maxLength size used runs).2 = used + unitLength format
          ((writeRuns T isHFSPlus format maxLength size used runs).1.flatten.flatMap
            (canonicalDecomposition T isHFSPlus)) ↔
        KeepsRuns format maxLength T isHFSPlus size used runs) := by
  induction runs generalizing size used with
  | nil => exact ⟨le_rfl, iff_of_true rfl trivial⟩
  | cons run runs ih =>
    rw [List.forall_mem_cons] at hruns
    rw [writeRuns, KeepsRuns]
    by_cases hover : Overflows format maxLength used (bufferOf T isHFSPlus size run).1
    · rw [if_pos hover]
      exact ⟨le_rfl, iff_of_true rfl (.inl hover)⟩
    · obtain ⟨hle, hiff⟩ := keepsMarks_spec format hfit hruns.1 size
      obtain ⟨hrestLe, hrestIff⟩ := ih hruns.2 (bufferOf T isHFSPlus size run).2
        (used + unitLength format (bufferOf T isHFSPlus size run).1)
      rw [if_neg hover, or_iff_right hover, ← hiff, ← hrestIff]
      simp only [List.flatten_cons, List.flatMap_append, unitLength_append]
      omega

end Run

variable (T : CanonicalTables) in
/-- The units are cut between two marks. -/
def SplitsRun (format : Format) (units : List UniChar) (n : Nat) : Prop :=
  (∃ c ∈ (characters format (units.take n)).getLast?, IsMark T c) ∧
    ∃ c ∈ (characters format (units.drop n)).head?, IsMark T c

section Cut

variable {T : CanonicalTables} {isHFSPlus : Bool}

variable (T isHFSPlus) in
/-- The first run begins with what was collected. -/
theorem runsFrom_cons (d : Nat) (pending cs : List Nat) :
    ∃ marks runs, runsFrom T isHFSPlus (d :: pending) cs = (d :: marks) :: runs := by
  induction cs generalizing pending with
  | nil => exact ⟨pending, [], rfl⟩
  | cons c cs ih =>
    rw [runsFrom]
    split
    · exact ih (pending ++ [c])
    · split
      · exact ⟨pending, _, rfl⟩
      · exact ⟨pending, _, rfl⟩

/-- The characters of every run behind the first are marks. -/
theorem isRun_runsFrom (isHFSPlus : Bool) {pending : List Nat} (h : IsRun T pending) (cs : List Nat) :
    ∀ run ∈ runsFrom T isHFSPlus pending cs, IsRun T run ∧ run ≠ [] := by
  have hemit : ∀ {pending : List Nat} {runs : List (List Nat)}, IsRun T pending →
      (∀ run ∈ runs, IsRun T run ∧ run ≠ []) → ∀ run ∈ emit pending runs, IsRun T run ∧ run ≠ [] := by
    intro pending runs hpending hruns
    rw [emit]
    split
    · exact hruns
    · next hne => exact List.forall_mem_cons.mpr ⟨⟨hpending, hne⟩, hruns⟩
  induction cs generalizing pending with
  | nil => exact hemit h fun run hrun => absurd hrun List.not_mem_nil
  | cons c cs ih =>
    have hsingle : IsRun T [c] := fun d hd => absurd hd List.not_mem_nil
    rw [runsFrom]
    split
    · next hmark =>
      refine ih fun d hd => ?_
      cases pending with
      | nil => exact absurd hd List.not_mem_nil
      | cons p pending =>
        rcases List.mem_append.mp hd with hd | hd
        · exact h d hd
        · rwa [List.mem_singleton.mp hd]
    · split
      · exact hemit h (List.forall_mem_cons.mpr ⟨⟨hsingle, List.cons_ne_nil _ _⟩, ih isRun_nil⟩)
      · exact hemit h (ih hsingle)

variable (T) in
/-- Two runs between which no marks stand side by side. -/
def Apart (run next : List Nat) : Prop := ¬ ((∃ c ∈ run.getLast?, IsMark T c) ∧ ∃ c ∈ next.head?, IsMark T c)

variable (T isHFSPlus) in
theorem runsFrom_apart (pending cs : List Nat) : (runsFrom T isHFSPlus pending cs).IsChain (Apart T) := by
  have hemit : ∀ {c : Nat} {pending marks : List Nat} {runs : List (List Nat)}, ¬ IsMark T c →
      List.IsChain (Apart T) ((c :: marks) :: runs) → List.IsChain (Apart T) (emit pending ((c :: marks) :: runs)) := by
    intro c pending marks runs hc hruns
    rw [emit]
    split
    · exact hruns
    · refine .cons_cons (fun hapart => ?_) hruns
      obtain ⟨-, d, hd, hmark⟩ := hapart
      cases hd
      exact hc hmark
  induction cs generalizing pending with
  | nil =>
    rw [runsFrom, emit]
    split
    · exact .nil
    · exact .singleton _
  | cons c cs ih =>
    rw [runsFrom]
    split
    · exact ih _
    · next hmark =>
      split
      · refine hemit hmark ?_
        cases hruns : runsFrom T isHFSPlus [] cs with
        | nil => exact .singleton _
        | cons run runs =>
          refine .cons_cons (fun hapart => ?_) (hruns ▸ ih [])
          obtain ⟨⟨d, hd, hdmark⟩, -⟩ := hapart
          cases hd
          exact hmark hdmark
      · obtain ⟨marks, runs, hruns⟩ := runsFrom_cons T isHFSPlus c [] cs
        rw [hruns]
        exact hemit hmark (hruns ▸ ih [c])

end Cut

/-! ## The canonical decomposition -/

section Exact

variable (T : CanonicalTables) (isHFSPlus : Bool) (format : Format) (maxLength : Nat)

/-- A character before others that are in canonical order: behind those marks that are of
a lower class, unless it is of class 0. -/
def insertMark (c : Nat) : List Nat → List Nat
  | [] => [c]
  | d :: ds =>
    if T.combiningClass c = 0 ∨ T.combiningClass d = 0 ∨ T.combiningClass c ≤ T.combiningClass d then c :: d :: ds
    else d :: insertMark c ds

/-- Characters in canonical order: each run of marks between others in the order of their
classes, those of one class as they were. -/
def canonicalOrder : List Nat → List Nat
  | [] => []
  | c :: cs => insertMark T c (canonicalOrder cs)

/-- The canonical decomposition of a text. -/
def canonicalText (chars : List Nat) : List Nat :=
  canonicalOrder T (chars.flatMap (canonicalDecomposition T isHFSPlus))

variable {T} in
theorem canonicalOrder_perm (chars : List Nat) : (canonicalOrder T chars).Perm chars := by
  have hinsert : ∀ (c : Nat) (cs : List Nat), (insertMark T c cs).Perm (c :: cs) := by
    intro c cs
    induction cs with
    | nil => exact .refl _
    | cons d ds ih =>
      rw [insertMark]
      split
      · exact .refl _
      · exact (ih.cons d).trans (.swap c d ds)
  induction chars with
  | nil => exact .refl _
  | cons c cs ih => exact (hinsert c _).trans (ih.cons c)

/-- The call writes within the destination, reports the length of the canonical decomposition
of the units that it consumes, which end neither in a pair nor in a run of marks, and returns
true exactly when it consumed all. -/
def DecomposesExactly (units : List UniChar) : Prop :=
  ∀ dst : List Nat, dst.length = maxLength → ∃ consumed filled dst',
    decompose T isHFSPlus format maxLength true units dst =
      some (decide (consumed = units.length), consumed, filled, dst') ∧
    consumed ≤ units.length ∧
    widths (characters format (units.take consumed)) = consumed ∧
    filled = unitLength format (canonicalText T isHFSPlus (characters format (units.take consumed))) ∧
    ¬ SplitsPair units consumed ∧ ¬ SplitsRun T format units consumed

variable {T isHFSPlus format maxLength}

/-- What is written is the first of the text, and what is not the rest of it. -/
theorem writeRuns_cut {chars : List Nat} {written : List (List Nat)} {filled : Nat}
    (hwritten : writeRuns T isHFSPlus format maxLength maxBufferLength 0 (runsFrom T isHFSPlus [] chars) =
      (written, filled)) :
    ∃ left, chars = written.flatten ++ left ∧
      ¬ ((∃ c ∈ written.flatten.getLast?, IsMark T c) ∧ ∃ c ∈ left.head?, IsMark T c) := by
  have hprefix := writeRuns_prefix format maxLength T isHFSPlus maxBufferLength 0 (runsFrom T isHFSPlus [] chars)
  rw [hwritten] at hprefix
  obtain ⟨left, hleft⟩ := hprefix
  have hflatten := flatten_runsFrom T isHFSPlus [] chars
  have hruns := isRun_runsFrom (T := T) isHFSPlus isRun_nil chars
  have hchain := runsFrom_apart T isHFSPlus [] chars
  rw [← hleft] at hflatten hruns hchain
  refine ⟨left.flatten, by rw [← List.flatten_append, hflatten, List.nil_append], ?_⟩
  rintro ⟨⟨c, hc, hcmark⟩, d, hd, hdmark⟩
  obtain rfl | ⟨init, run, rfl⟩ := written.eq_nil_or_concat'
  · simp at hc
  · obtain ⟨x, xs, hx⟩ := List.exists_cons_of_ne_nil (hruns run (by simp)).2
    cases left with
    | nil => simp at hd
    | cons next left =>
      obtain ⟨y, ys, hy⟩ := List.exists_cons_of_ne_nil (hruns next (by simp)).2
      have hapart := (List.isChain_append.mp hchain).2.2 run (by simp) next rfl
      refine hapart ⟨⟨c, ?_, hcmark⟩, d, ?_, hdmark⟩
      · rw [List.flatten_append, List.flatten_singleton, List.getLast?_append, hx] at hc
        rw [hx]
        simpa using hc
      · rw [List.flatten_cons, hy] at hd
        rw [hy]
        exact hd

/-- The runs that are written, of all runs of a text. -/
theorem decompose_eq (hfit : SingleFit T isHFSPlus) (units : List UniChar) {dst : List Nat}
    (hdst : dst.length = maxLength) {written : List (List Nat)} {filled : Nat}
    (hwritten : writeRuns T isHFSPlus format maxLength maxBufferLength 0
      (runsFrom T isHFSPlus [] (characters format units)) = (written, filled)) :
    ∃ dst', decompose T isHFSPlus format maxLength true units dst =
      some (decide (widths written.flatten = units.length), widths written.flatten, filled, dst') := by
  have hstart : Collects maxLength T isHFSPlus ⟨units.length, 0, [], maxBufferLength, 0, dst⟩ [] maxBufferLength :=
    ⟨rfl, rfl, rfl, hdst, fun _ => Nat.zero_le _, le_rfl⟩
  obtain ⟨s, hrun, hlength, hused⟩ := decomposeLoop_endsAfter format hfit units hstart
  dsimp only at hlength hused
  rw [hwritten] at hlength hused
  dsimp only at hlength hused
  have hle : widths written.flatten ≤ units.length := by
    obtain ⟨left, hleft, -⟩ := writeRuns_cut hwritten
    exact (characters_take hleft).2.2
  refine ⟨s.dst, ?_⟩
  rw [decompose, hrun, Option.map_some, hlength, hused]
  congr 2
  · exact decide_eq_decide.mpr (by omega)
  · rw [Nat.sub_sub_self hle]

/-- The call is exact exactly when every run that it writes keeps its marks: when each of them
finds room for its decomposition in the buffer, of 32 characters or what it has grown to. -/
theorem decomposesExactly_iff (T : CanonicalTables) (isHFSPlus : Bool) (format : Format) (maxLength : Nat)
    (units : List UniChar) (hfit : SingleFit T isHFSPlus) :
    DecomposesExactly T isHFSPlus format maxLength units ↔
      KeepsRuns format maxLength T isHFSPlus maxBufferLength 0 (runsFrom T isHFSPlus [] (characters format units)) := by
  have hruns := isRun_runsFrom (T := T) isHFSPlus isRun_nil (characters format units)
  have hiff := (keepsRuns_spec format maxLength hfit (fun run hrun => (hruns run hrun).1)
    maxBufferLength 0).2
  cases hwritten : writeRuns T isHFSPlus format maxLength maxBufferLength 0
    (runsFrom T isHFSPlus [] (characters format units)) with
  | mk written filled =>
    obtain ⟨left, hleft, hcut⟩ := writeRuns_cut hwritten
    obtain ⟨htake, hdrop, hle⟩ := characters_take hleft
    have htext : unitLength format (canonicalText T isHFSPlus written.flatten) =
        unitLength format (written.flatten.flatMap (canonicalDecomposition T isHFSPlus)) :=
      unitLength_perm (canonicalOrder_perm _)
    rw [hwritten, Nat.zero_add, ← htext] at hiff
    rw [← hiff]
    constructor
    · intro h
      obtain ⟨consumed, filled', dst', hrun, -, -, hfilled, -⟩ := h (List.replicate maxLength 0) List.length_replicate
      obtain ⟨dst'', hrun'⟩ := decompose_eq hfit units List.length_replicate hwritten
      rw [hrun'] at hrun
      simp only [Option.some.injEq, Prod.mk.injEq] at hrun
      obtain ⟨-, rfl, rfl, -⟩ := hrun
      rwa [htake] at hfilled
    · intro h dst hdst
      obtain ⟨dst', hrun⟩ := decompose_eq hfit units hdst hwritten
      refine ⟨_, _, dst', hrun, hle, by rw [htake], by rw [htake]; exact h, not_splitsPair hleft, ?_⟩
      rw [SplitsRun, htake, hdrop]
      exact hcut

/-- Tables in which U+0340 stands for thirty marks and U+0344 for three. -/
def markTables : CanonicalTables where
  isDecomposable c := c == 0x340 || c == 0x344
  isCompatibilityDecomposable _ := false
  canonical c := .plain (if c = 0x340 then List.replicate 30 0x300 else if c = 0x344 then [0x308, 0x301, 0x30D] else [])
  compatibility _ := []
  rank _ := 0
  rank_canonical h := by simp at h
  rank_compatibility h := absurd h List.not_mem_nil
  isHFSPlusDecomposable _ := false
  combiningClass c := if 0x300 ≤ c ∧ c < 0x370 then 230 else 0

theorem isDecomposable_markTables {c : Nat} (h : isDecomposableWithFlag markTables false c = true) :
    c = 0x340 ∨ c = 0x344 := by
  rw [isDecomposableWithFlag] at h
  split at h <;> simpa [markTables] using h

theorem fitsCharacter_markTables {c room : Nat} (hc : c = 0x340 ∨ c = 0x344) :
    FitsCharacter markTables c room ↔ (if c = 0x340 then 30 else 3) ≤ room := by
  rw [FitsCharacter, if_neg (by omega), fits_plain rfl]
  obtain rfl | rfl := hc <;> simp

theorem singleFit_markTables : SingleFit markTables false := by
  intro c hdec
  rw [fitsCharacter_markTables (isDecomposable_markTables hdec), maxBufferLength]
  split <;> omega

theorem isDecomposable_marks : isDecomposableWithFlag markTables false 0x340 = true ∧
    isDecomposableWithFlag markTables false 0x344 = true := ⟨rfl, rfl⟩

/-- A base with a mark of three, which are in the buffer alone. -/
theorem decomposesExactly_base : DecomposesExactly markTables false .utf16 0 [0x65, 0x344] := by
  refine (decomposesExactly_iff markTables false .utf16 0 [0x65, 0x344] singleFit_markTables).mpr ?_
  have hruns : runsFrom markTables false [] (characters .utf16 [0x65, 0x344]) = [[0x65], [0x344]] := by decide
  rw [hruns]
  refine .inr ⟨trivial, .inr ⟨⟨fun _ => ?_, trivial⟩, trivial⟩⟩
  rw [fitsCharacter_markTables (.inr rfl)]
  decide

/-- Behind thirty marks, three have no room. -/
theorem not_decomposesExactly_marks : ¬ DecomposesExactly markTables false .utf16 0 [0x340, 0x344] := by
  intro h
  obtain ⟨consumed, filled, dst, hrun, -, -, hfilled, -⟩ := h [] rfl
  have hruns : runsFrom markTables false [] (characters .utf16 [0x340, 0x344]) = [[0x340, 0x344]] := by decide
  have hfirst : decomposeCharacter markTables 0x340 32 = List.replicate 30 0x300 := by
    rw [decomposeCharacter, if_neg (by decide), recursivelyDecompose_plain rfl]
    decide
  have hsecond : decomposeCharacter markTables 0x344 2 = [] := by
    rw [decomposeCharacter, if_neg (by decide), recursivelyDecompose_plain rfl]
    decide
  have hbuffer : (bufferOf markTables false 32 [0x340, 0x344]).1 = List.replicate 30 0x300 := by
    have hmark : IsMark markTables 0x340 := by decide
    rw [bufferOf, if_pos hmark, List.foldl_cons, List.foldl_nil]
    simp [addMark, isDecomposable_marks, grownSize, hfirst, hsecond]
  have hwritten : writeRuns markTables false .utf16 0 maxBufferLength 0
      (runsFrom markTables false [] (characters .utf16 [0x340, 0x344])) = ([[0x340, 0x344]], 30) := by
    rw [hruns, writeRuns, maxBufferLength, hbuffer, writeRuns]
    decide
  obtain ⟨dst', hrun'⟩ := decompose_eq singleFit_markTables [0x340, 0x344] (List.length_nil (α := Nat)) hwritten
  rw [hrun'] at hrun
  simp only [Option.some.injEq, Prod.mk.injEq] at hrun
  obtain ⟨-, rfl, rfl, -⟩ := hrun
  have hchars : characters .utf16 (List.take (widths [[0x340, 0x344]].flatten) [0x340, 0x344]) = [0x340, 0x344] := by
    decide
  have hfull : [0x340, 0x344].flatMap (canonicalDecomposition markTables false) =
      List.replicate 30 0x300 ++ [0x308, 0x301, 0x30D] := by
    have hthirty : canonicalDecomposition markTables false 0x340 = List.replicate 30 0x300 := by
      rw [canonicalDecomposition, if_neg (by decide), if_neg (by decide), fullDecomposition_plain rfl (by decide)]
      rfl
    have hthree : canonicalDecomposition markTables false 0x344 = [0x308, 0x301, 0x30D] := by
      rw [canonicalDecomposition, if_neg (by decide), if_neg (by decide), fullDecomposition_plain rfl (by decide)]
      rfl
    rw [List.flatMap_cons, List.flatMap_singleton, hthirty, hthree]
  rw [hchars, canonicalText, unitLength_perm (canonicalOrder_perm _), hfull] at hfilled
  revert hfilled
  decide

end Exact

end CFLite.Strings.Decomposing
