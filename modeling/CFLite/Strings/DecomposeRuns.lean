import CFLite.Strings.DecomposeText

/-!
# The runs that are written

The loop of `CFUniCharDecompose` collects a run of characters and writes it when it comes to the next.

* `decomposeCharacter_eq`: a single character is decomposed in full when there is room;
* `Collects`: the state with a run collected;
* `decomposeLoop_endsAfter`: the runs are written one after the other while they have room.
-/

namespace CFLite.Strings.Decomposing

open Framework

variable {format : Format}

/-! ## Writing -/

@[simp] theorem unitLength_nil : unitLength format [] = 0 := rfl

@[simp] theorem unitLength_cons (c : Nat) (chars : List Nat) :
    unitLength format (c :: chars) = (encode format c).length + unitLength format chars := by
  simp [unitLength]

@[simp] theorem unitLength_append (chars others : List Nat) :
    unitLength format (chars ++ others) = unitLength format chars + unitLength format others := by
  simp [unitLength]

theorem unitLength_perm {chars others : List Nat} (h : chars.Perm others) :
    unitLength format chars = unitLength format others := (h.map _).sum_eq

variable (format) in
theorem encode_ne_nil (c : Nat) : encode format c ≠ [] := by
  refine List.ne_nil_of_length_pos ?_
  cases format
  · simp only [encode]
    split_ifs <;> simp [length_writeBytes]
  · simp only [encode]
    split_ifs <;> simp [surrogates]
  · simp [encode]

theorem length_encode_ascii {c : Nat} (h : c < 0x80) : (encode format c).length = 1 := by
  cases format
  · rw [encode, if_pos h, List.length_singleton]
  · rw [encode, if_neg (by omega), List.length_singleton]
  · rfl

variable (format) in
theorem unitLength_pos {chars : List Nat} (h : chars ≠ []) : 0 < unitLength format chars := by
  obtain ⟨c, cs, rfl⟩ := List.exists_cons_of_ne_nil h
  rw [unitLength_cons]
  have := List.length_pos_of_ne_nil (encode_ne_nil format c)
  omega

variable {maxLength usedLength : Nat} {dst : List Nat}

/-- Characters with room are written. -/
theorem fillDestination_fits (hdst : dst.length = maxLength) {chars : List Nat}
    (h : ¬ Overflows format maxLength usedLength chars) :
    ∃ dst', fillDestination format maxLength chars usedLength dst =
      some (some (usedLength + unitLength format chars), dst') ∧ dst'.length = maxLength := by
  induction chars generalizing usedLength dst with
  | nil => exact ⟨dst, rfl, hdst⟩
  | cons c chars ih =>
    rw [Overflows, unitLength_cons] at h
    have hrest : ¬ Overflows format maxLength (usedLength + (encode format c).length) chars := by
      rw [Overflows]
      omega
    rw [fillDestination, unitLength_cons, ← Nat.add_assoc]
    by_cases hzero : maxLength = 0
    · simp only [hzero, if_true]
      exact hzero ▸ ih hdst hrest
    · simp only [hzero, if_false]
      rw [if_neg (by omega), if_neg (by omega)]
      exact ih (by rw [length_storeCharacters, hdst]) hrest

/-- Characters without room are not, though some may be in the destination. -/
theorem fillDestination_overflows (hdst : dst.length = maxLength) (hused : maxLength ≠ 0 → usedLength ≤ maxLength)
    {chars : List Nat} (h : Overflows format maxLength usedLength chars) :
    ∃ dst', fillDestination format maxLength chars usedLength dst = some (none, dst') ∧ dst'.length = maxLength := by
  obtain ⟨hzero, hroom⟩ := h
  specialize hused hzero
  induction chars generalizing usedLength dst with
  | nil =>
    rw [unitLength_nil] at hroom
    omega
  | cons c chars ih =>
    rw [unitLength_cons] at hroom
    rw [fillDestination]
    simp only [hzero, if_false]
    by_cases hnow : maxLength < usedLength + (encode format c).length
    · exact ⟨dst, if_pos hnow, hdst⟩
    · rw [if_neg hnow, if_neg (by omega)]
      exact ih (by rw [length_storeCharacters, hdst]) (by omega) (by omega)

/-! ## Single characters -/

section Run

variable (T : CanonicalTables) (isHFSPlus : Bool)

/-- The canonical decomposition of a character: that of the tables, or the Jamo of a Hangul
syllable, of which the code takes U+D7A4, which is unassigned, for one; ASCII characters are their own. -/
def canonicalDecomposition (c : Nat) : List Nat :=
  if c < 0x80 ∨ isDecomposableWithFlag T isHFSPlus c = false then [c]
  else if c ≥ 0xAC00 ∧ c ≤ 0xAC00 + 11172 then jamo (c - 0xAC00)
  else fullDecomposition T.toTables c

/-- There is room for the decomposition of a character, and for every mapping on the way. -/
def FitsCharacter (c room : Nat) : Prop :=
  if c ≥ 0xAC00 ∧ c ≤ 0xAC00 + 11172 then (jamo (c - 0xAC00)).length ≤ room else Fits T.toTables c room

variable {T isHFSPlus}

theorem Fits.mono {T : Tables} {c room room' : Nat} (h : Fits T c room) (hle : room ≤ room') : Fits T c room' := by
  induction c using fullDecomposition.induct T generalizing room room' with
  | case1 c hm => exact absurd rfl ((fits_plain hm).mp h).1
  | case2 c chars hne hm =>
    obtain ⟨hchars, hlen⟩ := (fits_plain hm).mp h
    exact (fits_plain hm).mpr ⟨hchars, hlen.trans hle⟩
  | case3 c first rest hm ih =>
    obtain ⟨hlen, hfirst⟩ := (fits_recursive hm).mp h
    exact (fits_recursive hm).mpr ⟨hlen.trans hle, ih hfirst (by omega)⟩

theorem FitsCharacter.mono {c room room' : Nat} (h : FitsCharacter T c room) (hle : room ≤ room') :
    FitsCharacter T c room' := by
  unfold FitsCharacter at h ⊢
  split
  · rw [if_pos ‹_›] at h
    exact h.trans hle
  · rw [if_neg ‹_›] at h
    exact h.mono hle

theorem length_jamo (n : Nat) : (jamo n).length = if n % 28 ≠ 0 then 3 else 2 := by
  rw [jamo]
  split <;> rfl

/-- The code decomposes a character in full when there is room, and else not at all. -/
theorem decomposeCharacter_eq {c : Nat} (room : Nat) (hascii : 0x80 ≤ c)
    (hdec : isDecomposableWithFlag T isHFSPlus c = true) :
    (FitsCharacter T c room → decomposeCharacter T c room = canonicalDecomposition T isHFSPlus c) ∧
      (¬ FitsCharacter T c room → decomposeCharacter T c room = []) := by
  have hor : ¬ (c < 0x80 ∨ isDecomposableWithFlag T isHFSPlus c = false) := by
    rw [hdec]
    simpa using hascii
  rw [FitsCharacter, decomposeCharacter, canonicalDecomposition, if_neg hor]
  split
  · rw [length_jamo]
    exact ⟨fun h => if_neg (by omega), fun h => if_pos (by omega)⟩
  · exact ⟨fun h => h.recursivelyDecompose_eq, fun h => recursivelyDecompose_of_not_fits h⟩

variable (T isHFSPlus) in
theorem canonicalDecomposition_ne_nil (c : Nat) : canonicalDecomposition T isHFSPlus c ≠ [] := by
  rw [canonicalDecomposition]
  split
  · exact List.cons_ne_nil _ _
  · split
    · rw [jamo]
      exact List.cons_ne_nil _ _
    · exact fullDecomposition_ne_nil c

theorem canonicalDecomposition_self {c : Nat} (h : isDecomposableWithFlag T isHFSPlus c = false) :
    canonicalDecomposition T isHFSPlus c = [c] := if_pos (.inr h)

variable (T isHFSPlus) in
/-- The decomposition of every single character fits in the buffer. -/
def SingleFit : Prop := ∀ c, isDecomposableWithFlag T isHFSPlus c = true → FitsCharacter T c maxBufferLength

/-- A character that is no mark is decomposed in full. -/
theorem startOf_eq (hfit : SingleFit T isHFSPlus) (c : Nat) :
    startOf T isHFSPlus c = canonicalDecomposition T isHFSPlus c := by
  rw [startOf]
  by_cases hascii : c < 0x80
  · rw [if_pos hascii, canonicalDecomposition, if_pos (.inl hascii)]
  · rw [if_neg hascii, baseCharacters]
    split
    · next hdec => exact (decomposeCharacter_eq _ (by omega) hdec).1 (hfit c hdec)
    · next hdec => rw [canonicalDecomposition_self (by simpa using hdec)]

/-! ## Runs -/

theorem le_grownSize (length size : Nat) : size ≤ grownSize length size := by
  rw [grownSize]
  split <;> omega

variable (T isHFSPlus) in
/-- What a mark adds to the buffer is its decomposition, if that has room. -/
theorem addMark_eq (b : List Nat × Nat) {c : Nat} (hascii : 0x80 ≤ c) :
    ((isDecomposableWithFlag T isHFSPlus c = true →
          FitsCharacter T c (grownSize b.1.length b.2 - b.1.length)) →
        (addMark T isHFSPlus b c).1 = b.1 ++ canonicalDecomposition T isHFSPlus c) ∧
      (¬ (isDecomposableWithFlag T isHFSPlus c = true →
          FitsCharacter T c (grownSize b.1.length b.2 - b.1.length)) →
        (addMark T isHFSPlus b c).1 = b.1) := by
  rw [addMark]
  by_cases hdec : isDecomposableWithFlag T isHFSPlus c = true
  · simp only [hdec, if_true, forall_const]
    obtain ⟨hfits, hnot⟩ := decomposeCharacter_eq (grownSize b.1.length b.2 - b.1.length) hascii hdec
    exact ⟨fun h => by rw [hfits h], fun h => by rw [hnot h, List.append_nil]⟩
  · refine ⟨fun _ => ?_, fun h => absurd (fun hd => absurd hd hdec) h⟩
    rw [canonicalDecomposition_self (by simpa using hdec)]
    simp only [hdec, Bool.false_eq_true, if_false]

variable (isHFSPlus) in
theorem bufferOf_snoc (size : Nat) (pending : List Nat) {c : Nat} (hmark : IsMark T c) :
    bufferOf T isHFSPlus size (pending ++ [c]) = addMark T isHFSPlus (bufferOf T isHFSPlus size pending) c := by
  cases pending with
  | nil => simp only [List.nil_append, bufferOf, List.foldl_nil, if_pos hmark]
  | cons d pending => rw [List.cons_append, bufferOf, List.foldl_append, bufferOf, List.foldl_cons, List.foldl_nil]

variable (isHFSPlus) in
theorem bufferOf_single (size : Nat) {c : Nat} (hmark : ¬ IsMark T c) :
    bufferOf T isHFSPlus size [c] = (startOf T isHFSPlus c, size) := by
  rw [bufferOf, List.foldl_nil, if_neg hmark]

theorem addMark_ne_nil {b : List Nat × Nat} (h : b.1 ≠ []) (marks : List Nat) :
    (marks.foldl (addMark T isHFSPlus) b).1 ≠ [] := by
  induction marks generalizing b with
  | nil => exact h
  | cons c marks ih => exact ih (List.append_ne_nil_of_left_ne_nil h _)

/-- The buffer of a run is not empty. -/
theorem bufferOf_ne_nil (hfit : SingleFit T isHFSPlus) {size : Nat} (hsize : maxBufferLength ≤ size) {run : List Nat}
    (h : run ≠ []) : (bufferOf T isHFSPlus size run).1 ≠ [] := by
  obtain ⟨c, cs, rfl⟩ := List.exists_cons_of_ne_nil h
  rw [bufferOf]
  refine addMark_ne_nil ?_ cs
  by_cases hmark : IsMark T c
  · have hroom : maxBufferLength ≤ grownSize 0 size - 0 := hsize.trans (le_grownSize 0 size)
    rw [if_pos hmark, (addMark_eq T isHFSPlus ([], size) hmark.1).1 fun hdec => (hfit c hdec).mono hroom,
      List.nil_append]
    exact canonicalDecomposition_ne_nil T isHFSPlus c
  · rw [if_neg hmark, startOf_eq hfit]
    exact canonicalDecomposition_ne_nil T isHFSPlus c

theorem bufferOf_size (size : Nat) (run : List Nat) : size ≤ (bufferOf T isHFSPlus size run).2 := by
  have hfold : ∀ (b : List Nat × Nat) (marks : List Nat), b.2 ≤ (marks.foldl (addMark T isHFSPlus) b).2 := by
    intro b marks
    induction marks generalizing b with
    | nil => exact le_rfl
    | cons c marks ih => exact (le_grownSize _ _).trans (ih (addMark T isHFSPlus b c))
  cases run with
  | nil => exact le_rfl
  | cons c cs =>
    rw [bufferOf]
    refine le_trans ?_ (hfold _ cs)
    split
    · exact le_grownSize _ _
    · exact le_rfl

/-! ## The loop -/

variable {s : DecomposeState} {pending : List Nat} {size : Nat}

variable (T isHFSPlus maxLength) in
/-- The state in which the code has collected `pending`, in a buffer that was of this size before it. -/
structure Collects (s : DecomposeState) (pending : List Nat) (size : Nat) : Prop where
  buffer : s.decompBuffer = (bufferOf T isHFSPlus size pending).1
  bufferSize : s.decompBufferSize = (bufferOf T isHFSPlus size pending).2
  segment : s.segmentLength = widths pending
  destination : s.dst.length = maxLength
  used : maxLength ≠ 0 → s.usedLength ≤ maxLength
  large : maxBufferLength ≤ size

variable (T format maxLength) in
/-- What the code does after the loop leaves this length, and this length in use. -/
def EndsWith (r : Option DecomposeState) (length usedLength : Nat) : Prop :=
  ∃ s, r.bind (finishDecompose T format maxLength) = some s ∧ s.length = length ∧ s.usedLength = usedLength

variable (T format) in
/-- The sort keeps the length. -/
theorem unitLength_sorted (buffer : List Nat) :
    unitLength format (sortedBuffer T buffer) = unitLength format buffer := by
  rw [sortedBuffer]
  split
  · exact unitLength_perm (prioritySort_perm _ _)
  · rfl

theorem processReorderBuffer_fits (hdst : s.dst.length = maxLength)
    (h : ¬ Overflows format maxLength s.usedLength s.decompBuffer) :
    ∃ sorted dst, processReorderBuffer T format maxLength s = some (true, { s with
        decompBuffer := sorted, usedLength := s.usedLength + unitLength format s.decompBuffer, dst }) ∧
      dst.length = maxLength := by
  have hsorted := unitLength_sorted format T s.decompBuffer
  obtain ⟨dst, hfill, hlength⟩ := fillDestination_fits hdst (by rwa [Overflows, hsorted] : ¬ Overflows format maxLength
    s.usedLength (sortedBuffer T s.decompBuffer))
  refine ⟨sortedBuffer T s.decompBuffer, dst, ?_, hlength⟩
  rw [processReorderBuffer, hfill, hsorted]
  rfl

theorem processReorderBuffer_overflows (hdst : s.dst.length = maxLength)
    (hused : maxLength ≠ 0 → s.usedLength ≤ maxLength) (h : Overflows format maxLength s.usedLength s.decompBuffer) :
    ∃ sorted dst, processReorderBuffer T format maxLength s =
        some (false, { s with decompBuffer := sorted, dst }) ∧
      dst.length = maxLength ∧ unitLength format sorted = unitLength format s.decompBuffer := by
  have hsorted := unitLength_sorted format T s.decompBuffer
  obtain ⟨dst, hfill, hlength⟩ := fillDestination_overflows hdst hused (by rwa [Overflows, hsorted] : Overflows format
    maxLength s.usedLength
    (sortedBuffer T s.decompBuffer))
  refine ⟨sortedBuffer T s.decompBuffer, dst, ?_, hlength, hsorted⟩
  rw [processReorderBuffer, hfill]
  rfl

/-- What has no room is not written at the end either. -/
theorem endsWith_overflows (hdst : s.dst.length = maxLength) (hused : maxLength ≠ 0 → s.usedLength ≤ maxLength)
    (h : Overflows format maxLength s.usedLength s.decompBuffer) :
    EndsWith format maxLength T (some s) s.length s.usedLength := by
  obtain ⟨sorted, dst, hprocess, -⟩ := processReorderBuffer_overflows (T := T) hdst hused h
  unfold EndsWith
  rw [Option.bind_some, finishDecompose]
  split
  · exact ⟨{ s with decompBuffer := sorted, dst }, congrArg (Option.map _) hprocess, rfl, rfl⟩
  · exact ⟨s, rfl, rfl, rfl⟩

theorem endsWith_empty (h : s.decompBuffer = []) : EndsWith format maxLength T (some s) s.length s.usedLength :=
  ⟨s, by rw [Option.bind_some, finishDecompose, if_neg (by simp [h])], rfl, rfl⟩

variable (format) in
/-- A run that was collected is written, or has no room and is left as it is. -/
theorem Collects.flush (hfit : SingleFit T isHFSPlus) (h : Collects maxLength T isHFSPlus s pending size) :
    (∃ s', flush T format maxLength s = some (true, s') ∧
        Collects maxLength T isHFSPlus s' [] (bufferOf T isHFSPlus size pending).2 ∧
        s'.length = s.length - widths pending ∧
        s'.usedLength = s.usedLength + unitLength format (bufferOf T isHFSPlus size pending).1 ∧
        (pending ≠ [] → ¬ Overflows format maxLength s.usedLength (bufferOf T isHFSPlus size pending).1)) ∨
      (pending ≠ [] ∧ Overflows format maxLength s.usedLength (bufferOf T isHFSPlus size pending).1 ∧
        ∃ s', Decomposing.flush T format maxLength s = some (false, s') ∧
          EndsWith format maxLength T (some s') s.length s.usedLength) := by
  by_cases hnil : pending = []
  · subst hnil
    have hbuffer : s.decompBuffer = [] := h.buffer
    refine .inl ⟨s, ?_, h, rfl, rfl, fun hne => absurd rfl hne⟩
    rw [Decomposing.flush, if_neg (by simp [hbuffer])]
  · have hpos : s.decompBuffer.length > 0 := by
      rw [h.buffer]
      exact List.length_pos_of_ne_nil (bufferOf_ne_nil hfit h.large hnil)
    by_cases hover : Overflows format maxLength s.usedLength (bufferOf T isHFSPlus size pending).1
    · refine .inr ⟨hnil, hover, ?_⟩
      rw [← h.buffer] at hover
      obtain ⟨sorted, dst, hprocess, hdst, hsorted⟩ :=
        processReorderBuffer_overflows (T := T) h.destination h.used hover
      refine ⟨{ s with decompBuffer := sorted, dst }, ?_, ?_⟩
      · rw [Decomposing.flush, if_pos hpos, hprocess]
        rfl
      · refine endsWith_overflows (s := { s with decompBuffer := sorted, dst }) hdst h.used ?_
        rwa [Overflows, hsorted]
    · have hover' := hover
      rw [← h.buffer] at hover'
      obtain ⟨sorted, dst, hprocess, hdst⟩ := processReorderBuffer_fits (T := T) h.destination hover'
      refine .inl ⟨{ s with
          length := s.length - s.segmentLength, segmentLength := 0, decompBuffer := []
          usedLength := s.usedLength + unitLength format s.decompBuffer, dst },
        ?_, ⟨rfl, h.bufferSize, rfl, hdst, fun hzero => ?_, ?_⟩, ?_, ?_, fun _ => hover⟩
      · rw [Decomposing.flush, if_pos hpos, hprocess]
        exact congrArg some (if_pos rfl)
      · show s.usedLength + unitLength format s.decompBuffer ≤ maxLength
        rw [Overflows] at hover'
        omega
      · exact h.large.trans (bufferOf_size size pending)
      · show s.length - s.segmentLength = _
        rw [h.segment]
      · show s.usedLength + unitLength format s.decompBuffer = _
        rw [h.buffer]

/-- The runs that are written, of one that is collected and others. -/
theorem writeRuns_emit (size used : Nat) (pending : List Nat) (runs : List (List Nat)) :
    (pending ≠ [] → Overflows format maxLength used (bufferOf T isHFSPlus size pending).1 →
      writeRuns T isHFSPlus format maxLength size used (emit pending runs) = ([], used)) ∧
    ((pending ≠ [] → ¬ Overflows format maxLength used (bufferOf T isHFSPlus size pending).1) →
      (writeRuns T isHFSPlus format maxLength size used (emit pending runs)).1.flatten =
        pending ++ (writeRuns T isHFSPlus format maxLength (bufferOf T isHFSPlus size pending).2
          (used + unitLength format (bufferOf T isHFSPlus size pending).1) runs).1.flatten ∧
      (writeRuns T isHFSPlus format maxLength size used (emit pending runs)).2 =
        (writeRuns T isHFSPlus format maxLength (bufferOf T isHFSPlus size pending).2
          (used + unitLength format (bufferOf T isHFSPlus size pending).1) runs).2) := by
  by_cases hnil : pending = []
  · subst hnil
    exact ⟨fun h => absurd rfl h, fun _ => ⟨rfl, rfl⟩⟩
  · rw [emit, if_neg hnil, writeRuns]
    refine ⟨fun _ hover => if_pos hover, fun hroom => ?_⟩
    rw [if_neg (hroom hnil)]
    exact ⟨rfl, rfl⟩

variable (T isHFSPlus format maxLength) in
/-- What the code does after the loop leaves these runs written behind what was. -/
def EndsAfter (r : Option DecomposeState) (s : DecomposeState) (size : Nat) (runs : List (List Nat)) : Prop :=
  EndsWith format maxLength T r
    (s.length - widths (writeRuns T isHFSPlus format maxLength size s.usedLength runs).1.flatten)
    (writeRuns T isHFSPlus format maxLength size s.usedLength runs).2

/-- No run is written when the first has no room. -/
theorem endsAfter_overflows {r : Option DecomposeState} {run : List Nat} {runs : List (List Nat)}
    (hover : Overflows format maxLength s.usedLength (bufferOf T isHFSPlus size run).1)
    (h : EndsWith format maxLength T r s.length s.usedLength) :
    EndsAfter format maxLength T isHFSPlus r s size (run :: runs) := by
  rw [EndsAfter, writeRuns, if_pos hover]
  exact h

/-- One run is written, and then others. -/
theorem endsAfter_emit {r : Option DecomposeState} (s' : DecomposeState) {runs : List (List Nat)}
    (hlength : s'.length = s.length - widths pending)
    (hused : s'.usedLength = s.usedLength + unitLength format (bufferOf T isHFSPlus size pending).1)
    (hroom : pending ≠ [] → ¬ Overflows format maxLength s.usedLength (bufferOf T isHFSPlus size pending).1)
    (h : EndsAfter format maxLength T isHFSPlus r s' (bufferOf T isHFSPlus size pending).2 runs) :
    EndsAfter format maxLength T isHFSPlus r s size (emit pending runs) := by
  obtain ⟨hruns, hend⟩ := (writeRuns_emit size s.usedLength pending runs).2 hroom
  rw [EndsAfter, hlength, hused] at h
  rwa [EndsAfter, hruns, hend, widths_append, ← Nat.sub_sub]

/-- The loop comes to an end with a run collected. -/
theorem Collects.endsAfter (hfit : SingleFit T isHFSPlus) (h : Collects maxLength T isHFSPlus s pending size) :
    EndsAfter format maxLength T isHFSPlus (some s) s size (emit pending []) := by
  by_cases hnil : pending = []
  · subst hnil
    exact endsWith_empty h.buffer
  have hpos : s.decompBuffer.length > 0 := by
    rw [h.buffer]
    exact List.length_pos_of_ne_nil (bufferOf_ne_nil hfit h.large hnil)
  by_cases hover : Overflows format maxLength s.usedLength (bufferOf T isHFSPlus size pending).1
  · rw [emit, if_neg hnil]
    refine endsAfter_overflows hover (endsWith_overflows h.destination h.used ?_)
    rwa [h.buffer]
  · have hover' := hover
    rw [← h.buffer] at hover'
    obtain ⟨sorted, dst, hprocess, -⟩ := processReorderBuffer_fits (T := T) h.destination hover'
    refine endsAfter_emit { s with
      length := s.length - s.segmentLength, decompBuffer := sorted
      usedLength := s.usedLength + unitLength format s.decompBuffer, dst } ?_ ?_ (fun _ => hover) ?_
    · show s.length - s.segmentLength = _
      rw [h.segment]
    · show s.usedLength + unitLength format s.decompBuffer = _
      rw [h.buffer]
    · have hend : (some s).bind (finishDecompose T format maxLength) = some { s with
          length := s.length - s.segmentLength, decompBuffer := sorted
          usedLength := s.usedLength + unitLength format s.decompBuffer, dst } := by
        rw [Option.bind_some, finishDecompose, if_pos hpos, hprocess]
        exact congrArg some (if_pos rfl)
      exact ⟨_, hend, rfl, rfl⟩

variable (T isHFSPlus format maxLength) in
/-- A character that alone is a run is written at once, or has no room. -/
def WritesAlone (r : Option (Bool × DecomposeState)) (s : DecomposeState) (size c : Nat) : Prop :=
  (Overflows format maxLength s.usedLength (startOf T isHFSPlus c) ∧
      ∃ s', r = some (false, s') ∧ EndsWith format maxLength T (some s') s.length s.usedLength) ∨
    (¬ Overflows format maxLength s.usedLength (startOf T isHFSPlus c) ∧
      ∃ s', r = some (true, s') ∧ Collects maxLength T isHFSPlus s' [] size ∧
        s'.length = s.length - widthOf c ∧ s'.usedLength = s.usedLength + unitLength format (startOf T isHFSPlus c))

theorem asciiStep_writesAlone {s' : DecomposeState} {c : Nat}
    (hflush : Decomposing.flush T format maxLength s = some (true, s'))
    (h : Collects maxLength T isHFSPlus s' [] size) (hascii : c < 0x80) :
    WritesAlone format maxLength T isHFSPlus (asciiStep T format maxLength c s) s' size c := by
  have hstart : startOf T isHFSPlus c = [c] := if_pos hascii
  have hlength : unitLength format [c] = 1 := by rw [unitLength_cons, length_encode_ascii hascii, unitLength_nil]
  have hwidth : widthOf c = 1 := if_neg (by omega)
  rw [WritesAlone, hstart, hlength, hwidth, Overflows, hlength, asciiStep, hflush, Option.bind_some, if_pos rfl]
  dsimp only
  by_cases hzero : maxLength = 0
  · rw [if_neg (by omega)]
    exact .inr ⟨fun hover => hover.1 hzero, _, rfl, ⟨h.buffer, h.bufferSize, h.segment, h.destination,
      fun hne => absurd hzero hne, h.large⟩, rfl, rfl⟩
  · have hused := h.used hzero
    have hdst := h.destination
    rw [if_pos (Nat.pos_of_ne_zero hzero)]
    by_cases hfull : s'.usedLength ≥ maxLength
    · rw [if_pos hfull]
      exact .inl ⟨⟨hzero, by omega⟩, s', rfl, endsWith_empty h.buffer⟩
    · rw [if_neg hfull, if_neg (by omega)]
      refine .inr ⟨fun hover => by omega, _, rfl, ⟨h.buffer, h.bufferSize, h.segment, ?_, fun _ => ?_, h.large⟩,
        rfl, rfl⟩
      · exact List.length_set.trans hdst
      · show s'.usedLength + 1 ≤ maxLength
        omega

theorem baseStep_writesAlone {s' : DecomposeState} {c : Nat}
    (hflush : Decomposing.flush T format maxLength s = some (true, s'))
    (h : Collects maxLength T isHFSPlus s' [] size) (hascii : ¬ c < 0x80)
    (hone : (startOf T isHFSPlus c).length = 1) :
    WritesAlone format maxLength T isHFSPlus (baseStep T isHFSPlus format maxLength true c s) s' size c := by
  have hstart : startOf T isHFSPlus c = baseCharacters T isHFSPlus c := if_neg hascii
  rw [hstart] at hone
  rw [WritesAlone, hstart, baseStep, hflush, Option.bind_some, if_pos rfl]
  simp only [hone, or_true, if_true]
  by_cases hover : Overflows format maxLength s'.usedLength (baseCharacters T isHFSPlus c)
  · obtain ⟨dst, hfill, hdst⟩ := fillDestination_overflows h.destination h.used hover
    refine .inl ⟨hover, { s' with decompBuffer := baseCharacters T isHFSPlus c, dst }, ?_, ?_⟩
    · rw [hfill]
      rfl
    · exact endsWith_overflows (s := { s' with decompBuffer := baseCharacters T isHFSPlus c, dst }) hdst h.used hover
  · obtain ⟨dst, hfill, hdst⟩ := fillDestination_fits h.destination hover
    refine .inr ⟨hover, { s' with
      usedLength := s'.usedLength + unitLength format (baseCharacters T isHFSPlus c), dst
      length := s'.length - widthOf c, decompBuffer := [] },
      ?_, ⟨rfl, h.bufferSize, h.segment, hdst, fun hzero => ?_, h.large⟩, rfl, rfl⟩
    · rw [hfill]
      rfl
    · show s'.usedLength + unitLength format (baseCharacters T isHFSPlus c) ≤ maxLength
      rw [Overflows] at hover
      omega

/-- A character that alone is a run, and what follows it. -/
theorem WritesAlone.endsAfter {r : Option (Bool × DecomposeState)} {next : DecomposeState → Option DecomposeState}
    {c : Nat} {runs : List (List Nat)} (h : WritesAlone format maxLength T isHFSPlus r s size c) (hmark : ¬ IsMark T c)
    (hnext : ∀ s', Collects maxLength T isHFSPlus s' [] size →
      EndsAfter format maxLength T isHFSPlus (next s') s' size runs) :
    EndsAfter format maxLength T isHFSPlus (r.bind fun r => if r.1 then next r.2 else some r.2) s size
      ([c] :: runs) := by
  have hbuffer := bufferOf_single isHFSPlus size hmark
  obtain ⟨hover, s', rfl, hend⟩ | ⟨hroom, s', rfl, hcollects, hlength, hused⟩ := h
  · refine endsAfter_overflows (by rwa [hbuffer]) ?_
    exact hend
  · show EndsAfter format maxLength T isHFSPlus _ s size (emit [c] runs)
    refine endsAfter_emit s' ?_ ?_ (fun _ => by rwa [hbuffer]) ?_
    · rw [hlength, widths_cons, widths_nil, Nat.add_zero]
    · rw [hused, hbuffer]
    · rw [hbuffer]
      exact hnext s' hcollects

/-- A mark is collected. -/
theorem Collects.mark (h : Collects maxLength T isHFSPlus s pending size) {c : Nat} (hmark : IsMark T c) :
    Collects maxLength T isHFSPlus (markStep T isHFSPlus c s) (pending ++ [c]) size := by
  have hsnoc := bufferOf_snoc isHFSPlus size pending hmark
  refine ⟨?_, ?_, ?_, h.destination, h.used, h.large⟩
  · rw [hsnoc, addMark, ← h.buffer, ← h.bufferSize]
    rfl
  · rw [hsnoc, addMark, ← h.buffer, ← h.bufferSize]
    rfl
  · rw [widths_append, widths_cons, widths_nil, ← h.segment]
    rfl

/-- A character that is decomposed to more than one is collected, behind a run that was written. -/
theorem baseStep_collects {s' : DecomposeState} {c : Nat}
    (hflush : Decomposing.flush T format maxLength s = some (true, s'))
    (h : Collects maxLength T isHFSPlus s' [] size) (hascii : ¬ c < 0x80) (hmark : ¬ IsMark T c)
    (hmany : (startOf T isHFSPlus c).length ≠ 1) :
    ∃ s'', baseStep T isHFSPlus format maxLength true c s = some (true, s'') ∧
      Collects maxLength T isHFSPlus s'' [c] size ∧ s''.length = s'.length ∧ s''.usedLength = s'.usedLength := by
  have hbuffer := bufferOf_single isHFSPlus size hmark
  have hstart : startOf T isHFSPlus c = baseCharacters T isHFSPlus c := if_neg hascii
  rw [hstart] at hmany hbuffer
  rw [baseStep, hflush, Option.bind_some, if_pos rfl]
  refine ⟨{ s' with
    decompBuffer := baseCharacters T isHFSPlus c, segmentLength := s'.segmentLength + widthOf c }, ?_, ?_, rfl, rfl⟩
  · simp [hmany]
  · refine ⟨?_, ?_, ?_, h.destination, h.used, h.large⟩
    · rw [hbuffer]
    · rw [hbuffer]
      exact h.bufferSize
    · show s'.segmentLength + widthOf c = _
      rw [h.segment]
      simp

variable (format) in
/-- The loop writes the runs one after the other while they have room. -/
theorem decomposeLoop_endsAfter (hfit : SingleFit T isHFSPlus) (src : List UniChar)
    (h : Collects maxLength T isHFSPlus s pending size) :
    EndsAfter format maxLength T isHFSPlus (decomposeLoop T isHFSPlus format maxLength true src s) s size
      (runsFrom T isHFSPlus pending (characters format src)) := by
  induction hn : src.length using Nat.strong_induction_on generalizing src s pending size with
  | _ n ih =>
    cases src with
    | nil =>
      rw [decomposeLoop]
      exact h.endsAfter hfit
    | cons first src =>
      rw [List.length_cons] at hn
      rw [decomposeLoop]
      by_cases hascii : first.toNat < 0x80
      · have hmark : ¬ IsMark T first.toNat := fun hm => by have := hm.1; omega
        have hone : (startOf T isHFSPlus first.toNat).length = 1 := by
          rw [startOf, if_pos hascii, List.length_singleton]
        rw [if_pos hascii, characters_cons (readCharacter_ascii hascii src), runsFrom, if_neg hmark, if_pos hone]
        rcases h.flush format hfit with ⟨s', hflush, h', hlength, hused, hroom⟩ | ⟨hne, hover, s', hflush, hend⟩
        · refine endsAfter_emit s' hlength hused hroom ?_
          exact (asciiStep_writesAlone hflush h' hascii).endsAfter hmark fun s'' h'' =>
            ih src.length (by omega) src h'' rfl
        · rw [emit, if_neg hne, asciiStep, hflush]
          exact endsAfter_overflows hover hend
      · rw [if_neg hascii]
        split
        · next hread =>
          rw [readCharacter_none hread]
          exact h.endsAfter hfit
        · next c rest hread =>
          obtain ⟨-, -, hwidth, hvalue⟩ := readCharacter_some hread
          have hrest := length_readCharacter hread
          have hlarge : ¬ c < 0x80 := by omega
          rw [characters_cons hread, runsFrom]
          by_cases hclass : T.combiningClass c = 0
          · have hmark : ¬ IsMark T c := fun hm => hm.2 hclass
            rw [if_neg (by simp [hclass]), if_neg hmark]
            rcases h.flush format hfit with ⟨s', hflush, h', hlength, hused, hroom⟩ | ⟨hne, hover, s', hflush, hend⟩
            · by_cases hone : (startOf T isHFSPlus c).length = 1
              · rw [if_pos hone]
                refine endsAfter_emit s' hlength hused hroom ?_
                exact (baseStep_writesAlone hflush h' hlarge hone).endsAfter hmark fun s'' h'' =>
                  ih rest.length (by omega) rest h'' rfl
              · rw [if_neg hone]
                refine endsAfter_emit s' hlength hused hroom ?_
                obtain ⟨s'', hstep, h'', hlength', hused'⟩ := baseStep_collects hflush h' hlarge hmark hone
                have hrun := ih rest.length (by omega) rest h'' rfl
                rw [EndsAfter, hlength', hused'] at hrun
                rw [hstep]
                exact hrun
            · rw [← apply_ite (emit pending), emit, if_neg hne, baseStep, hflush]
              exact endsAfter_overflows hover hend
          · have hmark : IsMark T c := ⟨by omega, hclass⟩
            rw [if_pos (by simp [hclass]), if_pos hmark]
            exact ih rest.length (by omega) rest (h.mark hmark) rfl

end Run

end CFLite.Strings.Decomposing
