import CFLite.Strings.LiteralSearch

/-!
# The bounds of lines

`CFStringGetLineBounds` looks back from a range for the end of the line before it,
and from the last unit of the range for the end of the line that holds it. A line
ends after LF, CR, CR LF, NEL, LS or PS.

* `lineBeginIndex_spec`, `endOfContents_spec`: the two scans;
* `getLineBounds_spec`: the bounds are those of the fewest whole lines that cover
  the range;
* `linesFrom_spec`: a loop over the lines comes to every unit once.
-/

namespace CFLite.Strings

open Framework

/-! ## The code -/

/-- `CarriageReturn` -/
def carriageReturn : UniChar := 0x0D

/-- `NewLine` -/
def newLine : UniChar := 0x0A

/-- `NextLine` -/
def nextLine : UniChar := 0x85

/-- `LineSeparator` -/
def lineSeparator : UniChar := 0x2028

/-- `ParaSeparator` -/
def paraSeparator : UniChar := 0x2029

def isALineSeparatorTypeCharacter (ch : UniChar) (includeLineEndings : Bool) : Bool :=
  if ch > carriageReturn ∧ ch < nextLine then false
  else ch = newLine || ch = carriageReturn || ch = paraSeparator ||
    (includeLineEndings && (ch = nextLine || ch = lineSeparator))

/-- `__CFStringGetCharacterFromInlineBufferAux`: past the range it is U+FFFF. -/
def InlineBuffer.getAux (map : CharToUniChar) (buf : InlineBuffer) (idx : Int) : UniChar :=
  if idx < 0 ∨ idx ≥ buf.length then 0xFFFF else buf.get map idx.toNat

section Scans

variable (get getAux : Int → UniChar) (len : Nat) (includeLineEndings : Bool)

/-- The scan back, from `buf_idx + 1` on. -/
def scanBack : Nat → Nat
  | 0 => 0
  | bufIdx + 1 =>
    if isALineSeparatorTypeCharacter (get bufIdx) includeLineEndings then bufIdx + 1 else scanBack bufIdx

/-- `*lineBeginIndex` -/
def lineBeginIndex (location : Nat) : Nat :=
  if location = 0 then 0
  else
    -- between CR and LF
    scanBack get includeLineEndings
      (if get location = newLine ∧ get (location - 1) = carriageReturn then location - 1 else location)

/-- The scan forward: the end of the contents and the length of the separator, none
where the rounds do not suffice. -/
def scanForward : (rounds : Nat) → (bufIdx : Int) → Option (Int × Int)
  | 0, _ => none
  | rounds + 1, bufIdx =>
    let ch := getAux bufIdx
    if isALineSeparatorTypeCharacter ch includeLineEndings then
      some (bufIdx, if ch = carriageReturn ∧ getAux (bufIdx + 1) = newLine then 2 else 1)
    else if bufIdx ≥ len then some (len, 0)
    else scanForward rounds (bufIdx + 1)

/-- `endOfContents` and `lineSeparatorLength`. -/
def endOfContents (location length rounds : Nat) : Option (Int × Int) :=
  let bufIdx : Int := (location : Int) + length - (if length ≠ 0 then 1 else 0)
  if getAux bufIdx = newLine then
    some (if getAux (bufIdx - 1) = carriageReturn then (bufIdx - 1, 2) else (bufIdx, 1))
  else scanForward getAux len includeLineEndings rounds bufIdx

end Scans

/-- What `__CFStringGetLineOrParagraphBounds` gives. -/
structure LineBounds where
  lineBeginIndex : Int
  lineEndIndex : Int
  contentsEndIndex : Int
  deriving DecidableEq

def getLineOrParagraphBounds (map : CharToUniChar) (string : CFString) (location length : Nat)
    (includeLineEndings : Bool) (junk1 junk2 : List UniChar) (rounds : Nat) : Option LineBounds :=
  let len := string.getLength
  let start := lineBeginIndex ((initInlineBuffer string 0 len junk1).getAt map) includeLineEndings location
  (endOfContents ((initInlineBuffer string 0 len junk2).getAux map) len includeLineEndings location length
    rounds).map fun (endOfContents, lineSeparatorLength) => ⟨start, endOfContents + lineSeparatorLength, endOfContents⟩

/-- `CFStringGetLineBounds` -/
def getLineBounds (map : CharToUniChar) (string : CFString) (location length : Nat) (junk1 junk2 : List UniChar)
    (rounds : Nat) : Option LineBounds :=
  getLineOrParagraphBounds map string location length true junk1 junk2 rounds

/-! ## Lines -/

/-- The units that end a line. -/
def IsTerminator (unit : UniChar) : Prop :=
  unit = newLine ∨ unit = carriageReturn ∨ unit = nextLine ∨ unit = lineSeparator ∨ unit = paraSeparator

theorem isALineSeparatorTypeCharacter_iff (unit : UniChar) :
    isALineSeparatorTypeCharacter unit true = true ↔ IsTerminator unit := by
  unfold isALineSeparatorTypeCharacter IsTerminator
  split
  · rename_i hplain
    refine ⟨nofun, ?_⟩
    rintro (rfl | rfl | rfl | rfl | rfl) <;> exact absurd hplain (by decide)
  · simp only [Bool.true_and, Bool.or_eq_true, decide_eq_true_eq]
    tauto

/-- Where a line begins: at 0, or after the end of a line, which CR LF is only once. -/
def LineStart (units : List UniChar) (s : Nat) : Prop :=
  s ≤ units.length ∧ (s = 0 ∨ ∃ i, s = i + 1 ∧ IsTerminator (units.getD i 0) ∧
    ¬(units.getD i 0 = carriageReturn ∧ units.getD (i + 1) 0 = newLine))

/-- What ends a line of the contents up to `c`: nothing at the end of the string, one
unit, or CR LF. -/
def Terminated (units : List UniChar) (c e : Nat) : Prop :=
  (e = c ∧ c = units.length) ∨
  (e = c + 1 ∧ c < units.length ∧ IsTerminator (units.getD c 0) ∧
    ¬(units.getD c 0 = carriageReturn ∧ units.getD (c + 1) 0 = newLine)) ∨
  (e = c + 2 ∧ c + 1 < units.length ∧ units.getD c 0 = carriageReturn ∧ units.getD (c + 1) 0 = newLine)

/-- The last unit of a range, or the one after an empty range. -/
def lastIndex (location length : Nat) : Nat := if length = 0 then location else location + length - 1

/-- The fewest whole lines that cover a range: from the last beginning of a line up
to the range to the first one past its last unit, and the end of the contents of the
last line. -/
structure CoversLines (units : List UniChar) (location length b e c : Nat) : Prop where
  start : LineStart units b
  start_le : b ≤ location
  start_last : ∀ s, LineStart units s → s ≤ location → s ≤ b
  covers : location + length ≤ e
  past : lastIndex location length < units.length → lastIndex location length < e
  stop : e = units.length ∨ LineStart units e
  stop_first : ∀ s, LineStart units s → lastIndex location length < s → e ≤ s
  terminated : Terminated units c e
  contents : ∀ s, LineStart units s → s ≤ lastIndex location length →
    (∀ s', LineStart units s' → s' ≤ lastIndex location length → s' ≤ s) →
      s ≤ c ∧ ∀ i, s ≤ i → i < c → ¬IsTerminator (units.getD i 0)

/-! ## The scans -/

/-- What the two inline buffers give of a string. -/
structure ReadsUnits (units : List UniChar) (get getAux : Int → UniChar) : Prop where
  get_eq : ∀ i : Nat, get i = units.getD i 0
  aux_eq : ∀ i : Nat, i < units.length → getAux i = units.getD i 0
  aux_out : ∀ idx : Int, idx < 0 ∨ units.length ≤ idx → getAux idx = 0xFFFF

section Spec

variable {units : List UniChar} {get getAux : Int → UniChar}

/-- Past the end there is no terminator. -/
theorem lt_of_isTerminator {i : Nat} (h : IsTerminator (units.getD i 0)) : i < units.length := by
  by_contra hge
  rw [List.getD_eq_default _ _ (Nat.not_lt.mp hge)] at h
  exact absurd h (by unfold IsTerminator; decide)

/-- After a terminator a line begins, or after the LF that follows it. -/
theorem lineStart_after {i : Nat} (h : IsTerminator (units.getD i 0)) :
    LineStart units (i + 1) ∨
      units.getD i 0 = carriageReturn ∧ units.getD (i + 1) 0 = newLine ∧ LineStart units (i + 2) := by
  have hlt := lt_of_isTerminator h
  by_cases hpair : units.getD i 0 = carriageReturn ∧ units.getD (i + 1) 0 = newLine
  · have hnext : IsTerminator (units.getD (i + 1) 0) := .inl hpair.2
    refine .inr ⟨hpair.1, hpair.2, lt_of_isTerminator hnext, .inr ⟨i + 1, rfl, hnext, ?_⟩⟩
    rw [hpair.2]
    exact fun h => absurd h.1 (by decide)
  · exact .inl ⟨hlt, .inr ⟨i, rfl, h, hpair⟩⟩

theorem scanBack_spec (hreads : ReadsUnits units get getAux) (n : Nat) :
    scanBack get true n ≤ n ∧
      (scanBack get true n = 0 ∨ ∃ i, scanBack get true n = i + 1 ∧ IsTerminator (units.getD i 0)) ∧
      ∀ i, scanBack get true n ≤ i → i < n → ¬IsTerminator (units.getD i 0) := by
  induction n with
  | zero => exact ⟨Nat.le_refl 0, .inl rfl, nofun⟩
  | succ bufIdx ih =>
    rw [scanBack, hreads.get_eq]
    split
    · rename_i hsep
      exact ⟨Nat.le_refl _, .inr ⟨bufIdx, rfl, (isALineSeparatorTypeCharacter_iff _).mp hsep⟩, fun i _ _ => by omega⟩
    · rename_i hsep
      refine ⟨Nat.le_succ_of_le ih.1, ih.2.1, fun i hle hlt => ?_⟩
      rcases Nat.eq_or_lt_of_le (Nat.le_of_lt_succ hlt) with rfl | hlt
      · exact fun h => hsep ((isALineSeparatorTypeCharacter_iff _).mpr h)
      · exact ih.2.2 i hle hlt

/-- The scan back comes to the last beginning of a line. -/
theorem lineBeginIndex_spec (hreads : ReadsUnits units get getAux) {location : Nat} (h : location ≤ units.length) :
    LineStart units (lineBeginIndex get true location) ∧ lineBeginIndex get true location ≤ location ∧
      ∀ s, LineStart units s → s ≤ location → s ≤ lineBeginIndex get true location := by
  -- a line begins after a terminator that no LF follows
  have hstart : ∀ n, n ≤ location →
      (∀ i, n = i + 1 → ¬(units.getD i 0 = carriageReturn ∧ units.getD (i + 1) 0 = newLine)) →
      LineStart units (scanBack get true n) := by
    intro n hn hsplit
    obtain ⟨hle, hbegin, hplain⟩ := scanBack_spec hreads n
    refine ⟨by omega, hbegin.imp_right ?_⟩
    rintro ⟨i, hi, hterm⟩
    refine ⟨i, hi, hterm, ?_⟩
    rcases Nat.eq_or_lt_of_le hle with heq | hlt
    · exact hsplit i (heq.symm.trans hi)
    · exact fun hpair => hplain (i + 1) (by omega) (by omega) (.inl hpair.2)
  have hlast : ∀ n s, LineStart units s → s ≤ n → s ≤ scanBack get true n := by
    intro n s hs hle
    rcases hs.2 with rfl | ⟨i, rfl, hterm, -⟩
    · exact Nat.zero_le _
    · by_contra hlt
      exact (scanBack_spec hreads n).2.2 i (by omega) (by omega) hterm
  unfold lineBeginIndex
  split
  · rename_i hzero
    subst hzero
    exact ⟨⟨h, .inl rfl⟩, Nat.le_refl 0, fun s _ hs => hs⟩
  · rename_i hpos
    obtain ⟨k, rfl⟩ := Nat.exists_eq_succ_of_ne_zero hpos
    have hback : ((k.succ : Nat) : Int) - 1 = (k : Nat) := by omega
    rw [hback, hreads.get_eq, hreads.get_eq]
    split
    · rename_i hpair
      refine ⟨hstart _ (Nat.sub_le _ _) ?_, (scanBack_spec hreads _).1.trans (Nat.sub_le _ _), fun s hs hle => ?_⟩
      · rintro i hi ⟨-, hnext⟩
        rw [show i + 1 = k by omega, hpair.2] at hnext
        exact absurd hnext (by decide)
      · refine hlast _ s hs ?_
        rcases hs.2 with rfl | ⟨i, rfl, -, hsplit⟩
        · exact Nat.zero_le _
        · by_contra hlt
          obtain rfl : i = k := by omega
          exact hsplit ⟨hpair.2, hpair.1⟩
    · rename_i hpair
      refine ⟨hstart _ (Nat.le_refl _) ?_, (scanBack_spec hreads _).1, fun s hs hle => hlast _ s hs hle⟩
      intro i hi hsplit
      obtain rfl : k = i := Nat.succ.inj hi
      exact hpair ⟨hsplit.2, hsplit.1⟩

/-- The scan forward stops at the first terminator, or at the end. -/
theorem scanForward_spec (hreads : ReadsUnits units get getAux) {rounds idx : Nat} (hidx : idx ≤ units.length)
    (hrounds : units.length - idx < rounds) :
    ∃ c k : Nat, scanForward getAux units.length true rounds idx = some (((c : Nat) : Int), ((k : Nat) : Int)) ∧
      idx ≤ c ∧ (∀ i, idx ≤ i → i < c → ¬IsTerminator (units.getD i 0)) ∧ Terminated units c (c + k) := by
  induction rounds generalizing idx with
  | zero => omega
  | succ rounds ih =>
    rw [scanForward]
    rcases Nat.eq_or_lt_of_le hidx with rfl | hlt
    · rw [hreads.aux_out _ (.inr (Int.le_refl _))]
      refine ⟨units.length, 0, ?_, Nat.le_refl _, fun i _ _ => by omega, .inl ⟨rfl, rfl⟩⟩
      rw [if_neg (by decide), if_pos (Int.le_refl _)]
      rfl
    · rw [hreads.aux_eq _ hlt]
      split
      · rename_i hsep
        have hterm := (isALineSeparatorTypeCharacter_iff _).mp hsep
        have hnext : getAux ((idx : Nat) + 1) = newLine ↔ units.getD (idx + 1) 0 = newLine := by
          rcases Nat.lt_or_ge (idx + 1) units.length with hin | hout
          · rw [← Nat.cast_succ, hreads.aux_eq _ hin]
          · rw [hreads.aux_out _ (.inr (by omega)), List.getD_eq_default _ _ hout]
            decide
        by_cases hpair : units.getD idx 0 = carriageReturn ∧ units.getD (idx + 1) 0 = newLine
        · refine ⟨idx, 2, ?_, Nat.le_refl _, fun i _ _ => by omega, .inr (.inr ⟨rfl, ?_, hpair⟩)⟩
          · rw [if_pos ⟨hpair.1, hnext.mpr hpair.2⟩]
            rfl
          · exact lt_of_isTerminator (.inl hpair.2)
        · refine ⟨idx, 1, ?_, Nat.le_refl _, fun i _ _ => by omega, .inr (.inl ⟨rfl, hlt, hterm, hpair⟩)⟩
          rw [if_neg fun h => hpair ⟨h.1, hnext.mp h.2⟩]
          rfl
      · rename_i hsep
        obtain ⟨c, k, heq, hle, hplain, hend⟩ := @ih (idx + 1) hlt (by omega)
        rw [if_neg (by omega)]
        refine ⟨c, k, heq, by omega, fun i hi hic => ?_, hend⟩
        rcases Nat.eq_or_lt_of_le hi with rfl | hi
        · exact fun h => hsep ((isALineSeparatorTypeCharacter_iff _).mpr h)
        · exact hplain i hi hic

/-- What the last line holds up to `c`, where no unit from the last one of the range
up to `c` ends a line, and a CR LF before does not end past it. -/
theorem plain_of_lineStart {p s c : Nat} (hlast : ∀ s', LineStart units s' → s' ≤ p → s' ≤ s)
    (hplain : ∀ i, p ≤ i → i < c → ¬IsTerminator (units.getD i 0))
    (hpair : ∀ i, i + 1 = p → i < c → units.getD i 0 = carriageReturn → units.getD p 0 ≠ newLine) :
    ∀ i, s ≤ i → i < c → ¬IsTerminator (units.getD i 0) := by
  intro i hi hic hterm
  rcases Nat.lt_or_ge i p with hlt | hge
  · rcases lineStart_after hterm with hstart | ⟨hcr, hlf, hstart⟩
    · have := hlast _ hstart hlt
      omega
    · rcases Nat.eq_or_lt_of_le (show i + 1 ≤ p from hlt) with heq | hlt'
      · exact hpair i heq hic hcr (heq ▸ hlf)
      · have := hlast _ hstart hlt'
        omega
  · exact hplain i hge hic hterm

/-- The end of a line of which no terminator ends before. -/
theorem stop_of_terminated {p c e : Nat} (hterm : Terminated units c e)
    (hplain : ∀ i, p ≤ i → i < c → ¬IsTerminator (units.getD i 0)) :
    e ≤ units.length ∧ (e = units.length ∨ LineStart units e) ∧ ∀ s, LineStart units s → p < s → e ≤ s := by
  have hafter : ∀ s, LineStart units s → p < s → c + 1 ≤ s ∧ IsTerminator (units.getD (s - 1) 0) := by
    rintro s ⟨-, rfl | ⟨i, rfl, hi, -⟩⟩ hlt
    · omega
    · refine ⟨?_, hi⟩
      by_contra hle
      exact hplain i (by omega) (by omega) hi
  rcases hterm with ⟨rfl, rfl⟩ | ⟨rfl, hlt, hc, hpair⟩ | ⟨rfl, hlt, hcr, hlf⟩
  · refine ⟨Nat.le_refl _, .inl rfl, fun s hs hps => ?_⟩
    have := (hafter s hs hps).1
    omega
  · exact ⟨hlt, .inr ⟨hlt, .inr ⟨c, rfl, hc, hpair⟩⟩, fun s hs hps => (hafter s hs hps).1⟩
  · have hnext : IsTerminator (units.getD (c + 1) 0) := .inl hlf
    refine ⟨hlt, .inr ⟨hlt, .inr ⟨c + 1, rfl, hnext, fun h => ?_⟩⟩, fun s hs hps => ?_⟩
    · rw [hlf] at h
      exact absurd h.1 (by decide)
    · have hle := (hafter s hs hps).1
      rcases Nat.eq_or_lt_of_le hle with rfl | hlt'
      · obtain ⟨-, h0 | ⟨i, hi, -, hsplit⟩⟩ := hs
        · omega
        · obtain rfl : c = i := Nat.succ.inj hi
          exact absurd ⟨hcr, hlf⟩ hsplit
      · exact hlt'

/-- The scan forward comes to the end of the line of the last unit. -/
theorem endOfContents_spec (hreads : ReadsUnits units get getAux) {location length rounds : Nat}
    (h : location + length ≤ units.length) (hrounds : units.length < rounds) :
    ∃ c k : Nat, endOfContents getAux units.length true location length rounds =
        some (((c : Nat) : Int), ((k : Nat) : Int)) ∧ Terminated units c (c + k) ∧
      (lastIndex location length < units.length → lastIndex location length < c + k) ∧
      (∀ i, lastIndex location length ≤ i → i < c → ¬IsTerminator (units.getD i 0)) ∧
      (lastIndex location length = c + 1 ∧ units.getD c 0 = carriageReturn ∧ units.getD (c + 1) 0 = newLine ∨
        lastIndex location length ≤ c ∧
        (units.getD (lastIndex location length) 0 = newLine →
          ∀ i, i + 1 = lastIndex location length → units.getD i 0 ≠ carriageReturn)) := by
  have hidx : (location : Int) + length - (if length ≠ 0 then 1 else 0) = (lastIndex location length : Nat) := by
    unfold lastIndex
    by_cases hzero : length = 0
    · rw [if_pos hzero, if_neg (not_not.mpr hzero)]
      omega
    · rw [if_neg hzero, if_pos hzero]
      omega
  have hle : lastIndex location length ≤ units.length := by
    unfold lastIndex
    split <;> omega
  rw [endOfContents, hidx]
  generalize lastIndex location length = p at hle ⊢
  split
  · rename_i hlf
    have hlt : p < units.length := by
      by_contra hge
      rw [hreads.aux_out _ (.inr (by omega))] at hlf
      exact absurd hlf (by decide)
    rw [hreads.aux_eq p hlt] at hlf
    have hnotcr : units.getD p 0 ≠ carriageReturn := by
      rw [hlf]
      decide
    split
    · rename_i hcr
      have hpos : 0 < p := by
        rcases Nat.eq_zero_or_pos p with rfl | hpos
        · rw [hreads.aux_out _ (.inl (by omega))] at hcr
          exact absurd hcr (by decide)
        · exact hpos
      obtain ⟨k, rfl⟩ := Nat.exists_eq_add_of_lt hpos
      rw [Nat.zero_add] at *
      have hback : (((k + 1 : Nat) : Int) - 1) = (k : Nat) := by omega
      rw [hback, hreads.aux_eq k (by omega)] at hcr
      rw [hback]
      exact ⟨k, 2, rfl, .inr (.inr ⟨rfl, hlt, hcr, hlf⟩), fun _ => by omega, fun i _ _ => by omega,
        .inl ⟨rfl, hcr, hlf⟩⟩
    · rename_i hcr
      refine ⟨p, 1, rfl, .inr (.inl ⟨rfl, hlt, .inl hlf, fun h => hnotcr h.1⟩), fun _ => by omega,
        fun i _ _ => by omega, .inr ⟨Nat.le_refl p, fun _ i hi h => hcr ?_⟩⟩
      rw [show (p : Int) - 1 = (i : Nat) by omega, hreads.aux_eq i (by omega)]
      exact h
  · rename_i hlf
    obtain ⟨c, k, heq, hpc, hplain, hterm⟩ := scanForward_spec hreads hle (by omega : units.length - p < rounds)
    refine ⟨c, k, heq, hterm, fun hlt => ?_, hplain, .inr ⟨hpc, fun hnl => absurd ?_ hlf⟩⟩
    · rcases hterm with ⟨h1, h2⟩ | ⟨h1, h2, -⟩ | ⟨h1, h2, -⟩ <;> omega
    · rw [hreads.aux_eq p (lt_of_isTerminator (.inl hnl))]
      exact hnl

/-- The two scans come to the fewest whole lines that cover the range. -/
theorem coversLines_of_reads (hreads : ReadsUnits units get getAux) {location length rounds : Nat}
    (h : location + length ≤ units.length) (hrounds : units.length < rounds) :
    ∃ c k : Nat, endOfContents getAux units.length true location length rounds =
        some (((c : Nat) : Int), ((k : Nat) : Int)) ∧
      CoversLines units location length (lineBeginIndex get true location) (c + k) c := by
  obtain ⟨hstart, hstart_le, hstart_last⟩ := lineBeginIndex_spec hreads (show location ≤ units.length by omega)
  obtain ⟨c, k, heq, hterm, hpast, hplain, hwhere⟩ := endOfContents_spec hreads h hrounds
  obtain ⟨hle, hstop, hfirst⟩ := stop_of_terminated hterm hplain
  refine ⟨c, k, heq, ⟨hstart, hstart_le, hstart_last, ?_, hpast, hstop, hfirst, hterm, fun s hs hsp hlast => ?_⟩⟩
  · have hlast : location + length ≤ lastIndex location length + 1 ∧
        (lastIndex location length = units.length → location + length ≤ lastIndex location length) := by
      unfold lastIndex
      split <;> omega
    rcases hwhere with ⟨hc, -, hlf⟩ | ⟨hc, -⟩
    · have hlt := lt_of_isTerminator (.inl hlf)
      omega
    · rcases Nat.lt_or_ge (lastIndex location length) units.length with hlt | hge
      · have := hpast hlt
        omega
      · omega
  · rcases hwhere with ⟨hc, hcr, hlf⟩ | ⟨hc, hpair⟩
    · have hne : s ≠ c + 1 := by
        rintro rfl
        rcases hs.2 with h0 | ⟨i, hi, -, hsplit⟩
        · omega
        · obtain rfl : c = i := Nat.succ.inj hi
          exact hsplit ⟨hcr, hlf⟩
      exact ⟨by omega, plain_of_lineStart hlast hplain fun i hi hic => by omega⟩
    · exact ⟨hsp.trans hc, plain_of_lineStart hlast hplain fun i hi _ hcr hlf => hpair hlf i hi hcr⟩

end Spec

/-! ## Strings -/

/-- The buffers give the characters of the string. -/
theorem readsUnits (map : CharToUniChar) (string : CFStringRef) (junk1 junk2 : List UniChar) :
    ReadsUnits (string.val.characters map)
      ((initInlineBuffer string.val 0 string.val.getLength junk1).getAt map)
      ((initInlineBuffer string.val 0 string.val.getLength junk2).getAux map) := by
  have hlen := string.property.length_characters map
  refine ⟨fun i => ?_, fun i hi => ?_, fun idx hidx => if_pos ?_⟩
  · rcases Nat.lt_or_ge i string.val.getLength with hlt | hge
    · exact getAt_initInlineBuffer map string (Nat.le_refl _) junk1 hlt
    · rw [List.getD_eq_default _ _ (by omega)]
      exact getAt_initInlineBuffer_end map string.val junk1 (by omega)
  · have hread := getAt_initInlineBuffer map string (Nat.le_refl _) junk2 (show i < string.val.getLength by omega)
    rw [InlineBuffer.getAt, if_neg (by omega)] at hread
    refine (if_neg ?_).trans hread
    show ¬((i : Int) < 0 ∨ (i : Int) ≥ string.val.getLength)
    omega
  · show idx < 0 ∨ idx ≥ string.val.getLength
    omega

/-- The bounds are those of the fewest whole lines that cover the range. -/
theorem getLineBounds_spec (map : CharToUniChar) (string : CFStringRef) {location length : Nat}
    (h : location + length ≤ string.val.getLength) (junk1 junk2 : List UniChar) {rounds : Nat}
    (hrounds : string.val.getLength < rounds) :
    ∃ b e c : Nat, getLineBounds map string.val location length junk1 junk2 rounds =
        some ⟨(b : Nat), (e : Nat), (c : Nat)⟩ ∧
      CoversLines (string.val.characters map) location length b e c := by
  have hlen := string.property.length_characters map
  obtain ⟨c, k, heq, hcovers⟩ := coversLines_of_reads (readsUnits map string junk1 junk2)
    (show location + length ≤ _ by omega) (show _ < rounds by omega)
  refine ⟨_, c + k, c, ?_, hcovers⟩
  rw [hlen] at heq
  rw [getLineBounds, getLineOrParagraphBounds, heq]
  rfl

/-! ## The lines of a string -/

/-- A loop over the lines from an index on, none where the steps do not suffice. -/
def linesFrom (map : CharToUniChar) (string : CFString) (junk1 junk2 : List UniChar) (rounds : Nat) :
    (steps : Nat) → (index : Int) → Option (List LineBounds)
  | 0, _ => none
  | steps + 1, index =>
    if index < string.getLength then
      (getLineBounds map string index.toNat 0 junk1 junk2 rounds).bind fun bounds =>
        (linesFrom map string junk1 junk2 rounds steps bounds.lineEndIndex).map (bounds :: ·)
    else some []

/-- The indexes from the beginning of a line to its end. -/
def LineBounds.indexes (bounds : LineBounds) : List Nat :=
  List.range' bounds.lineBeginIndex.toNat (bounds.lineEndIndex - bounds.lineBeginIndex).toNat

/-- The lines from the beginning of a line on are the rest of the string. -/
theorem linesFrom_spec (map : CharToUniChar) (string : CFStringRef) (junk1 junk2 : List UniChar) {rounds : Nat}
    (hrounds : string.val.getLength < rounds) {steps index : Nat}
    (hstart : LineStart (string.val.characters map) index ∨ index = string.val.getLength)
    (hsteps : string.val.getLength - index < steps) :
    ∃ lines, linesFrom map string.val junk1 junk2 rounds steps index = some lines ∧
      lines.flatMap LineBounds.indexes = List.range' index (string.val.getLength - index) := by
  have hlen := string.property.length_characters map
  induction steps generalizing index with
  | zero => omega
  | succ steps ih =>
    rw [linesFrom]
    by_cases hin : (index : Int) < string.val.getLength
    · obtain ⟨b, e, c, heq, hcovers⟩ := getLineBounds_spec map string (show index + 0 ≤ _ by omega) junk1 junk2 hrounds
      have hstart := hstart.resolve_right (by omega)
      obtain rfl : b = index :=
        Nat.le_antisymm hcovers.start_le (hcovers.start_last index hstart (Nat.le_refl _))
      have hpast : b < e := hcovers.past (show b < _ by omega)
      have hstop := hcovers.stop
      rw [hlen] at hstop
      have hend : e ≤ string.val.getLength := by
        rcases hstop with h | h
        · omega
        · exact hlen ▸ h.1
      obtain ⟨lines, hlines, hrest⟩ := @ih e hstop.symm (by omega)
      refine ⟨⟨(b : Nat), (e : Nat), (c : Nat)⟩ :: lines, ?_, ?_⟩
      · rw [if_pos hin, Int.toNat_natCast, heq, Option.bind_some, hlines]
        rfl
      · rw [List.flatMap_cons, hrest, LineBounds.indexes]
        dsimp only
        rw [Int.toNat_natCast, show ((e : Int) - b).toNat = e - b by omega]
        have hsplit : string.val.getLength - b = (e - b) + (string.val.getLength - e) := by omega
        rw [hsplit, ← List.range'_append_1, show b + (e - b) = e by omega]
    · rw [if_neg hin, show string.val.getLength - index = 0 by omega]
      exact ⟨[], rfl, rfl⟩

/-- Every range gets the fewest whole lines that cover it, and a loop over the lines
comes to every index once. -/
theorem getLineBounds_covers (map : CharToUniChar) (string : CFStringRef) (junk1 junk2 : List UniChar) {rounds : Nat}
    (hrounds : string.val.getLength < rounds) :
    (∀ location length, location + length ≤ string.val.getLength →
      ∃ b e c : Nat, getLineBounds map string.val location length junk1 junk2 rounds =
          some ⟨(b : Nat), (e : Nat), (c : Nat)⟩ ∧
        CoversLines (string.val.characters map) location length b e c) ∧
    ∀ steps > string.val.getLength, ∃ lines, linesFrom map string.val junk1 junk2 rounds steps 0 = some lines ∧
      lines.flatMap LineBounds.indexes = List.range string.val.getLength := by
  refine ⟨fun location length h => getLineBounds_spec map string h junk1 junk2 hrounds, fun steps hsteps => ?_⟩
  obtain ⟨lines, hlines, hindexes⟩ := @linesFrom_spec map string junk1 junk2 rounds hrounds steps 0
    (.inl ⟨Nat.zero_le _, .inl rfl⟩) (by omega)
  refine ⟨lines, hlines, hindexes.trans ?_⟩
  rw [Nat.sub_zero, List.range_eq_range']

/-- "a", CR LF, "b" and LS. -/
theorem getLineBounds_covers_letters :
    (∀ location length, location + length ≤ 5 →
      ∃ b e c : Nat, getLineBounds .initial (inlineUnicode [0x61, 0x0D, 0x0A, 0x62, 0x2028]) location length [] [] 6 =
          some ⟨(b : Nat), (e : Nat), (c : Nat)⟩ ∧
        CoversLines [0x61, 0x0D, 0x0A, 0x62, 0x2028] location length b e c) ∧
    ∀ steps > 5, ∃ lines, linesFrom .initial (inlineUnicode [0x61, 0x0D, 0x0A, 0x62, 0x2028]) [] [] 6 steps 0 =
        some lines ∧
      lines.flatMap LineBounds.indexes = List.range 5 :=
  getLineBounds_covers .initial ⟨inlineUnicode [0x61, 0x0D, 0x0A, 0x62, 0x2028], inlineUnicode_wellFormed _⟩ [] []
    (by decide)

end CFLite.Strings
