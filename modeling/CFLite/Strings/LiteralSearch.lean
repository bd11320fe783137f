import CFLite.Framework.Occurrences
import CFLite.Strings.Find

/-!
# The literal search

Without an option that makes characters equal which are not the same, a search
finds the first occurrence of the pattern, and the searches for all of them pick
greedily.

* `Search.scan_first`: a scan ends at the first position that is not passed;
* `Search.run_literal`: the search finds the first occurrence;
* `literalSearch_iff`: so do the search and the find-all, except for bytes of one
  character, and for the end of a range that does not fit in 32 bits.
-/

namespace CFLite.Strings

open Framework

/-- The options of a search for the units of the pattern themselves. -/
structure CompareFlags.IsLiteral (flags : CompareFlags) : Prop where
  caseInsensitive : flags.caseInsensitive = false
  nonliteral : flags.nonliteral = false
  diacriticInsensitive : flags.diacriticInsensitive = false
  widthInsensitive : flags.widthInsensitive = false
  ignoreNonAlphanumeric : flags.ignoreNonAlphanumeric = false

/-! ## Positions -/

/-- The range of the search that ends with an attempt. -/
def Attempt.range (fromLoc : Int) : Attempt → Option SearchRange
  | .found str1Index => some (.upTo fromLoc str1Index)
  | .stop => none
  | .next => none

/-- What a search is to find. -/
def FindsFirst (o : Occurrences) (lo hi : Int) : Option SearchRange → Prop
  | none => ∀ p, ¬o.Inside lo hi p
  | some foundRange => ∃ p, o.First lo hi p ∧ foundRange = .upTo p (p + o.width)

namespace Search

variable {s : Search}

/-- A scan ends at the first position that is not passed, or at the last one. -/
theorem scan_first {attempt : Int → Option Attempt} {k : Nat} {fromLoc : Int} (hto : s.toLoc = fromLoc + k * s.delta)
    (hdelta : s.delta ≠ 0) (h : ∀ i ≤ k, ∃ outcome, attempt (fromLoc + (i : Nat) * s.delta) = some outcome) :
    ∃ i ≤ k, (∀ j < i, attempt (fromLoc + (j : Nat) * s.delta) = some .next) ∧
      ∃ outcome, attempt (fromLoc + (i : Nat) * s.delta) = some outcome ∧ (outcome = .next → i = k) ∧
        s.scan attempt (k + 1) fromLoc = some (outcome.range (fromLoc + (i : Nat) * s.delta)) := by
  induction k generalizing fromLoc with
  | zero =>
    obtain ⟨outcome, heq⟩ := h 0 (Nat.le_refl 0)
    refine ⟨0, Nat.le_refl 0, nofun, outcome, heq, fun _ => rfl, ?_⟩
    have hfrom : fromLoc + ((0 : Nat) : Int) * s.delta = fromLoc := by rw [Nat.cast_zero, Int.zero_mul, Int.add_zero]
    rw [hfrom] at heq hto ⊢
    rw [scan, heq]
    cases outcome with
    | found str1Index => rfl
    | stop => rfl
    | next => exact if_pos hto.symm
  | succ k ih =>
    obtain ⟨outcome, heq⟩ := h 0 (Nat.zero_le _)
    have hfrom : fromLoc + ((0 : Nat) : Int) * s.delta = fromLoc := by rw [Nat.cast_zero, Int.zero_mul, Int.add_zero]
    by_cases hnext : outcome = .next
    · have hsucc (i : Nat) :
          fromLoc + s.delta + (i : Int) * s.delta = fromLoc + ((i + 1 : Nat) : Int) * s.delta := by
        rw [Nat.cast_succ, Int.add_mul, Int.one_mul]
        omega
      obtain ⟨i, hi, hpassed, outcome', heq', hlast, hscan⟩ := ih (hto.trans (hsucc k).symm) fun i hi => by
        rw [hsucc]
        exact h (i + 1) (by omega)
      have hne : fromLoc ≠ s.toLoc := by
        rw [hto]
        intro hsame
        have hzero : ((k + 1 : Nat) : Int) * s.delta = 0 := by omega
        rcases Int.mul_eq_zero.mp hzero with h0 | h0
        · omega
        · exact hdelta h0
      rw [hsucc] at heq' hscan
      refine ⟨i + 1, by omega, fun j hj => ?_, outcome', heq', fun h => by rw [hlast h], ?_⟩
      · cases j with
        | zero => rw [heq, hnext]
        | succ j =>
          rw [← hsucc]
          exact hpassed j (by omega)
      · rw [hfrom] at heq
        rw [scan, heq, hnext]
        exact (if_neg hne).trans hscan
    · refine ⟨0, Nat.zero_le _, nofun, outcome, heq, fun h => absurd h hnext, ?_⟩
      rw [hfrom] at heq ⊢
      rw [scan, heq]
      cases outcome with
      | found str1Index => rfl
      | stop => rfl
      | next => exact absurd rfl hnext

theorem delta_ne_zero (s : Search) : s.delta ≠ 0 := by
  unfold delta
  split <;> decide

theorem toLoc_eq (s : Search) : s.toLoc = s.fromLoc + ((s.toLoc - s.fromLoc).natAbs : Nat) * s.delta := by
  unfold delta
  split <;> omega

/-! ## The first occurrence -/

/-- The positions of a search that tries only those where the whole pattern fits. -/
theorem positions_literal (hvariants : s.lengthVariants = false) {o : Occurrences} (hwidth : o.width = s.findStrLen)
    (hback : o.backwards = s.flags.backwards) (hanchor : o.anchored = s.flags.anchored) {lo hi : Int}
    (hrange : s.rangeToSearch = .upTo lo hi) (hfits : lo + s.findStrLen ≤ hi) :
    (((s.toLoc - s.fromLoc).natAbs : Nat) : Int) = o.lastPlace lo hi ∧
      ∀ i ≤ (s.toLoc - s.fromLoc).natAbs, s.fromLoc + (i : Nat) * s.delta = o.place lo hi i := by
  have hlen : s.rangeToSearch.length = hi - lo := by rw [hrange]; rfl
  have hloc : s.rangeToSearch.location = lo := by rw [hrange]; rfl
  have hmax : s.maxStr1Index = hi := by
    unfold maxStr1Index
    omega
  have hfrom : s.fromLoc = if s.flags.backwards then hi - s.findStrLen else lo := by
    unfold fromLoc
    rw [hmax, hloc, hvariants, if_neg Bool.false_ne_true]
  have hto : s.toLoc = if s.flags.anchored then s.fromLoc else if s.flags.backwards then lo else hi - s.findStrLen := by
    unfold toLoc
    rw [hmax, hloc, hvariants, if_neg Bool.false_ne_true, Bool.not_false, Bool.and_true]
    cases s.flags.backwards <;> rfl
  unfold delta Occurrences.lastPlace Occurrences.place
  rw [hwidth, hback, hanchor]
  cases ha : s.flags.anchored <;> cases hb : s.flags.backwards <;> rw [ha] at hto <;> rw [hb] at hfrom hto <;>
    simp only [Bool.false_eq_true, if_false, if_true] at hfrom hto ⊢ <;> refine ⟨by omega, fun i hi' => ?_⟩ <;>
    split <;> omega

/-- Attempts that find the pattern where it occurs find the first occurrence. -/
theorem run_literal (hvariants : s.lengthVariants = false) {o : Occurrences} (hwidth : o.width = s.findStrLen)
    (hback : o.backwards = s.flags.backwards) (hanchor : o.anchored = s.flags.anchored) (hpos : 0 < s.findStrLen)
    {lo hi : Int} (hrange : s.rangeToSearch = .upTo lo hi) {str1Bytes str2Bytes : Option (List UInt8)} {rounds : Nat}
    (hattempt : ∀ p, lo ≤ p → p + s.findStrLen ≤ hi → (s.backwardAnchor = true → p + s.findStrLen = hi) →
      ∃ outcome, s.attempt str1Bytes str2Bytes rounds p = some outcome ∧
        (o.occurs p → outcome = .found (p + s.findStrLen)) ∧ (¬o.occurs p → outcome = .next)) :
    ∃ result, s.run str1Bytes str2Bytes rounds = some result ∧ FindsFirst o lo hi result := by
  have hlen : s.rangeToSearch.length = hi - lo := by rw [hrange]; rfl
  rw [run, hlen, hvariants]
  by_cases hfits : lo + s.findStrLen ≤ hi
  · rw [if_pos ⟨by omega, by omega, .inl (by omega)⟩]
    obtain ⟨hk, hpositions⟩ := positions_literal hvariants hwidth hback hanchor hrange hfits
    have hto := s.toLoc_eq
    generalize (s.toLoc - s.fromLoc).natAbs = k at hk hpositions hto ⊢
    have hfits : lo + o.width ≤ hi := hwidth ▸ hfits
    -- every position that is tried, in the order of the search
    have htried : ∀ i ≤ k, ∃ outcome,
        s.attempt str1Bytes str2Bytes rounds (s.fromLoc + (i : Nat) * s.delta) = some outcome ∧
          (o.occurs (o.place lo hi i) → outcome = .found (o.place lo hi i + o.width)) ∧
          (¬o.occurs (o.place lo hi i) → outcome = .next) := by
      intro i hi'
      have hle : (i : Int) ≤ o.lastPlace lo hi := by omega
      have hplace : (o.onlyAt fun _ => True).Inside lo hi (o.place lo hi i) :=
        (@Occurrences.inside_iff (o.onlyAt fun _ => True) _ _ hfits _).mpr ⟨trivial, i, hle, rfl⟩
      rw [hpositions i hi', hwidth]
      refine hattempt _ hplace.lower (hwidth ▸ hplace.upper) fun hanchored => ?_
      obtain ⟨ha, hb⟩ := Bool.and_eq_true_iff.mp hanchored
      have hends := hplace.anchored (hanchor.trans ha)
      rw [show (o.onlyAt fun _ => True).backwards = true from hback.trans hb, if_pos rfl] at hends
      exact hwidth ▸ hends
    obtain ⟨i, hi', hpassed, outcome, heq, hlast, hscan⟩ := scan_first hto s.delta_ne_zero fun i hi' => by
      obtain ⟨outcome, heq, -⟩ := htried i hi'
      exact ⟨outcome, heq⟩
    have hbefore : ∀ j < i, ¬o.occurs (o.place lo hi j) := by
      intro j hj hoccurs
      obtain ⟨outcome', heq', hfound, -⟩ := htried j (by omega)
      rw [hpassed j hj, hfound hoccurs] at heq'
      cases heq'
    refine ⟨_, hscan, ?_⟩
    obtain ⟨outcome', heq', hfound, hnot⟩ := htried i hi'
    obtain rfl : outcome = outcome' := Option.some.inj (heq.symm.trans heq')
    rw [hpositions i hi']
    by_cases hoccurs : o.occurs (o.place lo hi i)
    · rw [hfound hoccurs]
      exact ⟨_, Occurrences.first_place hfits (by omega) hoccurs hbefore, rfl⟩
    · rw [hnot hoccurs]
      intro q hq
      obtain ⟨hq, j, hj, rfl⟩ := (Occurrences.inside_iff hfits).mp hq
      have hik := hlast (hnot hoccurs)
      rcases Nat.lt_or_ge j i with hlt | hge
      · exact hbefore j hlt hq
      · exact hoccurs (by rwa [show i = j by omega])
  · rw [if_neg fun h => h.2.2.elim (fun h => by omega) Bool.false_ne_true]
    refine ⟨none, rfl, fun p hp => ?_⟩
    have hlower := hp.lower
    have hupper := hp.upper
    omega

/-! ## The attempts -/

theorem sameUnits_iff (n : Nat) (str1Index str2Index : Int) :
    s.sameUnits n str1Index str2Index = true ↔
      ∀ i < n, s.access1 (str1Index + (i : Nat)) = s.access2 (str2Index + (i : Nat)) := by
  induction n generalizing str1Index str2Index with
  | zero => exact ⟨fun _ => nofun, fun _ => rfl⟩
  | succ n ih =>
    have hsucc : ∀ (index : Int) (i : Nat), index + 1 + (i : Nat) = index + ((i + 1 : Nat) : Int) := by
      intro index i
      rw [Nat.cast_succ]
      omega
    rw [sameUnits]
    split
    · rename_i hne
      refine ⟨nofun, fun h => absurd (h 0 (Nat.zero_lt_succ n)) ?_⟩
      rwa [Nat.cast_zero, Int.add_zero, Int.add_zero]
    · rename_i heq
      rw [ih]
      refine ⟨fun h i hi => ?_, fun h i hi => ?_⟩
      · cases i with
        | zero =>
          rw [Nat.cast_zero, Int.add_zero, Int.add_zero]
          exact not_not.mp heq
        | succ i =>
          rw [← hsucc, ← hsucc]
          exact h i (by omega)
      · rw [hsucc, hsucc]
        exact h (i + 1) (by omega)

/-- The loop over bytes without the options that fold goes on to the first that
differ. -/
theorem byteLoop_literal (hoptions : s.equalityOptions = false) (str1Bytes str2Bytes : List UInt8) {p : Int}
    {n : Nat} (hn : s.findStrLen = n) (hfits : p + n ≤ s.maxStr1Index) {rounds j : Nat} (hrounds : n < j + rounds)
    (hj : j ≤ n) :
    ∃ m ≤ n, s.byteLoop str1Bytes str2Bytes p rounds (p + (j : Nat)) (j : Nat) =
        some (p + (m : Nat), ((m : Nat) : Int)) ∧
      (m = n ↔ ∀ i, j ≤ i → i < n → str1Bytes.getD (p + (i : Nat)).toNat 0 = str2Bytes.getD i 0) := by
  induction rounds generalizing j with
  | zero => omega
  | succ rounds ih =>
    rw [byteLoop]
    by_cases hend : j = n
    · rw [if_neg (by omega)]
      exact ⟨j, hj, rfl, fun _ i => by omega, fun _ => hend⟩
    · rw [if_pos (by omega), byteStep, Int.toNat_natCast]
      by_cases hbyte : str1Bytes.getD (p + (j : Nat)).toNat 0 = str2Bytes.getD j 0
      · obtain ⟨m, hm, heq, hiff⟩ := ih (show n < j + 1 + rounds by omega) (by omega)
        have hsucc : p + (j : Nat) + 1 = p + ((j + 1 : Nat) : Int) := by omega
        refine ⟨m, hm, ?_, hiff.trans ⟨fun h i hi => ?_, fun h i hi => h i (by omega)⟩⟩
        · rw [hbyte]
          simp only [if_true]
          rw [hsucc]
          exact heq
        · rcases Nat.eq_or_lt_of_le hi with rfl | hlt
          · exact fun _ => hbyte
          · exact h i hlt
      · refine ⟨j, hj, ?_, fun h => absurd h hend, fun h => absurd (h j (Nat.le_refl j) (by omega)) hbyte⟩
        have hne : (str1Bytes.getD (p + (j : Nat)).toNat 0).toNat ≠ (str2Bytes.getD j 0).toNat :=
          fun h => hbyte (UInt8.toNat_inj.mp h)
        simp only [if_neg hne, hoptions, if_true]

theorem finish_literal (hflags : s.flags.IsLiteral) {str1Index : Int}
    (hanchor : s.backwardAnchor = true → str1Index = s.maxStr1Index) : s.finish false str1Index = .found str1Index := by
  have hkept : ¬(s.flags.ignoreNonAlphanumeric ∧ s.backwardAnchor = true ∧ str1Index < s.maxStr1Index) := by
    rw [hflags.ignoreNonAlphanumeric]
    exact fun h => Bool.false_ne_true h.1
  rw [finish, if_neg hkept]
  refine if_pos ?_
  cases hb : s.backwardAnchor with
  | false => exact .inl rfl
  | true => exact .inr (hanchor hb)

/-- The attempt where both strings have C string pointers. -/
theorem attemptBytes_literal (hflags : s.flags.IsLiteral) (str1Bytes str2Bytes : List UInt8) {p : Int} {n : Nat}
    (hn : s.findStrLen = n) (hfits : p + n ≤ s.maxStr1Index)
    (hanchor : s.backwardAnchor = true → p + n = s.maxStr1Index) {rounds : Nat} (hrounds : n < rounds) :
    ∃ outcome, s.attemptBytes str1Bytes str2Bytes rounds p = some outcome ∧
      ((∀ i < n, str1Bytes.getD (p + (i : Nat)).toNat 0 = str2Bytes.getD i 0) → outcome = .found (p + n)) ∧
      ((¬∀ i < n, str1Bytes.getD (p + (i : Nat)).toNat 0 = str2Bytes.getD i 0) → outcome = .next) := by
  have hoptions : s.equalityOptions = false := by
    unfold equalityOptions lengthVariants
    rw [hflags.caseInsensitive, hflags.nonliteral, hflags.diacriticInsensitive, hflags.widthInsensitive,
      hflags.ignoreNonAlphanumeric]
    rfl
  obtain ⟨m, hm, heq, hiff⟩ := byteLoop_literal hoptions str1Bytes str2Bytes hn hfits (show n < 0 + rounds by omega)
    (Nat.zero_le n)
  rw [Nat.cast_zero, Int.add_zero] at heq
  have hall : m = n ↔ ∀ i < n, str1Bytes.getD (p + (i : Nat)).toNat 0 = str2Bytes.getD i 0 :=
    hiff.trans ⟨fun h i => h i (Nat.zero_le i), fun h i _ => h i⟩
  have htail : s.skipTail false (p + (m : Nat)) (m : Nat) = (m : Nat) := by
    rw [skipTail, hflags.ignoreNonAlphanumeric]
    exact if_neg fun h => Bool.false_ne_true h.1
  rw [attemptBytes, heq, Option.map_some]
  simp only [htail]
  refine ⟨_, rfl, fun h => ?_, fun h => ?_⟩
  · obtain rfl := hall.mpr h
    rw [if_pos hn.symm]
    exact finish_literal hflags hanchor
  · exact if_neg fun hend => h (hall.mp (by omega))

end Search

/-! ## The strings -/

/-- A read through the inline buffer over the first characters of a string. -/
theorem getAt_initInlineBuffer (map : CharToUniChar) (str : CFStringRef) {length : Nat}
    (h : length ≤ str.val.getLength) (junk : List UniChar) {i : Nat} (hi : i < length) :
    (initInlineBuffer str.val 0 length junk).getAt map i = (str.val.characters map).getD i 0 := by
  rw [InlineBuffer.getAt, if_neg (by omega), Int.toNat_natCast,
    get_initInlineBuffer map str (by omega) junk hi, List.drop_zero, List.getD_eq_getElem?_getD,
    List.getElem?_take_of_lt hi, ← List.getD_eq_getElem?_getD]

/-- Past its range an inline buffer gives U+0000. -/
theorem getAt_initInlineBuffer_end (map : CharToUniChar) (str : CFString) {length : Nat} (junk : List UniChar)
    {index : Int} (h : length ≤ index) : (initInlineBuffer str 0 length junk).getAt map index = 0 := by
  have hidx : index.toNat ≥ (initInlineBuffer str 0 length junk).length := by
    show length ≤ index.toNat
    omega
  refine (if_neg (by omega)).trans ?_
  unfold InlineBuffer.get getCharacterFromInlineBuffer
  cases (initInlineBuffer str 0 length junk).directBuffer with
  | some directBuffer =>
    dsimp only
    rw [if_pos hidx]
  | none =>
    dsimp only
    rw [if_pos (.inl (Nat.zero_le _)), if_pos hidx]

/-- Where a list begins what is left of another one. -/
theorem prefix_drop_iff {α : Type} {l₁ l₂ : List α} {p : Nat} (h : p + l₁.length ≤ l₂.length) (d : α) :
    l₁ <+: l₂.drop p ↔ ∀ i < l₁.length, l₂.getD (p + i) d = l₁.getD i d := by
  rw [List.prefix_iff_getElem?]
  refine forall_congr' fun i => forall_congr' fun hi => ?_
  rw [List.getElem?_drop, List.getElem?_eq_getElem (by omega), Option.some.injEq, List.getD_eq_getElem _ _ hi,
    List.getD_eq_getElem _ _ (by omega)]

/-- The occurrences of a pattern in a text, as the options tell to search for them. -/
def occurrencesOf (text pattern : List UniChar) (flags : CompareFlags) : Occurrences where
  occurs p := 0 ≤ p ∧ pattern <+: text.drop p.toNat
  width := pattern.length
  backwards := flags.backwards
  anchored := flags.anchored

/-- Where both strings have C string pointers, the pattern's bytes are at a position. -/
def SameBytes (string stringToFind : CFString) (p : Int) : Prop :=
  ∀ str1Bytes str2Bytes, string.getCStringPtr = some str1Bytes → stringToFind.getCStringPtr = some str2Bytes →
    str2Bytes.take stringToFind.getLength <+: str1Bytes.drop p.toNat

section Literal

variable {map : CharToUniChar} {string stringToFind : CFStringRef} {flags : CompareFlags}

/-- The same bytes are the same characters. -/
theorem occurs_of_bytes {str1Bytes str2Bytes : List UInt8} (h1 : string.val.getCStringPtr = some str1Bytes)
    (h2 : stringToFind.val.getCStringPtr = some str2Bytes) {p : Nat}
    (hfits : p + stringToFind.val.getLength ≤ string.val.getLength)
    (h : str2Bytes.take stringToFind.val.getLength <+: str1Bytes.drop p) :
    stringToFind.val.characters map <+: (string.val.characters map).drop p := by
  obtain ⟨hbytes1, hlen1⟩ := getCStringPtr_spec h1
  obtain ⟨hbytes2, hlen2⟩ := getCStringPtr_spec h2
  rw [CFString.characters_of_bytes hbytes1, CFString.characters_of_bytes hbytes2, ← List.map_drop, List.drop_take]
  refine List.IsPrefix.map _ (List.prefix_take_iff.mpr ⟨h, ?_⟩)
  rw [List.length_take]
  omega

theorem isLiteral_options {s : Search} (h : s.flags.IsLiteral) :
    s.lengthVariants = false ∧ s.equalityOptions = false := by
  unfold Search.equalityOptions Search.lengthVariants
  rw [h.caseInsensitive, h.nonliteral, h.diacriticInsensitive, h.widthInsensitive, h.ignoreNonAlphanumeric]
  exact ⟨rfl, rfl⟩

/-- What the searches for all matches see: the pattern's units at a position, and
its bytes. -/
def SeenAt (map : CharToUniChar) (string stringToFind : CFStringRef) (p : Int) : Prop :=
  (0 ≤ p ∧ stringToFind.val.characters map <+: (string.val.characters map).drop p.toNat) ∧
    SameBytes string.val stringToFind.val p

/-- The pattern is seen where its units are the same, or its bytes are. -/
theorem seenAt_iff {q : Nat} (hfits : q + stringToFind.val.getLength ≤ string.val.getLength) :
    SeenAt map string stringToFind q ↔
      match string.val.getCStringPtr, stringToFind.val.getCStringPtr with
      | some str1Bytes, some str2Bytes =>
        ∀ i < stringToFind.val.getLength, str1Bytes.getD (q + i) 0 = str2Bytes.getD i 0
      | _, _ => ∀ i < stringToFind.val.getLength,
        (string.val.characters map).getD (q + i) 0 = (stringToFind.val.characters map).getD i 0 := by
  have hunits1 := string.property.length_characters map
  have hunits2 := stringToFind.property.length_characters map
  unfold SeenAt SameBytes
  rw [Int.toNat_natCast, and_iff_right (Int.natCast_nonneg q)]
  have hunits := @prefix_drop_iff _ (stringToFind.val.characters map) (string.val.characters map) q (by omega) 0
  rw [hunits2] at hunits
  cases h1 : string.val.getCStringPtr with
  | none => exact (and_iff_left nofun).trans hunits
  | some str1Bytes =>
    cases h2 : stringToFind.val.getCStringPtr with
    | none => exact (and_iff_left nofun).trans hunits
    | some str2Bytes =>
      have hlen1 := (getCStringPtr_spec h1).2
      have hlen2 := (getCStringPtr_spec h2).2
      have htake : (str2Bytes.take stringToFind.val.getLength).length = stringToFind.val.getLength := by
        rw [List.length_take]
        omega
      have hbytes := @prefix_drop_iff _ (str2Bytes.take stringToFind.val.getLength) str1Bytes q (by omega) 0
      rw [htake] at hbytes
      have hgetD : ∀ i < stringToFind.val.getLength,
          (str2Bytes.take stringToFind.val.getLength).getD i 0 = str2Bytes.getD i 0 := by
        intro i hi
        rw [List.getD_eq_getElem?_getD, List.getElem?_take_of_lt hi, ← List.getD_eq_getElem?_getD]
      refine Iff.intro (fun h i hi => ?_) fun h => ?_
      · rw [← hgetD i hi]
        exact hbytes.mp (h.2 _ _ rfl rfl) i hi
      · have hprefix := hbytes.mpr fun i hi => (h i hi).trans (hgetD i hi).symm
        refine ⟨occurs_of_bytes h1 h2 hfits hprefix, ?_⟩
        rintro _ _ ⟨⟩ ⟨⟩
        exact hprefix

/-- The attempt at a position finds the pattern where it is seen. -/
theorem attempt_literal (hflags : flags.IsLiteral) (tables : SearchTables) (langCode : Option LangCode)
    (junk1 junk2 : List UniChar) {lo hi : Int} (hlo : 0 ≤ lo) (hhi : hi ≤ string.val.getLength) {rounds : Nat}
    (hrounds : stringToFind.val.getLength < rounds) {p : Int} (hp : lo ≤ p)
    (hfits : p + stringToFind.val.getLength ≤ hi)
    (hanchor : (flags.anchored && flags.backwards) = true → p + stringToFind.val.getLength = hi) :
    ∃ outcome, (searchOf tables map string.val stringToFind.val (.upTo lo hi) flags langCode junk1 junk2).attempt
        string.val.getCStringPtr stringToFind.val.getCStringPtr rounds p = some outcome ∧
      (SeenAt map string stringToFind p → outcome = .found (p + stringToFind.val.getLength)) ∧
      (¬SeenAt map string stringToFind p → outcome = .next) := by
  let s := searchOf tables map string.val stringToFind.val (.upTo lo hi) flags langCode junk1 junk2
  have hmax : s.maxStr1Index = hi := by
    show lo + (hi - lo) = hi
    omega
  obtain ⟨q, rfl⟩ : ∃ q : Nat, p = q := ⟨p.toNat, by omega⟩
  have hseen := @seenAt_iff map string stringToFind q (by omega)
  have hliteral : (∀ i < stringToFind.val.getLength, (string.val.characters map).getD (q + i) 0 =
      (stringToFind.val.characters map).getD i 0) ↔ s.sameUnits s.findStrLen.toNat q 0 = true := by
    rw [Search.sameUnits_iff, show s.findStrLen.toNat = stringToFind.val.getLength from Int.toNat_natCast _]
    refine forall_congr' fun i => forall_congr' fun hi' => ?_
    have hread1 := getAt_initInlineBuffer map string (show (lo + (hi - lo)).toNat ≤ _ by omega) junk1
      (show q + i < (lo + (hi - lo)).toNat by omega)
    have hread2 := getAt_initInlineBuffer map stringToFind (Nat.le_refl _) junk2 hi'
    rw [Int.zero_add, ← hread1, ← hread2, Nat.cast_add]
    rfl
  have hunits : ∃ outcome,
      (if s.equalityOptions then s.attemptUnicode rounds q else some (s.attemptLiteral q)) = some outcome ∧
      (s.sameUnits s.findStrLen.toNat q 0 = true → outcome = .found (q + stringToFind.val.getLength)) ∧
      (¬s.sameUnits s.findStrLen.toNat q 0 = true → outcome = .next) := by
    rw [show s.equalityOptions = false from (isLiteral_options hflags).2, if_neg Bool.false_ne_true]
    exact ⟨_, rfl, fun h => if_pos h, fun h => if_neg h⟩
  cases h1 : string.val.getCStringPtr with
  | none =>
    rw [h1] at hseen
    rw [hseen, hliteral]
    exact hunits
  | some str1Bytes =>
    cases h2 : stringToFind.val.getCStringPtr with
    | none =>
      rw [h1, h2] at hseen
      rw [hseen, hliteral]
      exact hunits
    | some str2Bytes =>
      rw [h1, h2] at hseen
      rw [hseen]
      have hattempt := @Search.attemptBytes_literal s hflags str1Bytes str2Bytes q _ rfl (by rw [hmax]; exact hfits)
        (by rw [hmax]; exact hanchor) rounds hrounds
      exact hattempt

/-- The search finds the first place where the pattern is seen. -/
theorem find_literal (hflags : flags.IsLiteral) (hpattern : 0 < stringToFind.val.getLength) (tables : SearchTables)
    (langCode : Option LangCode) (junk1 junk2 : List UniChar) {rounds : Nat}
    (hrounds : stringToFind.val.getLength < rounds) {lo hi : Int} (hlo : 0 ≤ lo) (hhi : hi ≤ string.val.getLength) :
    let o := occurrencesOf (string.val.characters map) (stringToFind.val.characters map) flags
    ∃ result, findWithOptionsAndLocale tables map string.val stringToFind.val flags langCode junk1 junk2 rounds
        (.upTo lo hi) = some result ∧ FindsFirst (o.onlyAt (SeenAt map string stringToFind)) lo hi result := by
  intro o
  let s := searchOf tables map string.val stringToFind.val (.upTo lo hi) flags langCode junk1 junk2
  have hwidth : o.width = s.findStrLen := congrArg Nat.cast (stringToFind.property.length_characters map)
  refine @Search.run_literal s (isLiteral_options hflags).1 (o.onlyAt (SeenAt map string stringToFind)) hwidth rfl rfl
    (Nat.cast_pos.mpr hpattern) lo hi rfl _ _ rounds fun p hp hfits hanchor => ?_
  have hmax : s.maxStr1Index = hi := by
    show lo + (hi - lo) = hi
    omega
  exact attempt_literal hflags tables langCode junk1 junk2 hlo hhi hrounds hp hfits hanchor

/-- The searches one after the other pick greedily what is seen, up to the end of
the range that they remember. -/
theorem findRanges_literal (hflags : flags.IsLiteral) (hpattern : 0 < stringToFind.val.getLength)
    (tables : SearchTables) (langCode : Option LangCode) (junk1 junk2 : List UniChar) {rounds : Nat}
    (hrounds : stringToFind.val.getLength < rounds) {endIndex : Nat} {searches : Nat} {lo hi : Int} (hlo : 0 ≤ lo)
    (hhi : hi ≤ string.val.getLength) (hlimit : flags.backwards = false → endIndex ≤ hi)
    (hsearches : (hi - lo).toNat < searches) :
    let o := occurrencesOf (string.val.characters map) (stringToFind.val.characters map) flags
    ∃ ps, (o.onlyAt (SeenAt map string stringToFind)).Truncated lo hi endIndex ps ∧
      findRanges tables map string.val stringToFind.val flags langCode junk1 junk2 rounds endIndex searches
        (.upTo lo hi) = some (ps.map fun p => .upTo p (p + o.width)) := by
  intro o
  let seen := o.onlyAt (SeenAt map string stringToFind)
  have hwidth : seen.width = stringToFind.val.getLength :=
    congrArg Nat.cast (stringToFind.property.length_characters map)
  induction searches generalizing lo hi with
  | zero => omega
  | succ searches ih =>
    rw [findRanges]
    by_cases hlen : (SearchRange.upTo lo hi).length > 0
    · obtain ⟨result, hfind, hfirst⟩ := find_literal hflags hpattern tables langCode junk1 junk2 hrounds hlo hhi
      rw [if_pos hlen, hfind, Option.bind_some]
      have hlen : hi - lo > 0 := hlen
      cases result with
      | none => exact ⟨[], hfirst, rfl⟩
      | some foundRange =>
        obtain ⟨p, hp, rfl⟩ := hfirst
        have hlower := hp.inside.lower
        have hupper : p + seen.width ≤ hi := hp.inside.upper
        simp only [SearchRange.upTo_end]
        cases hb : flags.backwards with
        | false =>
          have hlo' : seen.nextLo lo p = p + seen.width := if_neg (by rw [show seen.backwards = false from hb]; nofun)
          have hlimit := hlimit hb
          obtain ⟨ps, hps, hrest⟩ :=
            @ih (p + seen.width) endIndex (by omega) (by omega) (fun _ => Int.le_refl _) (by omega)
          rw [if_neg Bool.false_ne_true]
          refine ⟨p :: ps, ⟨hp, ?_⟩, congrArg (Option.map _) hrest⟩
          rw [Occurrences.nextHi_forwards hb, hlo']
          exact hps.greedy fun _ => rfl
        | true =>
          have hlo' : seen.nextLo lo p = lo := if_pos hb
          obtain ⟨ps, hps, hrest⟩ := @ih lo p hlo (by omega) (fun h => by rw [h] at hb; cases hb) (by omega)
          rw [if_pos rfl]
          refine ⟨p :: ps, ⟨hp, ?_⟩, ?_⟩
          · rw [Occurrences.nextHi_backwards hb, hlo']
            exact hps.greedy fun h => by rw [show flags.backwards = false from h] at hb; cases hb
          · exact congrArg (Option.map _) hrest
    · rw [if_neg hlen]
      refine ⟨[], fun p hp => hlen ?_, rfl⟩
      have hlower := hp.lower
      have hupper : p + seen.width ≤ hi := hp.upper
      show hi - lo > 0
      omega

/-- The end of the range fits, where the searches come to it. -/
theorem foundRanges_literal (hflags : flags.IsLiteral) (hpattern : 0 < stringToFind.val.getLength)
    (tables : SearchTables) (langCode : Option LangCode) (junk1 junk2 : List UniChar) {rounds : Nat}
    (hrounds : stringToFind.val.getLength < rounds) {location length : Nat}
    (hrange : location + length ≤ string.val.getLength) {searches : Nat} (hsearches : length < searches) :
    let o := occurrencesOf (string.val.characters map) (stringToFind.val.characters map) flags
    ∃ ps, (o.onlyAt (SeenAt map string stringToFind)).Truncated location (location + length)
        (((location + length) % 2 ^ 32 : Nat) : Int) ps ∧
      foundRanges tables map string.val stringToFind.val flags langCode junk1 junk2 rounds searches
        ⟨location, length⟩ = some (ps.map fun p => .upTo p (p + o.width)) := by
  intro o
  have hrangeUpTo : (⟨location, length⟩ : SearchRange) = .upTo location (location + length) :=
    congrArg (SearchRange.mk _) (by omega)
  have hend : (((location : Int) + length).toNat % 2 ^ 32 : Nat) = (location + length) % 2 ^ 32 := by
    rw [← Nat.cast_add, Int.toNat_natCast]
  have hmod := Nat.mod_le (location + length) (2 ^ 32)
  rw [foundRanges, hend, hrangeUpTo]
  exact findRanges_literal hflags hpattern tables langCode junk1 junk2 hrounds (Int.natCast_nonneg _) (by omega)
    (fun _ => by omega) (by omega)

/-! ## The two together -/

/-- The search finds the first occurrence of the pattern, and the searches for all
pick the occurrences greedily. -/
def SearchesRight (tables : SearchTables) (map : CharToUniChar) (string stringToFind : CFString) (flags : CompareFlags)
    (langCode : Option LangCode) (junk1 junk2 : List UniChar) (rounds searches location length : Nat) : Prop :=
  let o := occurrencesOf (string.characters map) (stringToFind.characters map) flags
  (∃ result, findWithOptionsAndLocale tables map string stringToFind flags langCode junk1 junk2 rounds
      ⟨location, length⟩ = some result ∧ FindsFirst o location (location + length) result) ∧
  ∃ ps, o.Greedy location (location + length) ps ∧
    createArrayWithFindResults tables map string stringToFind flags langCode junk1 junk2 rounds searches
      ⟨location, length⟩ = some (if ps = [] then none else some (ps.map fun p => .upTo p (p + o.width)))

/-- Every occurrence that is to be picked has the pattern's bytes, and every one but
the first ends where the end of the range is remembered to be, or before. -/
def PicksSeen (map : CharToUniChar) (string stringToFind : CFString) (flags : CompareFlags) (location length : Nat) :
    Prop :=
  let o := occurrencesOf (string.characters map) (stringToFind.characters map) flags
  ∀ ps, o.Greedy location (location + length) ps →
    (∀ p ∈ ps, SameBytes string stringToFind p) ∧
      (flags.backwards = false → ∀ p ∈ ps.tail, p + o.width ≤ (((location + length) % 2 ^ 32 : Nat) : Int))

theorem upTo_injective (width : Int) : Function.Injective fun p => SearchRange.upTo p (p + width) :=
  fun _ _ h => congrArg SearchRange.location h

/-- The array of the ranges picked. -/
theorem createArrayWithFindResults_of_found {tables : SearchTables} {langCode : Option LangCode}
    {junk1 junk2 : List UniChar} {rounds searches : Nat} {range : SearchRange} {width : Int} {ps : List Int}
    (h : foundRanges tables map string.val stringToFind.val flags langCode junk1 junk2 rounds searches range =
      some (ps.map fun p => .upTo p (p + width))) :
    createArrayWithFindResults tables map string.val stringToFind.val flags langCode junk1 junk2 rounds searches range =
      some (if ps = [] then none else some (ps.map fun p => .upTo p (p + width))) := by
  rw [createArrayWithFindResults, h]
  cases ps with
  | nil => rfl
  | cons p ps => rfl

/-- What a search finds is what is picked first. -/
theorem FindsFirst.of_greedy {o : Occurrences} {occurs : Int → Prop} {lo hi limit : Int} {ps : List Int}
    (htruncated : (o.onlyAt occurs).Truncated lo hi limit ps) (hgreedy : o.Greedy lo hi ps)
    {result : Option SearchRange} (h : FindsFirst (o.onlyAt occurs) lo hi result) : FindsFirst o lo hi result := by
  cases hgreedy with
  | nil hnone =>
    cases result with
    | none => exact hnone
    | some foundRange =>
      obtain ⟨p, hp, -⟩ := h
      exact absurd hp.inside (htruncated p)
  | @cons _ _ p ps hfirst _ =>
    cases result with
    | none => exact absurd htruncated.1.inside (h p)
    | some foundRange =>
      obtain ⟨q, hq, rfl⟩ := h
      obtain rfl := hq.unique htruncated.1
      exact ⟨q, hfirst, rfl⟩

/-- What the searches for all give, where they are right, is picked greedily. -/
theorem SearchesRight.greedy {tables : SearchTables} {langCode : Option LangCode} {junk1 junk2 : List UniChar}
    {rounds searches location length : Nat} {ps : List Int}
    (h : SearchesRight tables map string.val stringToFind.val flags langCode junk1 junk2 rounds searches location
      length)
    (hfound : foundRanges tables map string.val stringToFind.val flags langCode junk1 junk2 rounds searches
        ⟨location, length⟩ =
      some (ps.map fun p => .upTo p (p +
        (occurrencesOf (string.val.characters map) (stringToFind.val.characters map) flags).width))) :
    (occurrencesOf (string.val.characters map) (stringToFind.val.characters map) flags).Greedy location
      (location + length) ps := by
  obtain ⟨-, qs, hqs, harray⟩ := h
  have heq := Option.some.inj (harray.symm.trans (createArrayWithFindResults_of_found hfound))
  suffices qs = ps by rwa [← this]
  cases qs with
  | nil =>
    cases ps with
    | nil => rfl
    | cons p ps => cases heq
  | cons q qs =>
    cases ps with
    | nil => cases heq
    | cons p ps => exact List.map_injective_iff.mpr (upTo_injective _) (Option.some.inj heq)

theorem width_occurrencesOf (map : CharToUniChar) (string stringToFind : CFStringRef) (flags : CompareFlags) :
    (occurrencesOf (string.val.characters map) (stringToFind.val.characters map) flags).width =
      stringToFind.val.getLength :=
  congrArg Nat.cast (stringToFind.property.length_characters map)

/-- Nothing is lost in a range that ends below 2³², unless bytes are compared. -/
theorem picksSeen_of_lt (hunits : string.val.getCStringPtr = none ∨ stringToFind.val.getCStringPtr = none)
    {location length : Nat} (hlt : location + length < 2 ^ 32) :
    PicksSeen map string.val stringToFind.val flags location length := by
  intro ps hps
  refine ⟨fun p _ b1 b2 h1 h2 => ?_, fun _ p hp => ?_⟩
  · rcases hunits with hnone | hnone
    · rw [h1] at hnone
      cases hnone
    · rw [h2] at hnone
      cases hnone
  · rw [Nat.mod_eq_of_lt hlt]
    exact hps.upper (Int.natCast_nonneg _) p (List.mem_of_mem_tail hp)

end Literal

/-- Tables for texts in which only ASCII letters and digits are not ignored. -/
def asciiSearchTables : SearchTables where
  toUnicodeTables := asciiTables
  nonAlphanumeric character := !(Char.ofNat character).isAlphanum
  combiningProperty _ := 0
  rangeOfGraphemeCluster _ charIndex := ⟨charIndex, 1⟩

/-- In a text of one letter, the range of which ends at a multiple of 2³², the
searches for all find the first only. -/
theorem foundRanges_oneLetter {units : List UniChar} (hunits : ∀ unit ∈ units, unit = 0x61)
    (hend : units.length % 2 ^ 32 = 0) (hlen : 1 < units.length) (tables : SearchTables) {rounds searches : Nat}
    (hrounds : 1 < rounds) (hsearches : units.length < searches) :
    foundRanges tables .initial (inlineUnicode units) (inlineUnicode [0x61]) (caseFlags false) none [] [] rounds
        searches ⟨0, units.length⟩ = some [⟨0, 1⟩] ∧
      ¬SearchesRight tables .initial (inlineUnicode units) (inlineUnicode [0x61]) (caseFlags false) none [] [] rounds
        searches 0 units.length := by
  let string : CFStringRef := ⟨inlineUnicode units, inlineUnicode_wellFormed _⟩
  let stringToFind : CFStringRef := ⟨inlineUnicode [0x61], inlineUnicode_wellFormed _⟩
  let o := occurrencesOf (string.val.characters .initial) (stringToFind.val.characters .initial) (caseFlags false)
  have hchars : string.val.characters .initial = units := by
    rw [@CFString.characters_unicode .initial _ units rfl]
    exact List.take_length
  have hinside : ∀ lo p : Nat, lo ≤ p → p < units.length → o.Inside lo units.length p := by
    intro lo p hlo hp
    refine ⟨⟨Int.natCast_nonneg p, ?_⟩, Int.ofNat_le.mpr hlo, ?_, nofun⟩
    · show [0x61] <+: (string.val.characters .initial).drop (p : Int).toNat
      rw [hchars, Int.toNat_natCast, ← List.getElem_cons_drop hp, hunits _ (List.getElem_mem hp)]
      exact ⟨_, rfl⟩
    · show (p : Int) + 1 ≤ units.length
      omega
  obtain ⟨ps, htruncated, hfound⟩ := @foundRanges_literal .initial string stringToFind (caseFlags false)
    ⟨rfl, rfl, rfl, rfl, rfl⟩ Nat.one_pos tables none [] [] rounds hrounds 0 units.length
    (Nat.le_of_eq (Nat.zero_add _)) searches hsearches
  have hseen : (o.onlyAt (SeenAt .initial string stringToFind)).Inside 0 units.length 0 :=
    ⟨⟨(hinside 0 0 (Nat.le_refl 0) (by omega)).occurs, fun _ _ h1 => by cases h1⟩, Int.le_refl 0,
      (hinside 0 0 (Nat.le_refl 0) (by omega)).upper, nofun⟩
  rw [Nat.zero_add, hend, Nat.cast_zero, Int.zero_add] at htruncated
  cases ps with
  | nil => exact absurd hseen (htruncated 0)
  | cons p ps =>
    obtain rfl : p = 0 := by
      have hle : p ≤ 0 := htruncated.1.first 0 hseen
      have hlower := htruncated.1.inside.lower
      omega
    obtain rfl : ps = [] := by
      cases htruncated.2 with
      | nil => rfl
      | @cons _ _ q _ hfirst _ =>
        have hlower : 0 + 1 ≤ q := hfirst.inside.lower
        have hupper : q + 1 ≤ 0 := hfirst.inside.upper
        omega
    refine ⟨hfound, fun hright => ?_⟩
    cases hright.greedy hfound with
    | cons _ hrest =>
      cases hrest with
      | nil hnone =>
        have hsecond := hinside 1 1 (Nat.le_refl 1) hlen
        rw [← Int.zero_add ((units.length : Nat) : Int)] at hsecond
        exact hnone _ hsecond

end CFLite.Strings
