import Mathlib.Data.Prod.Lex
import CFLite.Framework.Budget
import CFLite.Strings.Find

/-!
# The progress of a search

An attempt at a position goes on in the text and in the pattern until it ends.
Neither the folding of a cluster nor the skipping of characters comes past the
end of a string, where `CFStringGetCharacterFromInlineBuffer` gives U+0000.

* `foldCharacterClusterAtIndex_within`: a cluster ends in the string;
* `Search.unicodeStep_rounds`: a round goes on in the text or in the pattern;
* `Search.unicodeLoop_settles`: the loop over folded characters ends.
-/

namespace CFLite.Strings

open Framework

/-! ## Clusters -/

section Clusters

variable {tables : UnicodeTables} {flags : CompareFlags} {langCode : Option LangCode} {next : Nat → UniChar}
  {limit : Nat}

theorem lt_of_next_ne_zero (hnext : ∀ k ≥ limit, next k = 0) {k : Nat} (h : (next k).toNat ≠ 0) : k < limit :=
  Nat.lt_of_not_le fun hle => h (by rw [hnext k hle]; rfl)

theorem one_le_characterAt (next : Nat → UniChar) (index : Nat) : 1 ≤ (characterAt next index).2 := by
  unfold characterAt
  dsimp only
  split
  · exact Nat.le_succ 1
  · exact Nat.le_refl 1

/-- A character that is not U+0000 ends in the string. -/
theorem characterAt_le (hnext : ∀ k ≥ limit, next k = 0) {index : Nat} (h : (characterAt next index).1 ≠ 0) :
    index + (characterAt next index).2 ≤ limit := by
  unfold characterAt at h ⊢
  dsimp only at h ⊢
  split
  · rename_i hpair
    have hlow := lt_of_next_ne_zero hnext (k := index + 1) fun h0 => by
      have := hpair.2.1
      omega
    exact hlow
  · rename_i hpair
    rw [if_neg hpair] at h
    exact lt_of_next_ne_zero hnext h

/-- The cluster ends in the string, after the character it begins with. -/
def Cluster.Within (limit : Nat) (cluster : Cluster) : Prop := 1 ≤ cluster.currentIndex ∧ cluster.currentIndex ≤ limit

theorem mapWidth_currentIndex (cluster : Cluster) :
    (mapWidth tables flags cluster).currentIndex = cluster.currentIndex := by
  unfold mapWidth
  split <;> rfl

theorem mapSurrogates_within (hnext : ∀ k ≥ limit, next k = 0) {planeNo : Nat} {cluster : Cluster}
    (h : cluster.Within limit) : (mapSurrogates next planeNo cluster).1.Within limit := by
  unfold mapSurrogates
  dsimp only
  split
  · rename_i hpair
    have hlow := lt_of_next_ne_zero hnext (k := cluster.currentIndex) fun h0 => by
      have := hpair.2.2.1
      omega
    exact ⟨Nat.le_add_left 1 _, hlow⟩
  · exact h

theorem decompose_currentIndex (planeNo : Nat) (cluster : Cluster) :
    (decompose tables flags planeNo cluster).currentIndex = cluster.currentIndex := by
  unfold decompose
  dsimp only
  split
  · split
    · rfl
    · split <;> rfl
  · rfl

theorem foldTurkik_within (hnext : ∀ k ≥ limit, next k = 0) {cluster : Cluster} (h : cluster.Within limit) :
    (foldTurkik langCode next cluster).Within limit := by
  unfold foldTurkik
  split
  · split
    · split
      · exact h
      · exact h
    · split
      · rename_i hdot
        have hlow := lt_of_next_ne_zero hnext (k := cluster.currentIndex) (by rw [hdot]; decide)
        exact ⟨Nat.le_add_left 1 _, hlow⟩
      · exact h
  · exact h

theorem foldCase_within (hnext : ∀ k ≥ limit, next k = 0) (planeNo : Nat) {cluster : Cluster}
    (h : cluster.Within limit) : (foldCase tables flags langCode next planeNo cluster).Within limit := by
  unfold foldCase
  split
  · dsimp only
    split
    · exact foldTurkik_within hnext h
    · exact foldTurkik_within hnext h
  · exact h

variable (hnul : tables.isMember .graphemeExtend 0 0 = false)

include hnul

/-- A mark is not U+0000. -/
theorem ne_zero_of_mark {character : Nat} (h : tables.isMember .graphemeExtend (character >>> 16) character = true) :
    character ≠ 0 := by
  rintro rfl
  rw [Nat.zero_shiftRight, hnul] at h
  cases h

theorem collectFirst_within (hnext : ∀ k ≥ limit, next k = 0) {cluster : Cluster} (h : cluster.Within limit) :
    (collectFirst tables flags next cluster).1.Within limit := by
  unfold collectFirst
  dsimp only
  split
  · exact h
  · split
    · exact h
    · split
      · rename_i hmark
        exact ⟨h.1.trans (Nat.le_add_right _ _), characterAt_le hnext (ne_zero_of_mark hnul hmark)⟩
      · exact h

theorem collectMarks_within (hnext : ∀ k ≥ limit, next k = 0) {doFill : Bool} {rounds : Nat} {cluster : Cluster}
    (h : cluster.Within limit) : (collectMarks tables next doFill rounds cluster).Within limit := by
  induction rounds generalizing cluster with
  | zero => exact h
  | succ rounds ih =>
    rw [collectMarks]
    dsimp only
    split
    · split
      · exact ih h
      · split
        · rename_i hmark
          have hpast : 1 ≤ cluster.currentIndex + (characterAt next cluster.currentIndex).2 ∧
              cluster.currentIndex + (characterAt next cluster.currentIndex).2 ≤ limit :=
            ⟨h.1.trans (Nat.le_add_right _ _), characterAt_le hnext (ne_zero_of_mark hnul hmark)⟩
          split
          · split
            · split
              · exact h
              · exact ih hpast
            · exact ih hpast
          · exact ih hpast
        · exact h
    · exact h

/-- What a character and its marks are folded from ends in the string. -/
theorem foldCharacterClusterAtIndex_within (hlimit : 1 ≤ limit) (hnext : ∀ k ≥ limit, next k = 0) (length : Nat)
    {character : Nat} (h : (foldCharacterClusterAtIndex tables flags langCode next length character).1 ≠ []) :
    1 ≤ (foldCharacterClusterAtIndex tables flags langCode next length character).2 ∧
      (foldCharacterClusterAtIndex tables flags langCode next length character).2 ≤ limit := by
  have hstart : ∀ character, Cluster.Within limit ⟨character, [], 1, false⟩ := fun _ => ⟨Nat.le_refl 1, hlimit⟩
  unfold foldCharacterClusterAtIndex at h ⊢
  by_cases hzero : character = 0
  · rw [if_pos hzero] at h
    exact absurd rfl h
  · rw [if_neg hzero]
    dsimp only
    generalize hcluster :
      (if character < 0x0080 ∧ (langCode = none ∨ character ≠ 'I'.toNat) then _ else _ : Cluster) = cluster
    have hwithin : cluster.Within limit := by
      rw [← hcluster]
      split
      · split
        · exact ⟨Nat.le_refl 1, hlimit⟩
        · exact hstart character
      · refine foldCase_within hnext _ ?_
        unfold Cluster.Within
        rw [decompose_currentIndex]
        refine mapSurrogates_within hnext ?_
        unfold Cluster.Within
        rw [mapWidth_currentIndex]
        exact hstart character
    split
    · exact @collectMarks_within tables next limit hnul hnext (collectFirst tables flags next cluster).2 (length + 2)
        (collectFirst tables flags next cluster).1 (collectFirst_within hnul hnext hwithin)
    · exact hwithin

end Clusters

/-! ## Cursors -/

namespace Search

variable {s : Search}

theorem foldAt_within (hnul : s.tables.isMember .graphemeExtend 0 0 = false) {access : Int → UniChar} {limit : Int}
    (haccess : ∀ index ≥ limit, access index = 0) {index : Int} (hindex : index < limit) {character : Nat}
    (h : (s.foldAt access limit index character).1 ≠ []) :
    1 ≤ (s.foldAt access limit index character).2 ∧ index + (s.foldAt access limit index character).2 ≤ limit := by
  have hnext : ∀ k ≥ (limit - index).toNat, access (index + (k : Nat)) = 0 := fun k hk => haccess _ (by omega)
  have hwithin := foldCharacterClusterAtIndex_within hnul (by omega) hnext _ h
  refine ⟨hwithin.1, ?_⟩
  have hupper := hwithin.2
  unfold foldAt
  omega

/-- Where a cursor is between two rounds. -/
structure Cursor.Between (limit : Int) (cursor : Cursor) : Prop where
  idle : cursor.strBuf = [] → cursor.index ≤ limit
  busy : cursor.strBuf ≠ [] → 1 ≤ cursor.usedLen ∧ cursor.index + cursor.usedLen ≤ limit ∧
    1 ≤ cursor.strBufIndex ∧ cursor.strBufIndex < cursor.strBuf.length

theorem Cursor.Between.le {limit : Int} {cursor : Cursor} (h : cursor.Between limit) : cursor.index ≤ limit := by
  by_cases hidle : cursor.strBuf = []
  · exact h.idle hidle
  · have := h.busy hidle
    omega

/-- Where a cursor is in a round that has read a character of its string. -/
structure Cursor.Within (limit : Int) (cursor : Cursor) : Prop where
  used : 1 ≤ cursor.usedLen ∧ cursor.index + cursor.usedLen ≤ limit
  busy : cursor.strBuf ≠ [] → 1 ≤ cursor.strBufIndex ∧ cursor.strBufIndex ≤ cursor.strBuf.length

/-- The characters left in the buffer. -/
def Cursor.left (cursor : Cursor) : Nat := if cursor.strBuf = [] then 0 else cursor.strBuf.length - cursor.strBufIndex

theorem read_index (access : Int → UniChar) (cursor : Cursor) : (s.read access cursor).2.index = cursor.index := by
  unfold read
  split <;> rfl

theorem read_strBuf (access : Int → UniChar) (cursor : Cursor) : (s.read access cursor).2.strBuf = cursor.strBuf := by
  unfold read
  split <;> rfl

theorem read_within (access : Int → UniChar) {limit : Int} {cursor : Cursor} (h : cursor.Between limit)
    (hindex : cursor.strBuf = [] → cursor.index < limit) : (s.read access cursor).2.Within limit := by
  unfold read
  split
  · rename_i hidle
    exact ⟨⟨Nat.le_refl 1, hindex hidle⟩, fun hbusy => absurd hidle hbusy⟩
  · rename_i hbusy
    obtain ⟨h1, h2, h3, h4⟩ := h.busy hbusy
    exact ⟨⟨h1, h2⟩, fun _ => ⟨Nat.le_add_left 1 _, h4⟩⟩

theorem Cursor.join_fields (access : Int → UniChar) (character : Nat) (cursor : Cursor) :
    (cursor.join access character).2.index = cursor.index ∧ (cursor.join access character).2.strBuf = cursor.strBuf ∧
      (cursor.join access character).2.strBufIndex = cursor.strBufIndex := by
  unfold join
  dsimp only
  split <;> exact ⟨rfl, rfl, rfl⟩

theorem Cursor.join_within {access : Int → UniChar} {limit : Int} (haccess : ∀ index ≥ limit, access index = 0)
    (character : Nat) {cursor : Cursor} (h : cursor.Within limit) : (cursor.join access character).2.Within limit := by
  unfold join
  dsimp only
  split
  · rename_i hpair
    refine ⟨⟨Nat.le_succ 1, ?_⟩, h.busy⟩
    have hlow : cursor.index + 1 < limit := by
      by_contra hle
      have hlow := hpair.2.1
      rw [haccess (cursor.index + 1) (by omega)] at hlow
      exact absurd hlow (by decide)
    show cursor.index + 2 ≤ limit
    omega
  · exact h

/-- The end of a round moves the cursor on, or leaves it in its buffer. -/
theorem Cursor.advance_spec {limit : Int} {cursor : Cursor} (h : cursor.Within limit) :
    cursor.advance.Between limit ∧
      (cursor.strBuf = [] ∨ cursor.strBufIndex = cursor.strBuf.length →
        cursor.advance.strBuf = [] ∧ cursor.advance.index = cursor.index + cursor.usedLen) ∧
      (cursor.strBuf ≠ [] → cursor.strBufIndex ≠ cursor.strBuf.length → cursor.advance = cursor) := by
  obtain ⟨index, strBuf, strBufIndex, usedLen⟩ := cursor
  obtain ⟨⟨h1, h2⟩, hbusy⟩ := h
  simp only at h1 h2 hbusy
  unfold advance
  by_cases hidle : strBuf = []
  · subst hidle
    refine ⟨⟨fun _ => h2, fun h => absurd rfl h⟩, fun _ => ⟨rfl, rfl⟩, fun h => absurd rfl h⟩
  · by_cases hlast : strBufIndex = strBuf.length
    · simp only [ne_eq, hidle, not_false_eq_true, hlast, and_self, if_true, or_true, not_true_eq_false,
        false_implies, implies_true, and_true]
      exact ⟨fun _ => h2, fun h => absurd rfl h⟩
    · simp only [ne_eq, hidle, not_false_eq_true, hlast, and_false, if_false, or_self, false_implies, true_implies,
        and_self, and_true]
      obtain ⟨h3, h4⟩ := hbusy hidle
      exact ⟨fun h => absurd h hidle, fun _ => ⟨h1, h2, h3, by show strBufIndex < strBuf.length; omega⟩⟩

/-- Where a cursor comes to in a round. -/
structure Cursor.Advanced (limit : Int) (cursor cursor' : Cursor) : Prop where
  between : cursor'.Between limit
  le : cursor.index ≤ cursor'.index
  moved : cursor'.strBuf = [] → cursor.index < cursor'.index

theorem Cursor.Advanced.of_index {limit : Int} {start cursor cursor' : Cursor} (h : cursor.Advanced limit cursor')
    (hindex : cursor.index = start.index) : start.Advanced limit cursor' :=
  ⟨h.between, hindex ▸ h.le, hindex ▸ h.moved⟩

theorem Cursor.advance_advanced {limit : Int} {cursor : Cursor} (h : cursor.Within limit) :
    cursor.Advanced limit cursor.advance := by
  obtain ⟨hbetween, hmoved, hkept⟩ := advance_spec h
  have hused := h.used.1
  by_cases hdone : cursor.strBuf = [] ∨ cursor.strBufIndex = cursor.strBuf.length
  · obtain ⟨-, hindex⟩ := hmoved hdone
    exact ⟨hbetween, by omega, fun _ => by omega⟩
  · obtain ⟨hbusy, hlast⟩ := not_or.mp hdone
    have heq := hkept hbusy hlast
    exact ⟨hbetween, Int.le_of_eq (congrArg Cursor.index heq.symm), fun hidle => absurd (heq ▸ hidle) hbusy⟩

theorem fold_within (hnul : s.tables.isMember .graphemeExtend 0 0 = false) {access : Int → UniChar} {limit : Int}
    (haccess : ∀ index ≥ limit, access index = 0) (character : Nat) {cursor : Cursor} (h : cursor.Within limit) :
    (s.fold access limit character cursor).2.Within limit ∧
      (s.fold access limit character cursor).2.index = cursor.index := by
  have hused := h.used
  have hfold := @foldAt_within s hnul access limit haccess cursor.index (by omega) character
  unfold fold
  generalize s.foldAt access limit cursor.index character = folded at hfold ⊢
  obtain ⟨strBuf, usedLen⟩ := folded
  cases strBuf with
  | nil => exact ⟨h, rfl⟩
  | cons first rest =>
    exact ⟨⟨hfold (List.cons_ne_nil _ _), fun _ => ⟨Nat.le_refl 1, Nat.le_add_left 1 rest.length⟩⟩, rfl⟩

/-- What a stage of a round may do to the cursors: at a `break` or not, they stay
where they are, and in order. -/
def Stays (s : Search) (cursor1 cursor2 : Cursor) : (Cursor × Cursor) ⊕ (Cursor × Cursor) → Prop
  | .inl (cursor1', cursor2') => cursor1'.index = cursor1.index ∧ cursor2'.index = cursor2.index
  | .inr (cursor1', cursor2') => cursor1'.index = cursor1.index ∧ cursor2'.index = cursor2.index ∧
    cursor1'.Within s.maxStr1Index ∧ cursor2'.Within s.findStrLen

/-- Past the ends of what is read there is U+0000, which is no mark. -/
structure Ends (s : Search) : Prop where
  text : ∀ index ≥ s.maxStr1Index, s.access1 index = 0
  pattern : ∀ index ≥ s.findStrLen, s.access2 index = 0
  nul : s.tables.isMember .graphemeExtend 0 0 = false

/-- Where a round leads that goes on: the cursors are in order, at most one of them
in its buffer, neither has gone back, one of them has come on, and the pattern does
not end where nothing of the text was taken. -/
structure Goes (s : Search) (fromLoc : Int) (cursor1 cursor2 cursor1' cursor2' : Cursor) : Prop where
  between1 : cursor1'.Between s.maxStr1Index
  between2 : cursor2'.Between s.findStrLen
  idle : cursor1'.strBuf = [] ∨ cursor2'.strBuf = []
  le1 : cursor1.index ≤ cursor1'.index
  le2 : cursor2.index ≤ cursor2'.index
  on : (cursor1.index < cursor1'.index ∨ cursor2.index < cursor2'.index) ∨
    cursor1'.index = cursor1.index ∧ cursor2'.index = cursor2.index ∧
      cursor1'.left + cursor2'.left < cursor1.left + cursor2.left
  start : cursor1'.strBuf = [] → cursor1'.index = fromLoc → cursor2'.index < s.findStrLen

/-- What a round may come to. A `break` leaves the cursors where they are, and at the
end of the range the text's is in no buffer. -/
def Rounds (s : Search) (fromLoc : Int) (cursor1 cursor2 : Cursor) : (Cursor × Cursor) ⊕ (Cursor × Cursor) → Prop
  | .inl (cursor1', cursor2') => cursor1'.index = cursor1.index ∧ cursor2'.index = cursor2.index ∧
    (cursor1.index < s.maxStr1Index ∨ cursor1'.strBuf = [])
  | .inr (cursor1', cursor2') => s.Goes fromLoc cursor1 cursor2 cursor1' cursor2'

/-- The end of a round: both cursors have come on, and one of them has left its
buffer. -/
def Comes (s : Search) (cursor1 cursor2 : Cursor) : (Cursor × Cursor) ⊕ (Cursor × Cursor) → Prop
  | .inl (cursor1', cursor2') => cursor1'.index = cursor1.index ∧ cursor2'.index = cursor2.index
  | .inr (cursor1', cursor2') => cursor1.Advanced s.maxStr1Index cursor1' ∧ cursor2.Advanced s.findStrLen cursor2' ∧
    (cursor1'.strBuf = [] ∨ cursor2'.strBuf = [])

theorem commonLength_le (as bs : List Nat) : commonLength as bs ≤ as.length ∧ commonLength as bs ≤ bs.length := by
  induction as generalizing bs with
  | nil => exact ⟨Nat.le_refl 0, Nat.zero_le _⟩
  | cons a as ih =>
    cases bs with
    | nil => exact ⟨Nat.zero_le _, Nat.le_refl 0⟩
    | cons b bs =>
      rw [commonLength]
      split
      · exact ⟨Nat.succ_le_succ (ih bs).1, Nat.succ_le_succ (ih bs).2⟩
      · exact ⟨Nat.zero_le _, Nat.zero_le _⟩

/-- Where the buffers have nothing left to compare, one of the cursors leaves its
buffer. -/
theorem compareLeft_comes {cursor1 cursor2 : Cursor} (h1 : cursor1.Within s.maxStr1Index)
    (h2 : cursor2.Within s.findStrLen) :
    s.Comes cursor1 cursor2 (match compareLeft cursor1 cursor2 with
      | .inl cursors => .inl cursors
      | .inr (cursor1, cursor2) => .inr (cursor1.advance, cursor2.advance)) := by
  unfold compareLeft
  dsimp only
  by_cases hbusy : cursor1.strBuf ≠ [] ∧ cursor2.strBuf ≠ []
  · rw [if_pos hbusy]
    obtain ⟨hlow1, hhigh1⟩ := h1.busy hbusy.1
    obtain ⟨hlow2, hhigh2⟩ := h2.busy hbusy.2
    have hcommon := commonLength_le (cursor1.strBuf.drop cursor1.strBufIndex) (cursor2.strBuf.drop cursor2.strBufIndex)
    rw [List.length_drop, List.length_drop] at hcommon
    generalize commonLength (cursor1.strBuf.drop cursor1.strBufIndex) (cursor2.strBuf.drop cursor2.strBufIndex) =
      common at *
    by_cases hleft : cursor1.strBufIndex + common < cursor1.strBuf.length ∧
        cursor2.strBufIndex + common < cursor2.strBuf.length
    · rw [if_pos hleft]
      exact ⟨rfl, rfl⟩
    · rw [if_neg hleft]
      have h1' : Cursor.Within s.maxStr1Index { cursor1 with strBufIndex := cursor1.strBufIndex + common } :=
        ⟨h1.used, fun _ => by dsimp only; omega⟩
      have h2' : Cursor.Within s.findStrLen { cursor2 with strBufIndex := cursor2.strBufIndex + common } :=
        ⟨h2.used, fun _ => by dsimp only; omega⟩
      refine ⟨(Cursor.advance_advanced h1').of_index rfl, (Cursor.advance_advanced h2').of_index rfl, ?_⟩
      rcases Nat.lt_or_ge (cursor1.strBufIndex + common) cursor1.strBuf.length with hlt | hge
      · exact .inr ((Cursor.advance_spec h2').2.1 (.inr (by dsimp only; omega))).1
      · exact .inl ((Cursor.advance_spec h1').2.1 (.inr (by dsimp only; omega))).1
  · rw [if_neg hbusy]
    refine ⟨Cursor.advance_advanced h1, Cursor.advance_advanced h2, ?_⟩
    rcases not_and_or.mp hbusy with hidle | hidle
    · exact .inl ((Cursor.advance_spec h1).2.1 (.inl (not_not.mp hidle))).1
    · exact .inr ((Cursor.advance_spec h2).2.1 (.inl (not_not.mp hidle))).1

variable (hs : s.Ends)

include hs

theorem foldBoth_stays (str1Char str2Char : Nat) {cursor1 cursor2 : Cursor} (h1 : cursor1.Within s.maxStr1Index)
    (h2 : cursor2.Within s.findStrLen) : s.Stays cursor1 cursor2 (s.foldBoth str1Char str2Char cursor1 cursor2) := by
  have hfold1 : ∀ {folded : Nat × Cursor},
      (if cursor1.strBuf = [] then s.fold s.access1 s.maxStr1Index str1Char cursor1 else (str1Char, cursor1)) = folded →
        folded.2.index = cursor1.index ∧ folded.2.Within s.maxStr1Index := by
    rintro folded rfl
    split
    · exact (fold_within hs.nul hs.text str1Char h1).symm
    · exact ⟨rfl, h1⟩
  have hfold2 := fold_within hs.nul hs.pattern str2Char h2
  rw [foldBoth]
  generalize hfolded : (if cursor1.strBuf = [] then s.fold s.access1 s.maxStr1Index str1Char cursor1
    else (str1Char, cursor1)) = folded
  obtain ⟨hindex, hwithin⟩ := hfold1 hfolded
  obtain ⟨folded1, cursor1'⟩ := folded
  dsimp only at hindex hwithin ⊢
  split
  · exact ⟨hindex, rfl⟩
  · split
    · split
      · exact ⟨hindex, hfold2.2⟩
      · exact ⟨hindex, hfold2.2, hwithin, hfold2.1⟩
    · exact ⟨hindex, rfl, hwithin, h2⟩

/-- The characters of a round that differ, after the marks. -/
theorem differ_comes (str1Char str2Char : Nat) {cursor1 cursor2 : Cursor} (h1 : cursor1.Within s.maxStr1Index)
    (h2 : cursor2.Within s.findStrLen) :
    s.Comes cursor1 cursor2
      (match if str1Char ≠ str2Char then s.foldBoth str1Char str2Char cursor1 cursor2 else .inr (cursor1, cursor2) with
      | .inl cursors => .inl cursors
      | .inr (cursor1, cursor2) =>
        match compareLeft cursor1 cursor2 with
        | .inl cursors => .inl cursors
        | .inr (cursor1, cursor2) => .inr (cursor1.advance, cursor2.advance)) := by
  have hstays : s.Stays cursor1 cursor2
      (if str1Char ≠ str2Char then s.foldBoth str1Char str2Char cursor1 cursor2 else .inr (cursor1, cursor2)) := by
    split
    · exact foldBoth_stays hs str1Char str2Char h1 h2
    · exact ⟨rfl, rfl, h1, h2⟩
  generalize (if str1Char ≠ str2Char then s.foldBoth str1Char str2Char cursor1 cursor2
    else .inr (cursor1, cursor2)) = folded at hstays ⊢
  cases folded with
  | inl cursors => exact hstays
  | inr cursors =>
    obtain ⟨cursor1', cursor2'⟩ := cursors
    obtain ⟨hindex1, hindex2, hwithin1, hwithin2⟩ := hstays
    have hcomes := compareLeft_comes hwithin1 hwithin2
    dsimp only
    generalize compareLeft cursor1' cursor2' = left at hcomes ⊢
    cases left with
    | inl cursors => exact ⟨hcomes.1.trans hindex1, hcomes.2.trans hindex2⟩
    | inr cursors =>
      exact ⟨hcomes.1.of_index hindex1, hcomes.2.1.of_index hindex2, hcomes.2.2⟩

omit hs in
theorem Comes.rounds {fromLoc : Int} {cursor1 cursor2 : Cursor} (hfrom : fromLoc ≤ cursor1.index)
    (hlt : cursor1.index < s.maxStr1Index) {result : (Cursor × Cursor) ⊕ (Cursor × Cursor)}
    (h : s.Comes cursor1 cursor2 result) : s.Rounds fromLoc cursor1 cursor2 result := by
  cases result with
  | inl cursors => exact ⟨h.1, h.2, .inl hlt⟩
  | inr cursors =>
    obtain ⟨cursor1', cursor2'⟩ := cursors
    obtain ⟨h1, h2, hidle⟩ := h
    refine ⟨h1.between, h2.between, hidle, h1.le, h2.le, .inl (hidle.imp h1.moved h2.moved), fun hidle1 hstart => ?_⟩
    have := h1.moved hidle1
    omega

omit hs in
/-- Between buffers, cursors at the same character come past it. -/
theorem same_rounds (character : Nat) {cursor1 cursor2 : Cursor} (hidle1 : cursor1.strBuf = [])
    (hidle2 : cursor2.strBuf = []) :
    (match
        if character ≠ character then s.foldBoth character character cursor1 cursor2 else .inr (cursor1, cursor2) with
      | .inl cursors => .inl cursors
      | .inr (cursor1, cursor2) =>
        match compareLeft cursor1 cursor2 with
        | .inl cursors => .inl cursors
        | .inr (cursor1, cursor2) => .inr (cursor1.advance, cursor2.advance) : (Cursor × Cursor) ⊕ (Cursor × Cursor)) =
      .inr ({ cursor1 with index := cursor1.index + cursor1.usedLen },
        { cursor2 with index := cursor2.index + cursor2.usedLen }) := by
  obtain ⟨index1, strBuf1, strBufIndex1, usedLen1⟩ := cursor1
  obtain ⟨index2, strBuf2, strBufIndex2, usedLen2⟩ := cursor2
  simp only at hidle1 hidle2
  subst hidle1 hidle2
  rw [if_neg (not_not.mpr rfl)]
  rfl

/-- A mark of one string only is skipped between buffers. -/
def MarksApart (s : Search) (fromLoc : Int) (str1Char str2Char : Nat) (cursor1 cursor2 : Cursor) : Prop :=
  s.flags.diacriticInsensitive = true → fromLoc < cursor1.index →
    (s.isSkipped str1Char cursor1 = true → cursor2.strBuf = []) ∧
      (s.isSkipped str2Char cursor2 = true → cursor1.strBuf = [])

theorem compareDifferent_rounds {fromLoc : Int} (str1Char str2Char : Nat) {cursor1 cursor2 : Cursor}
    (hfrom : fromLoc ≤ cursor1.index) (h1 : cursor1.Within s.maxStr1Index) (h2 : cursor2.Within s.findStrLen)
    (hmarks : s.MarksApart fromLoc str1Char str2Char cursor1 cursor2) :
    s.Rounds fromLoc cursor1 cursor2 (s.compareDifferent fromLoc str1Char str2Char cursor1 cursor2) := by
  have hused1 := h1.used
  have hused2 := h2.used
  have hlt : cursor1.index < s.maxStr1Index := by omega
  rw [compareDifferent, skipMarks]
  by_cases hskip : s.flags.diacriticInsensitive = true ∧ cursor1.index > fromLoc
  · rw [if_pos hskip]
    obtain ⟨hmarks1, hmarks2⟩ := hmarks hskip.1 hskip.2
    have hidle1 : s.isSkipped str1Char cursor1 = true → cursor1.strBuf = [] := fun h =>
      of_decide_eq_true (Bool.and_eq_true_iff.mp h).1
    have hidle2 : s.isSkipped str2Char cursor2 = true → cursor2.strBuf = [] := fun h =>
      of_decide_eq_true (Bool.and_eq_true_iff.mp h).1
    cases hskip1 : s.isSkipped str1Char cursor1 with
    | false =>
      cases hskip2 : s.isSkipped str2Char cursor2 with
      | false => exact (differ_comes hs str1Char str2Char h1 h2).rounds hfrom hlt
      | true =>
        have hidle1 : cursor1.strBuf = [] := hmarks2 hskip2
        have hidle2 := hidle2 hskip2
        simp only [Bool.false_eq_true, if_false, if_true, Bool.false_and, Bool.true_and, Bool.not_false]
        refine (congrArg (s.Rounds fromLoc cursor1 cursor2) (@same_rounds s str1Char
          { cursor1 with index := cursor1.index - cursor1.usedLen } cursor2 hidle1 hidle2)).mpr ?_
        exact
          { between1 := ⟨fun _ => by dsimp only; omega, fun h => absurd hidle1 h⟩
            between2 := ⟨fun _ => hused2.2, fun h => absurd hidle2 h⟩
            idle := .inl hidle1
            le1 := by dsimp only; omega
            le2 := by dsimp only; omega
            on := .inl (.inr (by dsimp only; omega))
            start := fun _ h => by dsimp only at h; omega }
    | true =>
      have hidle2 : cursor2.strBuf = [] := hmarks1 hskip1
      have hidle1 := hidle1 hskip1
      cases hskip2 : s.isSkipped str2Char cursor2 with
      | false =>
        simp only [Bool.false_eq_true, if_false, if_true, Bool.false_and, Bool.true_and, Bool.not_false]
        refine (congrArg (s.Rounds fromLoc cursor1 cursor2) (@same_rounds s str2Char cursor1
          { cursor2 with index := cursor2.index - cursor2.usedLen } hidle1 hidle2)).mpr ?_
        exact
          { between1 := ⟨fun _ => hused1.2, fun h => absurd hidle1 h⟩
            between2 := ⟨fun _ => by dsimp only; omega, fun h => absurd hidle2 h⟩
            idle := .inl hidle1
            le1 := by dsimp only; omega
            le2 := by dsimp only; omega
            on := .inl (.inl (by dsimp only; omega))
            start := fun _ h => by dsimp only at h; omega }
      | true =>
        simp only [Bool.false_eq_true, if_false, if_true, Bool.true_and, Bool.not_true]
        refine (congrArg (s.Rounds fromLoc cursor1 cursor2) (@same_rounds s str2Char cursor1 cursor2
          hidle1 hidle2)).mpr ?_
        exact
          { between1 := ⟨fun _ => hused1.2, fun h => absurd hidle1 h⟩
            between2 := ⟨fun _ => hused2.2, fun h => absurd hidle2 h⟩
            idle := .inl hidle1
            le1 := by dsimp only; omega
            le2 := by dsimp only; omega
            on := .inl (.inl (by dsimp only; omega))
            start := fun _ h => by dsimp only at h; omega }
  · rw [if_neg hskip]
    exact (differ_comes hs str1Char str2Char h1 h2).rounds hfrom hlt

/-! ## Rounds -/

/-- The character that a round reads of a string, its surrogates joined. -/
def joined (s : Search) (access : Int → UniChar) (cursor : Cursor) : Nat × Cursor :=
  (s.read access cursor).2.join access (s.read access cursor).1

/-- A round that does not take one of the branches that go wrong: past the end of
the range it does not find the pattern's U+0000; it does not skip a mark of one
string inside the buffer of the other; and it does not skip the last of the pattern
as ignored where nothing of the text was taken. -/
structure RoundOk (s : Search) (fromLoc : Int) (cursor1 cursor2 : Cursor) : Prop where
  nul : cursor1.strBuf = [] → s.maxStr1Index ≤ cursor1.index →
    (s.read s.access2 cursor2).1 ≠ 0 ∧
      (s.fold s.access2 s.findStrLen (s.joined s.access2 cursor2).1 (s.joined s.access2 cursor2).2).1 ≠ 0
  marks : (s.read s.access1 cursor1).1 ≠ (s.read s.access2 cursor2).1 →
    s.MarksApart fromLoc (s.joined s.access1 cursor1).1 (s.joined s.access2 cursor2).1 (s.joined s.access1 cursor1).2
      (s.joined s.access2 cursor2).2
  ignored : cursor1.strBuf = [] → cursor1.index = fromLoc →
    (s.joined s.access2 cursor2).2.advance.index = s.findStrLen →
    (s.read s.access1 cursor1).1 ≠ (s.read s.access2 cursor2).1 → s.ignores (s.joined s.access2 cursor2).1 = true →
    s.forwardAnchor = true ∧ s.ignores (s.joined s.access1 cursor1).1 = true

omit hs in
theorem joined_within {access : Int → UniChar} {limit : Int} (haccess : ∀ index ≥ limit, access index = 0)
    {cursor : Cursor} (h : cursor.Between limit) (hindex : cursor.strBuf = [] → cursor.index < limit) :
    (s.joined access cursor).2.Within limit :=
  Cursor.join_within haccess _ (read_within access h hindex)

omit hs in
theorem joined_fields (access : Int → UniChar) (cursor : Cursor) :
    (s.joined access cursor).2.index = cursor.index ∧ (s.joined access cursor).2.strBuf = cursor.strBuf ∧
      (cursor.strBuf ≠ [] → (s.joined access cursor).2.strBufIndex = cursor.strBufIndex + 1) := by
  obtain ⟨h1, h2, h3⟩ := Cursor.join_fields access (s.read access cursor).1 (s.read access cursor).2
  refine ⟨h1.trans (read_index access cursor), h2.trans (read_strBuf access cursor), fun hbusy => h3.trans ?_⟩
  unfold read
  rw [if_neg hbusy]

omit hs in
/-- A character that is read leaves no more in the buffer. -/
theorem left_joined (access : Int → UniChar) {limit : Int} {cursor : Cursor} (h : cursor.Between limit) :
    (s.joined access cursor).2.left ≤ cursor.left ∧
      (cursor.strBuf ≠ [] → (s.joined access cursor).2.left < cursor.left) := by
  obtain ⟨-, hbuf, hread⟩ := @joined_fields s access cursor
  unfold Cursor.left
  rw [hbuf]
  by_cases hidle : cursor.strBuf = []
  · rw [if_pos hidle, if_pos hidle]
    exact ⟨Nat.le_refl 0, fun h => absurd hidle h⟩
  · rw [if_neg hidle, if_neg hidle, hread hidle]
    obtain ⟨-, -, -, hlast⟩ := h.busy hidle
    exact ⟨by omega, fun _ => by omega⟩

omit hs in
/-- A character that is put back leaves the cursor as it was. -/
theorem unread_joined {access : Int → UniChar} {limit : Int} (haccess : ∀ index ≥ limit, access index = 0)
    {cursor : Cursor} (h : cursor.Between limit) :
    let unread := (s.joined access cursor).2.unread
    unread.Between limit ∧ unread.index = cursor.index ∧ unread.strBuf = cursor.strBuf ∧ unread.left = cursor.left := by
  obtain ⟨hindex, hbuf, hread⟩ := @joined_fields s access cursor
  unfold Cursor.unread
  by_cases hidle : cursor.strBuf = []
  · rw [if_neg (by rw [hbuf]; exact not_not.mpr hidle)]
    refine ⟨⟨fun _ => hindex ▸ h.idle hidle, fun hbusy => absurd (hbuf.trans hidle) hbusy⟩, hindex, hbuf, ?_⟩
    unfold Cursor.left
    rw [hbuf, if_pos hidle, if_pos hidle]
  · have hwithin := @joined_within s access limit haccess cursor h (fun h => absurd h hidle)
    obtain ⟨-, -, hlow, hlast⟩ := h.busy hidle
    have hback : (s.joined access cursor).2.strBufIndex - 1 = cursor.strBufIndex := by rw [hread hidle]; rfl
    rw [if_pos (by rw [hbuf]; exact hidle)]
    refine ⟨⟨fun h => absurd (hbuf.symm.trans h) hidle, fun _ => ⟨hwithin.used.1, hwithin.used.2, ?_⟩⟩, hindex, hbuf,
      ?_⟩
    · dsimp only
      rw [hback, hbuf]
      exact ⟨hlow, hlast⟩
    · unfold Cursor.left
      dsimp only
      rw [hback, hbuf]

/-- What the cursors keep from round to round. -/
structure Keeps (s : Search) (fromLoc : Int) (cursor1 cursor2 : Cursor) : Prop where
  between1 : cursor1.Between s.maxStr1Index
  between2 : cursor2.Between s.findStrLen
  idle : cursor1.strBuf = [] ∨ cursor2.strBuf = []
  from1 : fromLoc ≤ cursor1.index
  start : cursor1.strBuf = [] → cursor1.index = fromLoc → cursor2.index < s.findStrLen

/-- A character of the text that is ignored. -/
theorem ignored_text {fromLoc : Int} {cursor1 cursor2 : Cursor} (hkeeps : s.Keeps fromLoc cursor1 cursor2)
    (hin : cursor1.strBuf = [] → cursor1.index < s.maxStr1Index) :
    s.Goes fromLoc cursor1 cursor2 (s.joined s.access1 cursor1).2.advance (s.joined s.access2 cursor2).2.unread := by
  have hwithin := @joined_within s _ _ hs.text _ hkeeps.between1 hin
  obtain ⟨hindex, hbuf, -⟩ := @joined_fields s s.access1 cursor1
  obtain ⟨hbetween2, hindex2, hbuf2, hleft2⟩ := @unread_joined s _ _ hs.pattern _ hkeeps.between2
  obtain ⟨-, hmoved, hkept⟩ := Cursor.advance_spec hwithin
  have hadvanced := Cursor.advance_advanced hwithin
  have hle := hadvanced.le
  have hidle : (s.joined s.access1 cursor1).2.advance.strBuf = [] →
      cursor1.index < (s.joined s.access1 cursor1).2.advance.index := fun h => hindex ▸ hadvanced.moved h
  refine ⟨hadvanced.between, hbetween2, ?_, hindex ▸ hle, Int.le_of_eq hindex2.symm, ?_, fun h hstart => ?_⟩
  · rcases hkeeps.idle with h | h
    · exact .inl (hmoved (.inl (hbuf.trans h))).1
    · exact .inr (hbuf2.trans h)
  · by_cases hdone : (s.joined s.access1 cursor1).2.strBuf = [] ∨
        (s.joined s.access1 cursor1).2.strBufIndex = (s.joined s.access1 cursor1).2.strBuf.length
    · exact .inl (.inl (hidle (hmoved hdone).1))
    · obtain ⟨hbusy, hlast⟩ := not_or.mp hdone
      rw [hkept hbusy hlast, hleft2]
      have hless := (@left_joined s s.access1 _ _ hkeeps.between1).2 (hbuf ▸ hbusy)
      exact .inr ⟨hindex, hindex2, by omega⟩
  · have := hidle h
    have := hkeeps.from1
    omega

/-- A character of the pattern that is ignored. -/
theorem ignored_pattern {fromLoc : Int} {cursor1 cursor2 : Cursor} (hkeeps : s.Keeps fromLoc cursor1 cursor2)
    (hin : cursor2.index < s.findStrLen)
    (hlast : cursor1.strBuf = [] → cursor1.index = fromLoc →
      (s.joined s.access2 cursor2).2.advance.index ≠ s.findStrLen) :
    s.Goes fromLoc cursor1 cursor2 (s.joined s.access1 cursor1).2.unread (s.joined s.access2 cursor2).2.advance := by
  have hwithin := @joined_within s _ _ hs.pattern _ hkeeps.between2 fun _ => hin
  obtain ⟨hindex, hbuf, -⟩ := @joined_fields s s.access2 cursor2
  obtain ⟨hbetween1, hindex1, hbuf1, hleft1⟩ := @unread_joined s _ _ hs.text _ hkeeps.between1
  obtain ⟨-, hmoved, hkept⟩ := Cursor.advance_spec hwithin
  have hadvanced := Cursor.advance_advanced hwithin
  have hle := hadvanced.le
  refine ⟨hbetween1, hadvanced.between, ?_, Int.le_of_eq hindex1.symm, hindex ▸ hle, ?_, fun h hstart => ?_⟩
  · rcases hkeeps.idle with h | h
    · exact .inl (hbuf1.trans h)
    · exact .inr (hmoved (.inl (hbuf.trans h))).1
  · by_cases hdone : (s.joined s.access2 cursor2).2.strBuf = [] ∨
        (s.joined s.access2 cursor2).2.strBufIndex = (s.joined s.access2 cursor2).2.strBuf.length
    · exact .inl (.inr (hindex ▸ hadvanced.moved (hmoved hdone).1))
    · obtain ⟨hbusy, hend⟩ := not_or.mp hdone
      rw [hkept hbusy hend, hleft1]
      have hless := (@left_joined s s.access2 _ _ hkeeps.between2).2 (hbuf ▸ hbusy)
      exact .inr ⟨hindex1, hindex, by omega⟩
  · have hne := hlast (hbuf1 ▸ h) (hindex1 ▸ hstart)
    have hle := hadvanced.between.le
    omega

omit hs in
theorem unicodeStep_eq (fromLoc : Int) (cursor1 cursor2 : Cursor) :
    s.unicodeStep fromLoc cursor1 cursor2 =
      if (s.read s.access1 cursor1).1 = (s.read s.access2 cursor2).1 then
        .inr ((s.read s.access1 cursor1).2.advance, (s.read s.access2 cursor2).2.advance)
      else if (s.read s.access1 cursor1).1 < 0x80 ∧ (s.read s.access2 cursor2).1 < 0x80 ∧
          s.flags.ignoreNonAlphanumeric = false ∧ (s.langCode = none ∨ s.flags.caseInsensitive = false) then
        .inl ((s.read s.access1 cursor1).2, (s.read s.access2 cursor2).2)
      else if (s.forwardAnchor = true ∨ (s.joined s.access1 cursor1).2.index ≠ fromLoc) ∧
          (s.joined s.access1 cursor1).2.index < s.maxStr1Index ∧ s.ignores (s.joined s.access1 cursor1).1 = true then
        .inr ((s.joined s.access1 cursor1).2.advance, (s.joined s.access2 cursor2).2.unread)
      else if s.ignores (s.joined s.access2 cursor2).1 = true then
        .inr ((s.joined s.access1 cursor1).2.unread, (s.joined s.access2 cursor2).2.advance)
      else s.compareDifferent fromLoc (s.joined s.access1 cursor1).1 (s.joined s.access2 cursor2).1
        (s.joined s.access1 cursor1).2 (s.joined s.access2 cursor2).2 := rfl

/-- A round inside the range. -/
theorem unicodeStep_inside {fromLoc : Int} {cursor1 cursor2 : Cursor} (hkeeps : s.Keeps fromLoc cursor1 cursor2)
    (hin1 : cursor1.strBuf = [] → cursor1.index < s.maxStr1Index) (hin2 : cursor2.index < s.findStrLen)
    (hok : s.RoundOk fromLoc cursor1 cursor2) (hfrom : fromLoc < s.maxStr1Index) :
    s.Rounds fromLoc cursor1 cursor2 (s.unicodeStep fromLoc cursor1 cursor2) := by
  have hread1 := @read_within s s.access1 _ _ hkeeps.between1 hin1
  have hread2 := @read_within s s.access2 _ _ hkeeps.between2 fun _ => hin2
  have hjoined1 := @joined_within s _ _ hs.text _ hkeeps.between1 hin1
  have hjoined2 := @joined_within s _ _ hs.pattern _ hkeeps.between2 fun _ => hin2
  obtain ⟨hindex1, hbuf1, -⟩ := @joined_fields s s.access1 cursor1
  obtain ⟨hindex2, hbuf2, -⟩ := @joined_fields s s.access2 cursor2
  have hlt : cursor1.index < s.maxStr1Index := by
    by_cases hidle : cursor1.strBuf = []
    · exact hin1 hidle
    · have := hkeeps.between1.busy hidle
      omega
  rw [unicodeStep_eq]
  by_cases hsame : (s.read s.access1 cursor1).1 = (s.read s.access2 cursor2).1
  · rw [if_pos hsame]
    have ha1 := (Cursor.advance_advanced hread1).of_index (read_index s.access1 cursor1)
    have ha2 := (Cursor.advance_advanced hread2).of_index (read_index s.access2 cursor2)
    refine Comes.rounds hkeeps.from1 hlt ⟨ha1, ha2, hkeeps.idle.imp (fun h => ?_) fun h => ?_⟩
    · exact ((Cursor.advance_spec hread1).2.1 (.inl ((read_strBuf _ _).trans h))).1
    · exact ((Cursor.advance_spec hread2).2.1 (.inl ((read_strBuf _ _).trans h))).1
  · rw [if_neg hsame]
    by_cases hascii : (s.read s.access1 cursor1).1 < 0x80 ∧ (s.read s.access2 cursor2).1 < 0x80 ∧
        s.flags.ignoreNonAlphanumeric = false ∧ (s.langCode = none ∨ s.flags.caseInsensitive = false)
    · rw [if_pos hascii]
      exact ⟨read_index _ _, read_index _ _, .inl hlt⟩
    · rw [if_neg hascii]
      split
      · exact ignored_text hs hkeeps hin1
      · rename_i htext
        split
        · rename_i hpattern
          refine ignored_pattern hs hkeeps hin2 fun hidle hstart hend => htext ?_
          obtain ⟨hanchor, hignored⟩ := hok.ignored hidle hstart hend hsame hpattern
          exact ⟨.inl hanchor, by rw [hindex1, hstart]; exact hfrom, hignored⟩
        · have hrounds := compareDifferent_rounds hs (s.joined s.access1 cursor1).1 (s.joined s.access2 cursor2).1
            (hindex1 ▸ hkeeps.from1) hjoined1 hjoined2 (hok.marks hsame)
          generalize s.compareDifferent fromLoc _ _ _ _ = result at hrounds ⊢
          cases result with
          | inl cursors => exact ⟨hrounds.1.trans hindex1, hrounds.2.1.trans hindex2, .inl hlt⟩
          | inr cursors =>
            have hleft1 := (@left_joined s s.access1 _ _ hkeeps.between1).1
            have hleft2 := (@left_joined s s.access2 _ _ hkeeps.between2).1
            refine ⟨hrounds.between1, hrounds.between2, hrounds.idle, hindex1 ▸ hrounds.le1, hindex2 ▸ hrounds.le2, ?_,
              hrounds.start⟩
            have hon := hrounds.on
            rw [hindex1, hindex2] at hon
            exact hon.imp_right fun h => ⟨h.1, h.2.1, by have := h.2.2; omega⟩

omit hs in
theorem fold_zero (access : Int → UniChar) (limit : Int) (cursor : Cursor) :
    s.fold access limit 0 cursor = (0, cursor) := rfl

omit hs in
theorem joined_end {access : Int → UniChar} {cursor : Cursor} (hidle : cursor.strBuf = [])
    (h : access cursor.index = 0) :
    s.read access cursor = (0, { cursor with usedLen := 1 }) ∧
      s.joined access cursor = (0, { cursor with usedLen := 1 }) := by
  have hread : s.read access cursor = (0, { cursor with usedLen := 1 }) := by
    unfold read
    rw [if_pos hidle, h]
    dsimp only
    split <;> rfl
  refine ⟨hread, ?_⟩
  unfold joined
  rw [hread]
  unfold Cursor.join
  dsimp only
  exact if_neg fun h => absurd h.1 (by decide)

/-- A round at the end of the range. -/
theorem unicodeStep_end {fromLoc : Int} {cursor1 cursor2 : Cursor} (hkeeps : s.Keeps fromLoc cursor1 cursor2)
    (hidle : cursor1.strBuf = []) (hend : s.maxStr1Index ≤ cursor1.index) (hin2 : cursor2.index < s.findStrLen)
    (hok : s.RoundOk fromLoc cursor1 cursor2) (hfrom : fromLoc < s.maxStr1Index) :
    s.Rounds fromLoc cursor1 cursor2 (s.unicodeStep fromLoc cursor1 cursor2) := by
  have hle := hkeeps.between1.idle hidle
  obtain ⟨hread, hjoined⟩ := @joined_end s s.access1 cursor1 hidle (hs.text _ hend)
  obtain ⟨hnul1, hnul2⟩ := hok.nul hidle hend
  have hjoined2 := @joined_within s _ _ hs.pattern _ hkeeps.between2 fun _ => hin2
  obtain ⟨hindex2, hbuf2, -⟩ := @joined_fields s s.access2 cursor2
  have hne : (s.joined s.access2 cursor2).1 ≠ 0 := by
    intro h
    rw [h] at hnul2
    exact hnul2 rfl
  have hpattern := @ignored_pattern s hs fromLoc cursor1 cursor2 hkeeps hin2 fun _ h => by omega
  rw [unicodeStep_eq]
  rw [hjoined] at hpattern ⊢
  rw [hread, if_neg (Ne.symm hnul1)]
  split
  · exact ⟨rfl, read_index _ _, .inr hidle⟩
  · rw [if_neg fun h => absurd h.2.1 (by dsimp only; omega)]
    split
    · exact hpattern
    · have hmark : s.isSkipped 0 { cursor1 with usedLen := 1 } = false := by
        unfold isSkipped
        rw [Nat.zero_shiftRight, hs.nul, Bool.and_false]
      have hused2 := hjoined2.used
      have hbreak : ∃ cursor1' cursor2', s.foldBoth 0 (s.joined s.access2 cursor2).1 { cursor1 with usedLen := 1 }
          (s.joined s.access2 cursor2).2 = .inl (cursor1', cursor2') ∧
            cursor1'.index = cursor1.index ∧ cursor2'.index = cursor2.index ∧ cursor1'.strBuf = [] := by
        have hfold := (fold_within hs.nul hs.pattern (s.joined s.access2 cursor2).1 hjoined2).2
        rw [foldBoth, fold_zero]
        dsimp only
        rw [if_pos hidle]
        dsimp only
        by_cases hbusy2 : (s.joined s.access2 cursor2).2.strBuf = []
        · rw [if_neg fun h => h.2 hbusy2, if_pos ⟨hbusy2, .inl hidle⟩, if_pos (.inr (Ne.symm hnul2))]
          exact ⟨_, _, rfl, rfl, hfold.trans hindex2, hidle⟩
        · rw [if_pos ⟨hidle, hbusy2⟩]
          exact ⟨_, _, rfl, rfl, hindex2, hidle⟩
      obtain ⟨cursor1', cursor2', hbreak, hstay1, hstay2, hidle'⟩ := hbreak
      rw [compareDifferent, skipMarks]
      by_cases hskip : s.flags.diacriticInsensitive = true ∧ cursor1.index > fromLoc
      · rw [if_pos hskip]
        dsimp only
        rw [hmark]
        cases hskip2 : s.isSkipped (s.joined s.access2 cursor2).1 (s.joined s.access2 cursor2).2 with
        | false =>
          simp only [Bool.false_eq_true, if_false, Bool.false_and, if_pos (Ne.symm hne), hbreak]
          exact ⟨hstay1, hstay2, .inr hidle'⟩
        | true =>
          have hidle2 : (s.joined s.access2 cursor2).2.strBuf = [] :=
            of_decide_eq_true (Bool.and_eq_true_iff.mp hskip2).1
          simp only [Bool.false_eq_true, if_false, if_true, Bool.false_and, Bool.true_and, Bool.not_false]
          refine (congrArg (s.Rounds fromLoc cursor1 cursor2) (@same_rounds s 0
            { cursor1 with index := cursor1.index - (1 : Nat), usedLen := 1 } (s.joined s.access2 cursor2).2
            hidle hidle2)).mpr ?_
          exact
            { between1 := ⟨fun _ => by dsimp only; omega, fun h => absurd hidle h⟩
              between2 := ⟨fun _ => hused2.2, fun h => absurd hidle2 h⟩
              idle := .inl hidle
              le1 := by dsimp only; omega
              le2 := by dsimp only; omega
              on := .inl (.inr (by dsimp only; omega))
              start := fun _ h => by dsimp only at h; omega }
      · rw [if_neg hskip]
        dsimp only
        rw [if_pos (Ne.symm hne), hbreak]
        exact ⟨hstay1, hstay2, .inr hidle'⟩

/-! ## The loop over folded characters -/

omit hs in
/-- A round that goes on keeps the cursors in order. -/
theorem Goes.keeps {fromLoc : Int} {cursor1 cursor2 cursor1' cursor2' : Cursor} (hfrom : fromLoc ≤ cursor1.index)
    (h : s.Goes fromLoc cursor1 cursor2 cursor1' cursor2') : s.Keeps fromLoc cursor1' cursor2' :=
  ⟨h.between1, h.between2, h.idle, hfrom.trans h.le1, h.start⟩

theorem unicodeStep_rounds {fromLoc : Int} {cursor1 cursor2 : Cursor} (hkeeps : s.Keeps fromLoc cursor1 cursor2)
    (hin2 : cursor2.index < s.findStrLen) (hok : s.RoundOk fromLoc cursor1 cursor2)
    (hfrom : fromLoc < s.maxStr1Index) :
    s.Rounds fromLoc cursor1 cursor2 (s.unicodeStep fromLoc cursor1 cursor2) := by
  by_cases hend : cursor1.strBuf = [] ∧ s.maxStr1Index ≤ cursor1.index
  · exact unicodeStep_end hs hkeeps hend.1 hend.2 hin2 hok hfrom
  · exact unicodeStep_inside hs hkeeps (fun hidle => Int.lt_of_not_ge fun h => hend ⟨hidle, h⟩) hin2 hok hfrom

/-- The body of the loop over folded characters. -/
def unicodeBody (s : Search) (fromLoc : Int) (cursors : Cursor × Cursor) : (Cursor × Cursor) ⊕ (Cursor × Cursor) :=
  if cursors.2.index < s.findStrLen then s.unicodeStep fromLoc cursors.1 cursors.2 else .inl cursors

omit hs in
theorem unicodeLoop_eq (fromLoc : Int) (rounds : Nat) (cursor1 cursor2 : Cursor) :
    s.unicodeLoop fromLoc rounds cursor1 cursor2 = roundsLoop (s.unicodeBody fromLoc) rounds (cursor1, cursor2) := by
  induction rounds generalizing cursor1 cursor2 with
  | zero => rfl
  | succ rounds ih =>
    rw [unicodeLoop, roundsLoop, unicodeBody]
    split
    · dsimp only
      generalize s.unicodeStep fromLoc cursor1 cursor2 = result
      cases result with
      | inl cursors => rfl
      | inr cursors => exact ih cursors.1 cursors.2
    · rfl

/-- Where the loop over folded characters ends: with the whole pattern behind, or at
a `break`. -/
def Ended (s : Search) (fromLoc : Int) (cursors : Cursor × Cursor) : Prop :=
  s.Keeps fromLoc cursors.1 cursors.2 ∧ s.findStrLen ≤ cursors.2.index ∨
    cursors.2.index < s.findStrLen ∧ cursors.1.index ≤ s.maxStr1Index ∧
      (cursors.1.index < s.maxStr1Index ∨ cursors.1.strBuf = [])

/-- The loop over folded characters ends. -/
theorem unicodeLoop_settles {fromLoc : Int} (hfrom : fromLoc < s.maxStr1Index) (hpattern : 0 < s.findStrLen)
    (hok : ∀ cursors, LoopReached (s.unicodeBody fromLoc) (⟨fromLoc, [], 0, 0⟩, ⟨0, [], 0, 0⟩) cursors →
      cursors.2.index < s.findStrLen → s.RoundOk fromLoc cursors.1 cursors.2) :
    ∃ cursors, s.Ended fromLoc cursors ∧
      Settles (fun rounds => s.unicodeLoop fromLoc rounds ⟨fromLoc, [], 0, 0⟩ ⟨0, [], 0, 0⟩) cursors := by
  let remaining (cursors : Cursor × Cursor) : Nat ×ₗ Nat :=
    toLex ((s.maxStr1Index - cursors.1.index).toNat + (s.findStrLen - cursors.2.index).toNat,
      cursors.1.left + cursors.2.left)
  have hstart : s.Keeps fromLoc ⟨fromLoc, [], 0, 0⟩ ⟨0, [], 0, 0⟩ :=
    ⟨⟨fun _ => Int.le_of_lt hfrom, fun h => absurd rfl h⟩, ⟨fun _ => Int.le_of_lt hpattern, fun h => absurd rfl h⟩,
      .inl rfl, Int.le_refl fromLoc, fun _ _ => hpattern⟩
  have hend : ∀ cursors result, LoopReached (s.unicodeBody fromLoc) (⟨fromLoc, [], 0, 0⟩, ⟨0, [], 0, 0⟩) cursors →
      s.Keeps fromLoc cursors.1 cursors.2 → s.unicodeBody fromLoc cursors = .inl result → s.Ended fromLoc result := by
    rintro ⟨cursor1, cursor2⟩ result hreached hkeeps hbody
    unfold unicodeBody at hbody
    split at hbody
    · rename_i hin2
      have hrounds := unicodeStep_rounds hs hkeeps hin2 (hok _ hreached hin2) hfrom
      rw [hbody] at hrounds
      obtain ⟨hindex1, hindex2, hidle⟩ := hrounds
      have hle := hkeeps.between1.le
      dsimp only at hin2 hindex1 hindex2 hidle hle
      exact .inr ⟨by omega, by omega, hidle.imp_left fun h => by omega⟩
    · rename_i hin2
      obtain rfl := Sum.inl.inj hbody
      exact .inl ⟨hkeeps, Int.not_lt.mp hin2⟩
  have hnext : ∀ cursors cursors', LoopReached (s.unicodeBody fromLoc) (⟨fromLoc, [], 0, 0⟩, ⟨0, [], 0, 0⟩) cursors →
      s.Keeps fromLoc cursors.1 cursors.2 → s.unicodeBody fromLoc cursors = .inr cursors' →
        s.Keeps fromLoc cursors'.1 cursors'.2 ∧ InvImage (· < ·) remaining cursors' cursors := by
    rintro ⟨cursor1, cursor2⟩ ⟨cursor1', cursor2'⟩ hreached hkeeps hbody
    unfold unicodeBody at hbody
    split at hbody
    · rename_i hin2
      have hrounds := unicodeStep_rounds hs hkeeps hin2 (hok _ hreached hin2) hfrom
      rw [hbody] at hrounds
      refine ⟨hrounds.keeps hkeeps.from1, Prod.Lex.toLex_lt_toLex.mpr ?_⟩
      have hle1 := hrounds.between1.le
      have hle2 := hrounds.between2.le
      have hback1 := hrounds.le1
      have hback2 := hrounds.le2
      dsimp only at hback1 hback2 ⊢
      rcases hrounds.on with hon | ⟨hsame1, hsame2, hless⟩
      · dsimp only at hon
        exact .inl (by omega)
      · exact .inr ⟨by rw [hsame1, hsame2], hless⟩
    · cases hbody
  obtain ⟨cursors, hended, hsettles⟩ := roundsLoop_settles (InvImage.wf remaining wellFounded_lt) hstart hend hnext
  exact ⟨cursors, hended, hsettles.congr fun rounds => unicodeLoop_eq fromLoc rounds _ _⟩

end Search

end CFLite.Strings
