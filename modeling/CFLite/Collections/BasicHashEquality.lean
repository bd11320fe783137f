import CFLite.Collections.BasicHashEnumeration
import CFLite.Framework.Matching

/-!
# `CFBasicHashesAreEqual`

Two tables of one kind are compared by their counts and, unless these are 0, by
looking up every key of the first one in the second. Nothing is looked up the other
way: that there is nothing else in the second table is what the counts are to say.
The multiplicities are summed in 64 bits without a check.

* `Item.Same`: items with equal keys, multiplicities and values;
* `hashesAreEqual_spec`: what the code answers;
* `hashesAreEqual_sound_iff`: the tables for which that is whether they hold the same
  items.
-/

namespace CFLite.BasicHash

open Framework

/-! ## The code -/

namespace CFBasicHash

/-- The loop of `CFBasicHashesAreEqual`, with `rest` buckets to go. -/
def hashesAreEqualLoop (equateValues : Word → Word → Bool) (ht1 ht2 : CFBasicHash) :
    (rest : Nat) → (idx used : Nat) → Except Fault Bool
  | 0, _, _ => return true
  | rest + 1, idx, used => do
    if 0 < used then
      let bkt1 ← ht1.getBucket idx
      if 0 < bkt1.count then
        let bkt2 ← ht2.findBucketUnchecked bkt1.weakKey
        if bkt1.count ≠ bkt2.count then return false
        else if ht1.hasKeys ∧ bkt1.weakValue ≠ bkt2.weakValue ∧ ¬ equateValues bkt1.weakValue bkt2.weakValue then
          return false
        else hashesAreEqualLoop equateValues ht1 ht2 rest (idx + 1) (used - 1)
      else hashesAreEqualLoop equateValues ht1 ht2 rest (idx + 1) used
    else return true

/-- `CFBasicHashesAreEqual`. `equateValues` is the callback of `ht1` for values. -/
def hashesAreEqual (equateValues : Word → Word → Bool) (ht1 ht2 : CFBasicHash) : Except Fault Bool := do
  let cnt1 ← ht1.getCount
  if cnt1 ≠ (← ht2.getCount) then return false
  else if cnt1 = 0 then return true
  else hashesAreEqualLoop equateValues ht1 ht2 ht1.getNumBuckets 0 ht1.usedBuckets

end CFBasicHash

/-! ## Items that are the same -/

/-- Equal keys, as many of them and, in a table with keys, equal values. -/
structure Item.Same (callbacks : Callbacks) (hasKeys : Bool) (equateValues : Word → Word → Bool) (i i' : Item) :
    Prop where
  key : callbacks.equateKeys i.key i'.key
  count : i.count = i'.count
  value : hasKeys → equateValues i.value i'.value

section

variable {callbacks : Callbacks} {hasKeys hasCounts : Bool} {equateValues : Word → Word → Bool}
  {ht1 ht2 ht3 : CFBasicHash} {slots1 slots2 : List (Slot Entry)} {items1 items2 items3 : List Item} {e : Entry}

theorem Item.same_equivalence (hl : callbacks.Lawful hasKeys)
    (hvalues : Equivalence fun value value' => equateValues value value' = true) :
    Equivalence (Item.Same callbacks hasKeys equateValues) where
  refl i := ⟨hl.refl i.key, rfl, fun _ => hvalues.refl i.value⟩
  symm h := ⟨hl.symm h.key, h.count.symm, fun hk => hvalues.symm (h.value hk)⟩
  trans h h' := ⟨hl.trans h.key h'.key, h.count.trans h'.count, fun hk => hvalues.trans (h.value hk) (h'.value hk)⟩

theorem Represents.unrelated (h : Represents callbacks hasKeys hasCounts ht1 slots1 items1) :
    items1.Pairwise fun i i' => ¬ Item.Same callbacks hasKeys equateValues i i' :=
  h.distinct.imp fun hne hsame => hne hsame.key

/-! ## What the code answers -/

theorem toCFIndex_inj {n m : Nat} : CFBasicHash.toCFIndex n = CFBasicHash.toCFIndex m ↔ n % 2 ^ 64 = m % 2 ^ 64 := by
  unfold CFBasicHash.toCFIndex
  rw [Int.bmod_def, Int.bmod_def]
  omega

/-- The two comparisons for a live bucket of the first table. -/
theorem sameBucket_spec (hl : callbacks.Lawful hasKeys)
    (hvalues : Equivalence fun value value' => equateValues value value' = true)
    (h1 : Represents callbacks hasKeys hasCounts ht1 slots1 items1)
    (h2 : Represents callbacks hasKeys hasCounts ht2 slots2 items2) (he : 0 < e.count) :
    ∃ bkt2, ht2.findBucketUnchecked e.key = .ok bkt2 ∧
      ((e.count = bkt2.count ∧ ¬ (ht1.hasKeys ∧ e.value ≠ bkt2.weakValue ∧ ¬ equateValues e.value bkt2.weakValue)) ↔
        ∃ i ∈ items2, e.item.Same callbacks hasKeys equateValues i) := by
  have hfind := findBucketUnchecked_eq h2.valid.holds h2.valid.idx e.key
  have hmem : ∀ {e' : Entry}, e' ∈ entries slots2 → e'.item ∈ items2 := fun he' =>
    h2.perm.mem_iff.mp (List.mem_map_of_mem he')
  rcases represents_lookup hl h2 e.key with ⟨j, e', rest, hlook, hs, hrest, hequal, hother⟩ | ⟨vacant, hlook, hother⟩
  · rw [hlook] at hfind
    refine ⟨_, hfind, ⟨fun hagree => ?_, fun hsome => ?_⟩⟩
    · refine ⟨e'.item, hmem (hrest.mem_iff.mpr List.mem_cons_self), hl.symm hequal, hagree.1, fun hk => ?_⟩
      by_contra hne
      refine hagree.2 ⟨h1.hasKeys.trans hk, fun heq => hne ?_, hne⟩
      show equateValues e.value e'.value
      rw [show e.value = e'.value from heq]
      exact hvalues.refl e'.value
    · obtain ⟨i, hi, hsame⟩ := hsome
      obtain ⟨e₀, he₀, rfl⟩ := List.mem_map.mp (h2.perm.mem_iff.mpr hi)
      obtain rfl : e₀ = e' := by
        rcases List.mem_cons.mp (hrest.mem_iff.mp he₀) with heq | hmem₀
        · exact heq
        · exact absurd (hl.symm hsame.key) (hother e₀ hmem₀)
      exact ⟨hsame.count, fun hdiffer => hdiffer.2.2 (hsame.value (h1.hasKeys.symm.trans hdiffer.1))⟩
  · rw [hlook] at hfind
    refine ⟨_, hfind, ⟨fun hagree => ?_, fun hsome => ?_⟩⟩
    · have hzero : e.count = 0 := hagree.1
      omega
    · obtain ⟨i, hi, hsame⟩ := hsome
      obtain ⟨e₀, he₀, rfl⟩ := List.mem_map.mp (h2.perm.mem_iff.mpr hi)
      exact absurd (hl.symm hsame.key) (hother e₀ he₀)

/-- The loop from bucket `j` on. -/
theorem hashesAreEqualLoop_spec (hl : callbacks.Lawful hasKeys)
    (hvalues : Equivalence fun value value' => equateValues value value' = true)
    (h1 : Represents callbacks hasKeys hasCounts ht1 slots1 items1)
    (h2 : Represents callbacks hasKeys hasCounts ht2 slots2 items2) {rest used j : Nat} (hrest : j + rest = slots1.length)
    (hused : (entries (slots1.drop j)).length ≤ used) :
    ∃ equal, ht1.hashesAreEqualLoop equateValues ht2 rest j used = .ok equal ∧
      (equal ↔ Contained (Item.Same callbacks hasKeys equateValues) ((entries (slots1.drop j)).map Entry.item) items2) := by
  induction rest generalizing j used with
  | zero =>
    obtain rfl : j = slots1.length := hrest
    refine ⟨true, rfl, fun _ => ?_, fun _ => rfl⟩
    rw [List.drop_length]
    exact fun i hi => absurd hi List.not_mem_nil
  | succ rest ih =>
    rw [CFBasicHash.hashesAreEqualLoop]
    by_cases hgo : 0 < used
    swap
    · rw [if_neg hgo]
      refine ⟨true, rfl, fun _ => ?_, fun _ => rfl⟩
      rw [List.eq_nil_of_length_eq_zero (show (entries (slots1.drop j)).length = 0 by omega)]
      exact fun i hi => absurd hi List.not_mem_nil
    rw [if_pos hgo]
    obtain ⟨s, hs⟩ : ∃ s, slots1[j]? = some s := ⟨_, List.getElem?_eq_getElem (by omega)⟩
    have hentries := entries_drop hs
    rcases s.free_or_live with hfree | ⟨e, rfl⟩
    · rw [show s.held = none from hfree, Option.toList_none, List.nil_append] at hentries
      rw [h1.valid.holds.getBucket_free hs hfree, ok_bind, if_neg (lt_irrefl 0), hentries]
      rw [hentries] at hused
      exact ih (by omega) hused
    · have hentries : entries (slots1.drop j) = e :: entries (slots1.drop (j + 1)) := hentries
      have hpos := (h1.valid.holds.fits_of_live hs).pos
      obtain ⟨bkt2, hfind, hagree⟩ := sameBucket_spec hl hvalues h1 h2 hpos
      rw [hentries, List.length_cons] at hused
      obtain ⟨equal, hloop, hequal⟩ := ih (show j + 1 + rest = slots1.length by omega)
        (show (entries (slots1.drop (j + 1))).length ≤ used - 1 by omega)
      rw [h1.valid.holds.getBucket_live hs, ok_bind, if_pos hpos, hfind, ok_bind, hentries, List.map_cons]
      dsimp only
      have hcons : Contained (Item.Same callbacks hasKeys equateValues)
          (e.item :: (entries (slots1.drop (j + 1))).map Entry.item) items2 ↔
          (∃ i ∈ items2, e.item.Same callbacks hasKeys equateValues i) ∧
            Contained (Item.Same callbacks hasKeys equateValues) ((entries (slots1.drop (j + 1))).map Entry.item) items2 :=
        List.forall_mem_cons
      rw [hcons, ← hagree, ← hequal]
      by_cases hcount : e.count = bkt2.count
      swap
      · rw [if_pos hcount]
        exact ⟨false, rfl, (fun h => nomatch h), fun h => absurd h.1.1 hcount⟩
      rw [if_neg (not_not_intro hcount)]
      by_cases hvalue : ht1.hasKeys ∧ e.value ≠ bkt2.weakValue ∧ ¬ equateValues e.value bkt2.weakValue
      · rw [if_pos hvalue]
        exact ⟨false, rfl, (fun h => nomatch h), fun h => absurd hvalue h.1.2⟩
      · rw [if_neg hvalue]
        exact ⟨equal, hloop, fun h => ⟨⟨hcount, hvalue⟩, h⟩, fun h => h.2⟩

/-- The counts agree in 64 bits, and they are 0 or every item of the first table is in
the second. -/
theorem hashesAreEqual_spec (hl : callbacks.Lawful hasKeys)
    (hvalues : Equivalence fun value value' => equateValues value value' = true)
    (h1 : Represents callbacks hasKeys hasCounts ht1 slots1 items1)
    (h2 : Represents callbacks hasKeys hasCounts ht2 slots2 items2) :
    ∃ equal, ht1.hashesAreEqual equateValues ht2 = .ok equal ∧
      (equal ↔ total items1 % 2 ^ 64 = total items2 % 2 ^ 64 ∧
        (total items1 % 2 ^ 64 = 0 ∨ Contained (Item.Same callbacks hasKeys equateValues) items1 items2)) := by
  unfold CFBasicHash.hashesAreEqual
  rw [h1.getCount_eq, ok_bind, h2.getCount_eq, ok_bind]
  have hzero : CFBasicHash.toCFIndex (total items1) = 0 ↔ total items1 % 2 ^ 64 = 0 := by
    rw [show (0 : Int) = CFBasicHash.toCFIndex 0 from rfl, toCFIndex_inj]
    rfl
  by_cases hcnt : total items1 % 2 ^ 64 = total items2 % 2 ^ 64
  swap
  · rw [if_pos fun heq => hcnt (toCFIndex_inj.mp heq)]
    exact ⟨false, rfl, (fun h => nomatch h), fun h => absurd h.1 hcnt⟩
  rw [if_neg (not_not_intro (toCFIndex_inj.mpr hcnt))]
  by_cases hnone : total items1 % 2 ^ 64 = 0
  · rw [if_pos (hzero.mpr hnone)]
    exact ⟨true, rfl, fun _ => ⟨hcnt, .inl hnone⟩, fun _ => rfl⟩
  · rw [if_neg fun h => hnone (hzero.mp h)]
    obtain ⟨equal, hloop, hequal⟩ := hashesAreEqualLoop_spec hl hvalues h1 h2
      (show 0 + ht1.getNumBuckets = slots1.length by rw [h1.valid.holds.length]; exact Nat.zero_add _)
      (show (entries (slots1.drop 0)).length ≤ ht1.usedBuckets by rw [h1.valid.used, List.drop_zero])
    refine ⟨equal, hloop, hequal.trans ?_⟩
    have hall : Contained (Item.Same callbacks hasKeys equateValues) ((entries (slots1.drop 0)).map Entry.item) items2 ↔
        Contained (Item.Same callbacks hasKeys equateValues) items1 items2 :=
      forall_congr' fun i => by rw [List.drop_zero, h1.perm.mem_iff]
    rw [hall]
    exact ⟨fun h => ⟨hcnt, .inr h⟩, fun h => h.2.resolve_left hnone⟩

/-! ## When the answer is right -/

/-- Tables that the code tells apart: counts that are 0 in 64 bits belong to the same
items, and with other counts that agree in 64 bits only, an item of the first table is
not in the second. -/
structure ToldApart (same : Item → Item → Prop) (items1 items2 : List Item) : Prop where
  zero : total items1 % 2 ^ 64 = 0 → total items2 % 2 ^ 64 = 0 → SameUpTo same items1 items2
  wrapped : total items1 % 2 ^ 64 = total items2 % 2 ^ 64 → total items1 % 2 ^ 64 ≠ 0 → total items1 ≠ total items2 →
    ¬ Contained same items1 items2

theorem total_eq_of_same (hl : callbacks.Lawful hasKeys)
    (hvalues : Equivalence fun value value' => equateValues value value' = true)
    (h1 : Represents callbacks hasKeys hasCounts ht1 slots1 items1)
    (h2 : Represents callbacks hasKeys hasCounts ht2 slots2 items2)
    (h : SameUpTo (Item.Same callbacks hasKeys equateValues) items1 items2) : total items1 = total items2 :=
  h.sum_eq (Item.same_equivalence hl hvalues) (fun hsame => hsame.count) h1.unrelated h2.unrelated

/-- Tables with the same items are equal. -/
theorem hashesAreEqual_of_same (hl : callbacks.Lawful hasKeys)
    (hvalues : Equivalence fun value value' => equateValues value value' = true)
    (h1 : Represents callbacks hasKeys hasCounts ht1 slots1 items1)
    (h2 : Represents callbacks hasKeys hasCounts ht2 slots2 items2)
    (h : SameUpTo (Item.Same callbacks hasKeys equateValues) items1 items2) :
    ht1.hashesAreEqual equateValues ht2 = .ok true := by
  obtain ⟨equal, hrun, hequal⟩ := hashesAreEqual_spec hl hvalues h1 h2
  rw [hrun, hequal.mpr ⟨congrArg (· % 2 ^ 64) (total_eq_of_same hl hvalues h1 h2 h), .inr h.1⟩]

theorem Represents.sound_iff (hl : callbacks.Lawful hasKeys)
    (hvalues : Equivalence fun value value' => equateValues value value' = true)
    (h1 : Represents callbacks hasKeys hasCounts ht1 slots1 items1)
    (h2 : Represents callbacks hasKeys hasCounts ht2 slots2 items2) :
    (∃ equal, ht1.hashesAreEqual equateValues ht2 = .ok equal ∧
      (equal ↔ SameUpTo (Item.Same callbacks hasKeys equateValues) items1 items2)) ↔
      ToldApart (Item.Same callbacks hasKeys equateValues) items1 items2 := by
  have htotal := total_eq_of_same hl hvalues h1 h2
  obtain ⟨equal, hrun, hequal⟩ := hashesAreEqual_spec hl hvalues h1 h2
  refine ⟨fun ⟨equal', hrun', hsame⟩ => ?_, fun htold => ⟨equal, hrun, fun h => ?_, fun h => ?_⟩⟩
  · obtain rfl : equal = equal' := Except.ok.inj (hrun.symm.trans hrun')
    refine ⟨fun hzero1 hzero2 => hsame.mp (hequal.mpr ⟨hzero1.trans hzero2.symm, .inl hzero1⟩), ?_⟩
    exact fun hcnt _ hne hin => hne (htotal (hsame.mp (hequal.mpr ⟨hcnt, .inr hin⟩)))
  · obtain ⟨hcnt, hfound⟩ := hequal.mp h
    by_cases hzero : total items1 % 2 ^ 64 = 0
    · exact htold.zero hzero (hcnt.symm.trans hzero)
    · have hin := hfound.resolve_left hzero
      by_cases hne : total items1 = total items2
      · exact hin.same (Item.same_equivalence hl hvalues) (fun hsame => hsame.count) h1.unrelated
          (fun i hi => (h2.count_le hi).1) hne
      · exact absurd hin (htold.wrapped hcnt hzero hne)
  · exact hequal.mpr ⟨congrArg (· % 2 ^ 64) (htotal h), .inr h.1⟩

/-- The answer is whether the tables hold the same items exactly if the code can tell
them apart. Then it does not depend on the order of the two tables, and a table equal
to an equal table is equal to the first one. -/
theorem hashesAreEqual_sound_iff (hl : callbacks.Lawful hasKeys)
    (hvalues : Equivalence fun value value' => equateValues value value' = true)
    (h1 : Follows callbacks hasKeys hasCounts ht1 items1) (h2 : Follows callbacks hasKeys hasCounts ht2 items2)
    (h3 : Follows callbacks hasKeys hasCounts ht3 items3) :
    let same := Item.Same callbacks hasKeys equateValues
    ((∃ equal, ht1.hashesAreEqual equateValues ht2 = .ok equal ∧ (equal ↔ SameUpTo same items1 items2)) ↔
      ToldApart same items1 items2) ∧
    ht1.hashesAreEqual equateValues ht1 = .ok true ∧
    (ToldApart same items1 items2 → ht1.hashesAreEqual equateValues ht2 = .ok true →
      ht2.hashesAreEqual equateValues ht1 = .ok true) ∧
    (ToldApart same items1 items2 → ToldApart same items2 items3 → ht1.hashesAreEqual equateValues ht2 = .ok true →
      ht2.hashesAreEqual equateValues ht3 = .ok true → ht1.hashesAreEqual equateValues ht3 = .ok true) := by
  intro same
  have hequiv : Equivalence (SameUpTo same) := SameUpTo.equivalence (Item.same_equivalence hl hvalues)
  obtain ⟨slots1, hr1⟩ := h1.represents hl
  obtain ⟨slots2, hr2⟩ := h2.represents hl
  obtain ⟨slots3, hr3⟩ := h3.represents hl
  have same_of : ∀ {ht ht' : CFBasicHash} {slots slots' : List (Slot Entry)} {items items' : List Item},
      Represents callbacks hasKeys hasCounts ht slots items → Represents callbacks hasKeys hasCounts ht' slots' items' →
      ToldApart same items items' → ht.hashesAreEqual equateValues ht' = .ok true → SameUpTo same items items' := by
    intro ht ht' slots slots' items items' hr hr' htold hrun
    obtain ⟨equal, hrun', hequal⟩ := (hr.sound_iff hl hvalues hr').mpr htold
    exact hequal.mp (Except.ok.inj (hrun'.symm.trans hrun))
  refine ⟨hr1.sound_iff hl hvalues hr2, hashesAreEqual_of_same hl hvalues hr1 hr1 (hequiv.refl items1), ?_, ?_⟩
  · intro htold hrun
    exact hashesAreEqual_of_same hl hvalues hr2 hr1 (hequiv.symm (same_of hr1 hr2 htold hrun))
  · intro htold htold' hrun hrun'
    exact hashesAreEqual_of_same hl hvalues hr1 hr3
      (hequiv.trans (same_of hr1 hr2 htold hrun) (same_of hr2 hr3 htold' hrun'))

end

theorem words_equivalence : Equivalence fun value value' : Word => (value == value') = true where
  refl _ := beq_self_eq_true _
  symm h := beq_iff_eq.mpr (beq_iff_eq.mp h).symm
  trans h h' := beq_iff_eq.mpr ((beq_iff_eq.mp h).trans (beq_iff_eq.mp h'))

/-- Two entries in either order, under different probes. -/
theorem hashesAreEqual_sound_orders : ∃ ht1 ht2,
    [Operation.addValue 5 50, .addValue 6 60].foldlM Operation.run (.create .linear false true true false .words) =
      .ok ht1 ∧
    [Operation.addValue 6 60, .addValue 5 50].foldlM Operation.run (.create .double false true true true .words) =
      .ok ht2 ∧
    ∃ equal, ht1.hashesAreEqual (· == ·) ht2 = .ok equal ∧
      (equal ↔ SameUpTo (Item.Same .words true (· == ·)) [⟨6, 60, 1⟩, ⟨5, 50, 1⟩] [⟨5, 50, 1⟩, ⟨6, 60, 1⟩]) := by
  have follows : ∀ {ht ht' : CFBasicHash} {items : List Item} (k v : Word), reserved k = false → reserved v = false →
      Follows .words true true ht items → (Operation.addValue k v).run ht = .ok ht' →
      Follows .words true true ht' ((Operation.addValue k v).onItems .words true true items) :=
    fun k v hk hv h hrun => .operation (.addValue k v) h ⟨hk, hv⟩ (fun h => nomatch h) hrun
  obtain ⟨ht1, ha, hrun1⟩ : ∃ ht1 ha, (Operation.addValue 6 60).run ha = .ok ht1 ∧
      (Operation.addValue 5 50).run (.create .linear false true true false .words) = .ok ha := ⟨_, _, rfl, rfl⟩
  obtain ⟨ht2, hb, hrun2⟩ : ∃ ht2 hb, (Operation.addValue 5 50).run hb = .ok ht2 ∧
      (Operation.addValue 6 60).run (.create .double false true true true .words) = .ok hb := ⟨_, _, rfl, rfl⟩
  have h1 := follows 6 60 rfl rfl (follows 5 50 rfl rfl (.create ..) hrun1.2) hrun1.1
  have h2 := follows 5 50 rfl rfl (follows 6 60 rfl rfl (.create ..) hrun2.2) hrun2.1
  refine ⟨ht1, ht2, ?_, ?_, ?_⟩
  · rw [List.foldlM_cons, hrun1.2, ok_bind, List.foldlM_cons, hrun1.1]
    rfl
  · rw [List.foldlM_cons, hrun2.2, ok_bind, List.foldlM_cons, hrun2.1]
    rfl
  · refine (hashesAreEqual_sound_iff (Callbacks.words_lawful true) words_equivalence h1 h2 h1).1.mpr
      ⟨fun h => ?_, fun _ _ h => ?_⟩
    · exact absurd h (by decide)
    · exact absurd rfl h

/-- A new key that is added `n` times. -/
theorem follows_adds {ht : CFBasicHash} {items : List Item} (h : Follows .words true true ht items) {k v : Word}
    (hk : reserved k = false) (hv : reserved v = false) (hnew : ∀ i ∈ items, i.key ≠ k)
    (hroom : items.length + 1 ≤ tableCapacity (lastIdx - 1)) {n : Nat} (hn : 1 ≤ n) (hmax : n ≤ longMax) :
    ∃ ht', Follows .words true true ht' (⟨k, v, n⟩ :: items) := by
  have hl := Callbacks.words_lawful true
  have hne : ∀ i ∈ items, ¬ Callbacks.words.equateKeys i.key k := fun i hi heq => hnew i hi (eq_of_beq heq)
  have hlegal : (Operation.addValue k v).Legal := ⟨hk, hv⟩
  induction n, hn using Nat.le_induction with
  | base =>
    obtain ⟨ht', hrun⟩ := ((table_reports_items hl h).2 (.addValue k v) hlegal (fun h => nomatch h)).1 fun _ => by
      split
      · exact hroom
      · exact hroom.trans (by decide)
    have hfollows := Follows.operation (.addValue k v) h hlegal (fun h => nomatch h) hrun
    rw [Operation.onItems, if_neg (by simpa using hne)] at hfollows
    exact ⟨ht', hfollows⟩
  | succ n hn ih =>
    obtain ⟨ht₀, h₀⟩ := ih (by omega)
    have hself : Callbacks.words.equateKeys k k := beq_self_eq_true k
    obtain ⟨ht', hrun⟩ := ((table_reports_items hl h₀).2 (.addValue k v) hlegal (fun h => nomatch h)).1
      fun hno => absurd hself (hno _ List.mem_cons_self)
    have hfollows := Follows.operation (.addValue k v) h₀ hlegal (fun h => nomatch h) hrun
    have hothers : (items.map fun i => if Callbacks.words.equateKeys i.key k then i.more true else i) = items := by
      rw [List.map_congr_left fun i hi => if_neg (hne i hi), List.map_id']
    have hmore : Item.more true ⟨k, v, n⟩ = ⟨k, v, n + 1⟩ := if_pos ⟨rfl, show n < longMax by omega⟩
    have hany : ((⟨k, v, n⟩ :: items).any fun i => Callbacks.words.equateKeys i.key k) = true :=
      List.any_eq_true.mpr ⟨_, List.mem_cons_self, hself⟩
    rw [Operation.onItems, if_pos hany, List.map_cons, if_pos hself, hothers, hmore] at hfollows
    exact ⟨ht', hfollows⟩

/-- A bag whose multiplicities add up to `2 ^ 64` is equal to the empty one. -/
theorem hashesAreEqual_wraps : ∃ ht2,
    Follows .words true true ht2 [⟨7, 70, 2⟩, ⟨6, 60, 2 ^ 63 - 1⟩, ⟨5, 50, 2 ^ 63 - 1⟩] ∧
      (CFBasicHash.create .linear false true true false .words).hashesAreEqual (· == ·) ht2 = .ok true ∧
      ¬ SameUpTo (Item.Same .words true (· == ·)) [] [⟨7, 70, 2⟩, ⟨6, 60, 2 ^ 63 - 1⟩, ⟨5, 50, 2 ^ 63 - 1⟩] := by
  have hl := Callbacks.words_lawful true
  have hempty := represents_create .words true true .linear false false
  obtain ⟨ha, h5⟩ := follows_adds (.create .linear false false) (show reserved 5 = false by decide)
    (show reserved 50 = false by decide) (fun i hi => absurd hi List.not_mem_nil) (by decide)
    (show 1 ≤ 2 ^ 63 - 1 by decide) le_rfl
  obtain ⟨hb, h6⟩ := follows_adds h5 (show reserved 6 = false by decide) (show reserved 60 = false by decide) (by decide)
    (by decide) (show 1 ≤ 2 ^ 63 - 1 by decide) le_rfl
  obtain ⟨ht2, h7⟩ := follows_adds h6 (show reserved 7 = false by decide) (show reserved 70 = false by decide) (by decide)
    (by decide) (show 1 ≤ 2 by decide) (by decide)
  obtain ⟨slots2, hr2⟩ := h7.represents hl
  obtain ⟨equal, hrun, hequal⟩ := hashesAreEqual_spec hl words_equivalence hempty hr2
  refine ⟨ht2, h7, ?_, fun h => ?_⟩
  · rw [hrun, hequal.mpr ⟨by decide, .inl (by decide)⟩]
  · obtain ⟨i, hi, -⟩ := h.2 _ List.mem_cons_self
    exact absurd hi List.not_mem_nil

end CFLite.BasicHash
