import CFLite.Collections.ArrayOperations

/-!
# Sorting a `CFArray`

`CFArraySortValues` copies the range out, sorts the copy and replaces the range by
it. With only one of the two callbacks that would not balance, and neighbours of
the array are exchanged instead. Both lead to the stable order of the range.

* `zSortPass_spec`, `zSort_spec`: the exchanges;
* `sortValues_spec`: the whole function, for any comparator;
* `sorting_stable`: every way to sort leads to the stable order.
-/

namespace CFLite.Array

open Framework Sorting

variable {α : Type} {comparator : α → α → CFComparisonResult} {array : CFArray α}

/-- `comparator` asks for `b`, which stands behind `a`, to be exchanged with it. -/
def exchanges (comparator : α → α → CFComparisonResult) (b a : α) : Bool := comparator b a = .lt

variable (comparator) in
theorem zSortPass_spec {pre w post : List α} {a : α} (h : Holds array (pre ++ a :: w ++ post)) :
    ∃ array', array.zSortPass comparator w.length pre.length = some array' ∧
      Updates array (pre ++ carry (exchanges comparator) a w ++ post) [] [] array' := by
  induction w generalizing a pre array with
  | nil => exact ⟨array, rfl, h.updates⟩
  | cons b w ih =>
    have ha : (pre ++ a :: b :: w ++ post)[pre.length]? = some a := by
      rw [List.append_assoc, List.getElem?_append_right le_rfl, Nat.sub_self]
      rfl
    have hb : (pre ++ a :: b :: w ++ post)[pre.length + 1]? = some b := by
      rw [List.append_assoc, List.getElem?_append_right (Nat.le_succ _), Nat.succ_sub (le_refl _), Nat.sub_self]
      rfl
    have h1 : pre.length < (pre ++ a :: b :: w ++ post).length := (List.getElem?_eq_some_iff.mp ha).1
    have h2 : pre.length + 1 < (pre ++ a :: b :: w ++ post).length := (List.getElem?_eq_some_iff.mp hb).1
    simp only [List.length_cons, CFArray.zSortPass, h.getValueAtIndex h1, h.getValueAtIndex h2, ha, hb,
      Option.bind_eq_bind, Option.bind_some]
    rw [carry]
    by_cases hlt : comparator b a = .lt
    · obtain ⟨array₁, hexchange, hu⟩ := exchangeValuesAtIndices_spec h h1 h2
      rw [(List.getElem?_eq_some_iff.mp ha).2, (List.getElem?_eq_some_iff.mp hb).2] at hu
      have hset : ((pre ++ a :: b :: w ++ post).set pre.length b).set (pre.length + 1) a =
          pre ++ [b] ++ a :: w ++ post := by
        simp
      rw [hset] at hu
      obtain ⟨array₂, hrest, hu'⟩ := ih hu.holds
      rw [if_pos hlt, hexchange, Option.bind_some, if_pos (show exchanges comparator b a from decide_eq_true hlt)]
      refine ⟨array₂, by simpa using hrest, ?_⟩
      simpa using hu.trans hu'
    · have h' : Holds array (pre ++ [a] ++ b :: w ++ post) := by simpa using h
      obtain ⟨array₂, hrest, hu'⟩ := ih h'
      rw [if_neg hlt, Option.bind_some, if_neg (by simpa [exchanges] using hlt)]
      refine ⟨array₂, by simpa using hrest, ?_⟩
      simpa using hu'

variable (comparator) in
/-- The range holds the values of `s` at the positions `u ++ v`, and `v` is
already where it belongs. -/
theorem zSort_spec {pre s post : List α} {u v : List (Fin s.length)}
    (hperm : (u ++ v).Perm (List.finRange s.length)) (h : Holds array (pre ++ (u ++ v).map s.get ++ post))
    (hstable : TotalPreorder comparator → Kept (NotAfter comparator) s (u ++ v) ∧
      v.Pairwise (fun i j => NotAfter comparator (s.get i) (s.get j)) ∧
      ∀ i ∈ u, ∀ j ∈ v, NotAfter comparator (s.get i) (s.get j)) :
    ∃ r array', array.zSort comparator pre.length u.length = some array' ∧ r.Perm s ∧
      (TotalPreorder comparator → IsStableSort (NotAfter comparator) s r) ∧
      Updates array (pre ++ r ++ post) [] [] array' := by
  obtain ⟨cnt, hcnt⟩ : ∃ cnt, u.length = cnt := ⟨_, rfl⟩
  rw [hcnt]
  induction cnt using Nat.strong_induction_on generalizing array u v with
  | _ cnt ih =>
    match cnt, u, hcnt with
    | 0, [], _ =>
      refine ⟨v.map s.get, array, rfl, map_get_perm hperm, fun htotal => ?_, h.updates⟩
      exact (hstable htotal).1.isStableSort (List.pairwise_map.mpr (hstable htotal).2.1)
    | 1, [i], _ =>
      refine ⟨([i] ++ v).map s.get, array, rfl, map_get_perm hperm, fun htotal => ?_, h.updates⟩
      obtain ⟨hkept, hv, hcross⟩ := hstable htotal
      refine hkept.isStableSort (List.pairwise_map.mpr (List.pairwise_cons.mpr ⟨fun j hj => ?_, hv⟩))
      exact hcross i List.mem_cons_self j hj
    | cnt + 2, i :: w, hcnt =>
      obtain ⟨lt, hlt⟩ : ∃ lt : Fin s.length → Fin s.length → Bool,
        lt = fun x y => exchanges comparator (s.get x) (s.get y) := ⟨_, rfl⟩
      have hw : w.length = cnt + 1 := Nat.succ.inj hcnt
      have hsplit : pre ++ (i :: w ++ v).map s.get ++ post = pre ++ s.get i :: w.map s.get ++ (v.map s.get ++ post) := by
        simp
      rw [hsplit] at h
      obtain ⟨array₁, hpass, hu⟩ := zSortPass_spec comparator h
      rw [List.length_map, hw] at hpass
      rw [carry_map, ← hlt] at hu
      have hcarry := carry_perm lt i w
      obtain ⟨u', x, hx⟩ : ∃ u' x, carry lt i w = u' ++ [x] := by
        rcases List.eq_nil_or_concat' (carry lt i w) with hnil | h
        · rw [hnil] at hcarry
          exact absurd hcarry.symm (by simp)
        · exact h
      rw [hx] at hu hcarry
      have hu' : u'.length = cnt + 1 := by
        have := hcarry.length_eq
        rw [List.length_append, List.length_singleton, List.length_cons, hw] at this
        exact Nat.succ.inj this
      have hmoved : (u' ++ x :: v).Perm (i :: w ++ v) := by
        rw [List.append_cons]
        exact hcarry.append_right v
      have hjoin : pre ++ (u' ++ [x]).map s.get ++ (v.map s.get ++ post) = pre ++ (u' ++ x :: v).map s.get ++ post := by
        simp
      rw [hjoin] at hu
      -- the pass leaves a last position of `i :: w` behind
      have hnext : TotalPreorder comparator → Kept (NotAfter comparator) s (u' ++ x :: v) ∧
          (x :: v).Pairwise (fun i j => NotAfter comparator (s.get i) (s.get j)) ∧
          ∀ i ∈ u', ∀ j ∈ x :: v, NotAfter comparator (s.get i) (s.get j) := by
        intro htotal
        obtain ⟨hkept, hv, hcross⟩ := hstable htotal
        have hnot : ∀ a b, lt b a → ¬ NotAfter comparator (s.get a) (s.get b) := fun a b h => by
          rw [hlt] at h
          exact (htotal.lt_iff _ _).mp (of_decide_eq_true h)
        obtain ⟨u'', x', hlast, hmax⟩ := @carry_last (Fin s.length) (fun i j => NotAfter comparator (s.get i) (s.get j)) lt
          (fun a => htotal.refl _) (fun a b c => htotal.trans _ _ _)
          (fun a b => by
            split
            · rename_i h
              exact htotal.of_not (hnot a b h)
            · rename_i h
              rw [hlt] at h
              by_contra hab
              exact h (decide_eq_true ((htotal.lt_iff _ _).mpr hab))) i w
        obtain ⟨rfl, hxx⟩ := List.append_inj' (hx.symm.trans hlast) rfl
        obtain rfl := List.singleton_inj.mp hxx
        have hmem : ∀ y ∈ u' ++ [x], y ∈ i :: w := fun y hy => hcarry.mem_iff.mp hy
        refine ⟨?_, List.pairwise_cons.mpr ⟨fun j hj => ?_, hv⟩, fun a ha b hb => ?_⟩
        · have := Kept.carry (p := []) (q := v) hnot hkept
          rwa [hx, List.nil_append, ← List.append_cons] at this
        · exact hcross x (hmem x (by simp)) j hj
        · have ha' := hmem a (List.mem_append_left _ ha)
          rcases List.mem_cons.mp hb with rfl | hb
          · exact hmax a ha'
          · exact hcross a ha' b hb
      obtain ⟨r, array₂, hrest, hr, hrstable, hu₂⟩ := ih (cnt + 1) (Nat.lt_succ_self _) (hmoved.trans hperm) hu.holds
        hnext hu'
      refine ⟨r, array₂, ?_, hr, hrstable, hu.trans hu₂⟩
      rw [CFArray.zSort, hpass]
      exact hrest

/-- `r` are the values of `list` in another order, which is the stable one for a
total preorder. -/
structure SortedFrom {β : Type*} (comparator : β → β → CFComparisonResult) (list r : List β) : Prop where
  perm : r.Perm list
  stable : TotalPreorder comparator → IsStableSort (NotAfter comparator) list r
  unique : TotalPreorder comparator → ∀ r', IsStableSort (NotAfter comparator) list r' → r' = r

theorem SortedFrom.intro {β : Type*} {comparator : β → β → CFComparisonResult} {list r : List β} (hperm : r.Perm list)
    (hstable : TotalPreorder comparator → IsStableSort (NotAfter comparator) list r) : SortedFrom comparator list r :=
  ⟨hperm, hstable, fun htotal _ h => h.unique (hstable htotal)⟩

/-- There is one of the two callbacks only. -/
abbrev Unbalanced (array : CFArray α) : Prop :=
  array.retain.isSome ∧ ¬ array.release ∨ ¬ array.retain.isSome ∧ array.release

variable (comparator) in
theorem sortValues_spec [Inhabited α] (junk : Nat → α) {l : List α} {location length : Nat} (h : Holds array l)
    (hrange : location + length ≤ l.length) :
    ∃ r array', array.sortValues junk location length comparator = some array' ∧
      SortedFrom comparator ((l.drop location).take length) r ∧
      if Unbalanced array ∨ length < 2 then Updates array (l.take location ++ r ++ l.drop (location + length)) [] [] array'
      else Updates array (l.take location ++ r.map array.retained ++ l.drop (location + length))
        (r.map array.retained) ((l.drop location).take length) array' := by
  obtain ⟨s, hs⟩ : ∃ s, s = (l.drop location).take length := ⟨_, rfl⟩
  have hslen : s.length = length := by
    rw [hs, List.length_take, List.length_drop]
    omega
  have hl : l = l.take location ++ s ++ l.drop (location + length) := by
    rw [hs, List.append_assoc, ← List.drop_drop, List.take_append_drop, List.take_append_drop]
  have hpre : (l.take location).length = location := by
    rw [List.length_take]
    omega
  rw [← hs, CFArray.sortValues]
  by_cases hone : Unbalanced array
  · rw [if_pos hone]
    have hall : Holds array
        (l.take location ++ (List.finRange s.length ++ []).map s.get ++ l.drop (location + length)) := by
      rwa [List.append_nil, List.map_get_finRange, ← hl]
    obtain ⟨r, array', hr, hperm, hstable, hu⟩ := zSort_spec comparator (by rw [List.append_nil]) hall
      fun _ => ⟨by rw [List.append_nil]; exact Kept.finRange, List.Pairwise.nil, fun _ _ _ hj => absurd hj List.not_mem_nil⟩
    rw [hpre, List.length_finRange, hslen] at hr
    exact ⟨r, array', hr, .intro hperm hstable, by rwa [if_pos (.inl hone)]⟩
  rw [if_neg hone]
  obtain ⟨r, hqsort, hperm, hstable⟩ := sortArray_spec 0 s
    (show 8 < 1 → Subsingleton α from fun hsize => absurd hsize (by decide)) comparator
  by_cases hfew : length < 2
  · rw [if_pos hfew]
    rw [sortArray, dif_pos (.inl (by rwa [hslen]))] at hqsort
    obtain rfl := Option.some.inj hqsort
    exact ⟨s, array, rfl, .intro hperm hstable, by rw [if_pos (.inr hfew), ← hl]; exact h.updates⟩
  · rw [if_neg hfew]
    have hrlen : r.length = length := hperm.length_eq.trans hslen
    have hroom : Room array length r.length := by
      rw [Room]
      cases hstore : array.store with
      | none =>
        rw [h.empty hstore, List.length_nil] at hrange
        omega
      | some deque => exact .inl hrlen.symm
    obtain ⟨array', hr, hu⟩ := replaceValues_spec junk r h hrange hroom
    refine ⟨r, array', ?_, .intro hperm hstable, ?_⟩
    · simp only [h.getValues hrange, ← hs, qSortArray, hqsort, hr, Option.bind_eq_bind, Option.bind_some]
    · rw [if_neg (not_or.mpr ⟨hone, hfew⟩), hs]
      exact hu

/-- Whichever way a list is sorted, the result is a permutation of it, and the
stable order for a total preorder. An array takes its retain callback's values
back in unless neighbours were exchanged. -/
theorem sorting_stable [Inhabited α] (junk : Nat → α) :
    (∀ (elementSize : Nat) (list : List (Fin elementSize → UInt8)) comparator,
      ∃ r, qSortArray list elementSize comparator = some r ∧ mergeSortArray list elementSize comparator = some r ∧
        SortedFrom comparator list r) ∧
    ∀ (array : CFArray α) (l : List α) (location length : Nat) comparator, Holds array l →
      location + length ≤ l.length →
      ∃ r array', array.sortValues junk location length comparator = some array' ∧
        SortedFrom comparator ((l.drop location).take length) r ∧
        Holds array' (l.take location ++
          (if Unbalanced array ∨ length < 2 then r else r.map array.retained) ++ l.drop (location + length)) := by
  refine ⟨fun elementSize list comparator => ?_, fun array l location length comparator h hrange => ?_⟩
  · have hsize : elementSize < 1 → Subsingleton (Fin elementSize → UInt8) := fun hzero => by
      obtain rfl := Nat.lt_one_iff.mp hzero
      infer_instance
    obtain ⟨r, hr, hperm, hstable⟩ := sortArray_spec 0 list hsize comparator
    exact ⟨r, hr, hr, .intro hperm hstable⟩
  · obtain ⟨r, array', hr, hsorted, hu⟩ := sortValues_spec comparator junk h hrange
    refine ⟨r, array', hr, hsorted, ?_⟩
    split at hu
    · rename_i hin
      rw [if_pos hin]
      exact hu.holds
    · rename_i hin
      rw [if_neg hin]
      exact hu.holds

end CFLite.Array
