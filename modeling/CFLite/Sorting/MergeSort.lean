import CFLite.Base.Comparison
import CFLite.Framework.Buckets
import CFLite.Framework.StableSort

/-!
# The merge sort of `CFSortFunctions.c`

`__CFSimpleMergeSort` sorts a list of indexes in place, with a buffer that all
its calls share. A merge writes to the buffer, then moves what is left of the
first half to the end and copies the buffer back. `CFQSortArray` and
`CFMergeSortArray` sort the indexes of a list and then gather its elements.

* `simpleMerge_spec`, `simpleMergeSort_spec`: for any comparator a permutation,
  and for a total preorder the stable order of indexes that were increasing;
* `sortArray_spec`: the stable order of a list;
* `sortArray_congr`: all that counts of a comparator is which elements come after
  others.

Memory for the indexes and the buffers is always there, and so a list never has
the more than `INTPTR_MAX / sizeof(CFIndex)` elements for which `CFSortIndexes`
gives up.
-/

namespace CFLite.Sorting

open Framework

/-! ## The code -/

section Code

variable {β : Type*} (cmp : β → β → CFComparisonResult)

omit cmp in
/-- `while (idx--) listp[idx] = tmp[idx];` -/
def copyBack : (idx : Nat) → (listp tmp : List β) → Option (List β)
  | 0, listp, _ => some listp
  | idx + 1, listp, tmp => do
    let v ← tmp[idx]?
    let listp ← write listp idx v
    copyBack idx listp tmp

omit cmp in
/-- `for (t = cnt1 + cnt2 - 1; idx <= t; t--) listp[t] = listp[t - cnt2];`, with
`n` steps to go. -/
def shiftTail (cnt2 idx : Nat) : (n : Nat) → (listp : List β) → Option (List β)
  | 0, listp => some listp
  | n + 1, listp => do
    let v ← listp[idx + n - cnt2]?
    let listp ← write listp (idx + n) v
    shiftTail cnt2 idx n listp

/-- `for (;;)` of `__CFSimpleMerge`: the list and the buffer at its end. -/
def mergeLoop (cnt1 cnt2 : Nat) (listp tmp : List β) (idx idx1 idx2 : Nat) : Option (List β × List β) :=
  if cnt1 ≤ idx1 then (copyBack idx listp tmp).map (·, tmp)
  else if cnt1 + cnt2 ≤ idx2 then
    (shiftTail cnt2 idx (cnt1 + cnt2 - idx) listp).bind fun listp => (copyBack idx listp tmp).map (·, tmp)
  else
    listp[idx1]?.bind fun v1 => listp[idx2]?.bind fun v2 =>
    if cmp v1 v2 ≠ .gt then
      (write tmp idx v1).bind fun tmp => mergeLoop cnt1 cnt2 listp tmp (idx + 1) (idx1 + 1) idx2
    else
      (write tmp idx v2).bind fun tmp => mergeLoop cnt1 cnt2 listp tmp (idx + 1) idx1 (idx2 + 1)
termination_by cnt1 - idx1 + (cnt1 + cnt2 - idx2)

/-- `__CFSimpleMerge` -/
def simpleMerge (listp : List β) (cnt1 cnt2 : Nat) (tmp : List β) : Option (List β × List β) :=
  if cnt1 = 0 ∨ cnt2 = 0 then some (listp, tmp) else do
  let last ← listp[cnt1 - 1]?
  let first ← listp[cnt1]?
  -- the lists are already ordered
  if 16 < cnt1 + cnt2 ∧ cmp last first ≠ .gt then return (listp, tmp)
  mergeLoop cmp cnt1 cnt2 listp tmp 0 0 cnt1

/-- The case of three elements. -/
def sortThree (v0 v1 v2 : β) : List β :=
  let (v0, v1) := if cmp v0 v1 = .gt then (v1, v0) else (v0, v1)
  if cmp v1 v2 = .gt then
    let (v1, v2) := (v2, v1)
    let (v0, v1) := if cmp v0 v1 = .gt then (v1, v0) else (v0, v1)
    [v0, v1, v2]
  else [v0, v1, v2]

/-- `__CFSimpleMergeSort`: the list and the buffer afterwards. -/
def simpleMergeSort (listp tmp : List β) : Option (List β × List β) :=
  match listp with
  | [] | [_] => some (listp, tmp)
  | [v0, v1] => some (if cmp v0 v1 = .gt then [v1, v0] else [v0, v1], tmp)
  | [v0, v1, v2] => some (sortThree cmp v0 v1 v2, tmp)
  | v0 :: v1 :: v2 :: v3 :: rest =>
    let listp := v0 :: v1 :: v2 :: v3 :: rest
    let half_cnt := listp.length / 2
    (simpleMergeSort (listp.take half_cnt) tmp).bind fun (left, tmp) =>
    (simpleMergeSort (listp.drop half_cnt) tmp).bind fun (right, tmp) =>
    simpleMerge cmp (left ++ right) half_cnt (listp.length - half_cnt) tmp
termination_by listp.length
decreasing_by all_goals simp; omega

end Code

/-- `kCFSortStable` -/
def kCFSortStable : Nat := 1 <<< 4

/-- `CFSortIndexes`, without the concurrent option: the options change nothing.
The buffer holds `junk` at first. -/
def sortIndexes (count : Nat) (_opts : Nat) (junk : Fin count) (cmp : Fin count → Fin count → CFComparisonResult) :
    Option (List (Fin count)) :=
  let indexBuffer := List.finRange count
  (simpleMergeSort cmp indexBuffer (List.replicate count junk)).map Prod.fst

/-- The elements in the order of their sorted indexes. -/
def sortArray {β : Type*} (opts : Nat) (list : List β) (elementSize : Nat)
    (comparator : β → β → CFComparisonResult) : Option (List β) :=
  if h : list.length < 2 ∨ elementSize < 1 then some list else
  (sortIndexes list.length opts ⟨0, by omega⟩ fun a b => comparator (list.get a) (list.get b)).map fun indexes =>
    indexes.map list.get

/-- `CFQSortArray`. Its elements have `elementSize` bytes. -/
def qSortArray {β : Type*} (list : List β) (elementSize : Nat) (comparator : β → β → CFComparisonResult) :
    Option (List β) :=
  sortArray 0 list elementSize comparator

/-- `CFMergeSortArray` -/
def mergeSortArray {β : Type*} (list : List β) (elementSize : Nat) (comparator : β → β → CFComparisonResult) :
    Option (List β) :=
  sortArray kCFSortStable list elementSize comparator

/-! ## Merging -/

section Merge

variable {β : Type*} {cmp : β → β → CFComparisonResult}

/-- `a` is taken before `b` from the other half. -/
def takesFirst (cmp : β → β → CFComparisonResult) (a b : β) : Bool := cmp a b ≠ .gt

theorem take_set_succ {i : Nat} {l : List β} (h : i < l.length) (v : β) : (l.set i v).take (i + 1) = l.take i ++ [v] := by
  rw [List.take_succ_eq_append_getElem (by rwa [List.length_set]), List.getElem_set_self, List.take_set_of_le le_rfl]

theorem copyBack_eq {idx : Nat} {listp tmp : List β} (hlist : idx ≤ listp.length) (htmp : idx ≤ tmp.length) :
    copyBack idx listp tmp = some (tmp.take idx ++ listp.drop idx) := by
  induction idx generalizing listp with
  | zero => rfl
  | succ idx ih =>
    have hdrop : (listp.set idx tmp[idx]).drop idx = tmp[idx] :: listp.drop (idx + 1) := by
      rw [List.drop_eq_getElem_cons (by rw [List.length_set]; omega), List.getElem_set_self,
        List.drop_set_of_lt (Nat.lt_succ_self _)]
    rw [copyBack, List.getElem?_eq_getElem (by omega), Option.bind_eq_bind, Option.bind_some, write_eq (by omega),
      Option.bind_eq_bind, Option.bind_some, ih (by rw [List.length_set]; omega) (by omega), hdrop,
      List.take_succ_eq_append_getElem (by omega), List.append_assoc, List.singleton_append]

theorem shiftTail_spec {cnt2 idx n : Nat} {listp : List β} (hidx : cnt2 ≤ idx) (hn : idx + n ≤ listp.length) :
    ∃ listp', shiftTail cnt2 idx n listp = some listp' ∧ listp'.length = listp.length ∧
      ∀ k, listp'[k]? = if idx ≤ k ∧ k < idx + n then listp[k - cnt2]? else listp[k]? := by
  induction n generalizing listp with
  | zero => exact ⟨listp, rfl, rfl, fun k => by rw [if_neg (by omega)]⟩
  | succ n ih =>
    have hget := List.getElem?_eq_getElem (show idx + n - cnt2 < listp.length by omega)
    obtain ⟨listp', hshift, hlen, hspec⟩ := ih
      (show idx + n ≤ (listp.set (idx + n) listp[idx + n - cnt2]).length by rw [List.length_set]; omega)
    refine ⟨listp', ?_, by rw [hlen, List.length_set], fun k => ?_⟩
    · rw [shiftTail, hget, Option.bind_eq_bind, Option.bind_some, write_eq (by omega), Option.bind_eq_bind,
        Option.bind_some, hshift]
    · rw [hspec k, List.getElem?_set, List.getElem?_set]
      grind

variable (cmp) in
/-- The loop appends the merge of what is left of the two halves. -/
theorem mergeLoop_spec {cnt1 cnt2 : Nat} {listp tmp : List β} {idx idx1 idx2 : Nat}
    (hlist : listp.length = cnt1 + cnt2) (htmp : cnt1 + cnt2 ≤ tmp.length) (h1 : idx1 ≤ cnt1) (h2 : cnt1 ≤ idx2)
    (h2' : idx2 ≤ cnt1 + cnt2) (hidx : idx + cnt1 = idx1 + idx2) :
    ∃ tmp', mergeLoop cmp cnt1 cnt2 listp tmp idx idx1 idx2 = some
        (tmp.take idx ++ List.merge ((listp.take cnt1).drop idx1) (listp.drop idx2) (takesFirst cmp), tmp') ∧
      tmp'.length = tmp.length := by
  induction hm : cnt1 - idx1 + (cnt1 + cnt2 - idx2) using Nat.strong_induction_on generalizing tmp idx idx1 idx2 with
  | _ m ih =>
    rw [mergeLoop]
    split
    · -- the first half is used up, and the rest of the second is in place
      rename_i hdone
      have hnil : (listp.take cnt1).drop idx1 = [] := List.drop_eq_nil_of_le (by rw [List.length_take]; omega)
      refine ⟨tmp, ?_, rfl⟩
      rw [copyBack_eq (by omega) (by omega), hnil, List.nil_merge, show idx = idx2 by omega]
      rfl
    split
    · -- the second half is used up, and the rest of the first moves to the end
      rename_i hdone
      obtain ⟨listp', hshift, hlen, hspec⟩ := shiftTail_spec (show cnt2 ≤ idx by omega)
        (show idx + (cnt1 + cnt2 - idx) ≤ listp.length by omega)
      have hnil : listp.drop idx2 = [] := List.drop_eq_nil_of_le (by omega)
      have hrest : listp'.drop idx = (listp.take cnt1).drop idx1 := by
        refine List.ext_getElem? fun k => ?_
        rw [List.getElem?_drop, List.getElem?_drop, hspec, List.getElem?_take]
        by_cases hk : idx1 + k < cnt1
        · rw [if_pos (by omega), if_pos hk, show idx + k - cnt2 = idx1 + k by omega]
        · rw [if_neg (by omega), if_neg hk, List.getElem?_eq_none (by omega)]
      refine ⟨tmp, ?_, rfl⟩
      rw [hshift, Option.bind_some, copyBack_eq (by omega) (by omega), hnil, List.merge_right, hrest]
      rfl
    · rename_i hleft hright
      have hv1 : (listp.take cnt1).drop idx1 = listp[idx1] :: (listp.take cnt1).drop (idx1 + 1) := by
        rw [List.drop_eq_getElem_cons (by rw [List.length_take]; omega), List.getElem_take]
      have hv2 : listp.drop idx2 = listp[idx2] :: listp.drop (idx2 + 1) := List.drop_eq_getElem_cons (by omega)
      rw [List.getElem?_eq_getElem (show idx1 < listp.length by omega),
        List.getElem?_eq_getElem (show idx2 < listp.length by omega), Option.bind_some, Option.bind_some, hv1, hv2,
        List.cons_merge_cons, ← hv1, ← hv2]
      split
      · rename_i hle
        obtain ⟨tmp', hloop, hlen⟩ := ih _ (by omega)
          (show cnt1 + cnt2 ≤ (tmp.set idx listp[idx1]).length by rwa [List.length_set])
          (show idx1 + 1 ≤ cnt1 by omega) h2 h2' (show idx + 1 + cnt1 = idx1 + 1 + idx2 by omega) rfl
        refine ⟨tmp', ?_, by rw [hlen, List.length_set]⟩
        rw [write_eq (by omega), Option.bind_some, hloop, if_pos (by simpa [takesFirst] using hle),
          take_set_succ (by omega), List.append_assoc, List.singleton_append]
      · rename_i hgt
        obtain ⟨tmp', hloop, hlen⟩ := ih _ (by omega)
          (show cnt1 + cnt2 ≤ (tmp.set idx listp[idx2]).length by rwa [List.length_set]) h1
          (show cnt1 ≤ idx2 + 1 by omega) (by omega) (show idx + 1 + cnt1 = idx1 + (idx2 + 1) by omega) rfl
        refine ⟨tmp', ?_, by rw [hlen, List.length_set]⟩
        rw [write_eq (by omega), Option.bind_some, hloop, if_neg (by simpa [takesFirst] using hgt),
          take_set_succ (by omega), List.append_assoc, List.singleton_append]

variable (cmp) in
/-- A merge of two halves that are already in order leaves them as they are. -/
theorem simpleMerge_spec {listp tmp : List β} {cnt1 cnt2 : Nat} (hlist : listp.length = cnt1 + cnt2)
    (htmp : cnt1 + cnt2 ≤ tmp.length) (h1 : 0 < cnt1) (h2 : 0 < cnt2) :
    ∃ r tmp', simpleMerge cmp listp cnt1 cnt2 tmp = some (r, tmp') ∧ tmp'.length = tmp.length ∧
      (r = List.merge (listp.take cnt1) (listp.drop cnt1) (takesFirst cmp) ∨
        r = listp ∧ ∃ last ∈ (listp.take cnt1).getLast?, ∃ first ∈ (listp.drop cnt1).head?, NotAfter cmp last first) := by
  have hlast := List.getElem?_eq_getElem (show cnt1 - 1 < listp.length by omega)
  have hfirst := List.getElem?_eq_getElem (show cnt1 < listp.length by omega)
  rw [simpleMerge, if_neg (by omega), hlast, hfirst]
  simp only [Option.bind_eq_bind, Option.bind_some]
  split
  · rename_i hordered
    refine ⟨listp, tmp, rfl, rfl, .inr ⟨rfl, _, ?_, _, ?_, hordered.2⟩⟩
    · rw [List.getLast?_eq_getElem?, List.length_take, min_eq_left (by omega), List.getElem?_take_of_lt (by omega), hlast]
      rfl
    · rw [List.head?_drop, hfirst]
      rfl
  · obtain ⟨tmp', hloop, hlen⟩ := mergeLoop_spec cmp hlist htmp (Nat.zero_le cnt1) le_rfl
      (show cnt1 ≤ cnt1 + cnt2 by omega) (show 0 + cnt1 = 0 + cnt1 from rfl)
    exact ⟨_, tmp', hloop, hlen, .inl rfl⟩

end Merge

/-! ## Sorting indexes -/

section Order

variable {β : Type*} [Preorder β] {cmp : β → β → CFComparisonResult}

/-- `a` comes before `b` in the stable order of indexes. -/
def Earlier (cmp : β → β → CFComparisonResult) (a b : β) : Prop := NotAfter cmp a b ∧ (NotAfter cmp b a → a < b)

theorem Earlier.trans (h : TotalPreorder cmp) {a b c : β} (hab : Earlier cmp a b) (hbc : Earlier cmp b c) :
    Earlier cmp a c := by
  refine ⟨h.trans _ _ _ hab.1 hbc.1, fun hca => ?_⟩
  have hlt : a < b := hab.2 (h.trans _ _ _ hbc.1 hca)
  exact hlt.trans (hbc.2 (h.trans _ _ _ hca hab.1))

theorem Earlier.of_not (h : TotalPreorder cmp) {a b : β} (hab : ¬ NotAfter cmp a b) : Earlier cmp b a :=
  ⟨h.of_not hab, fun hle => absurd hle hab⟩

/-- The outcome of sorting `l`. -/
structure Sorted (cmp : β → β → CFComparisonResult) (l r : List β) : Prop where
  perm : r.Perm l
  pairwise : TotalPreorder cmp → l.Pairwise (· < ·) → r.Pairwise (Earlier cmp)

theorem sortTwo_sorted (v0 v1 : β) : Sorted cmp [v0, v1] (if cmp v0 v1 = .gt then [v1, v0] else [v0, v1]) := by
  split
  · rename_i hgt
    exact ⟨List.Perm.swap _ _ _, fun h _ => List.pairwise_pair.mpr (Earlier.of_not h (not_not.mpr hgt))⟩
  · rename_i hle
    exact ⟨List.Perm.refl _, fun _ hlt => List.pairwise_pair.mpr ⟨hle, fun _ => List.pairwise_pair.mp hlt⟩⟩

theorem sortThree_sorted (v0 v1 v2 : β) : Sorted cmp [v0, v1, v2] (sortThree cmp v0 v1 v2) := by
  obtain ⟨a, b, hpair, hperm, hab⟩ : ∃ a b, (if cmp v0 v1 = .gt then (v1, v0) else (v0, v1)) = (a, b) ∧
      [a, b].Perm [v0, v1] ∧ (TotalPreorder cmp → v0 < v1 → Earlier cmp a b) := by
    split
    · rename_i hgt
      exact ⟨v1, v0, rfl, List.Perm.swap _ _ _, fun h _ => Earlier.of_not h (not_not.mpr hgt)⟩
    · rename_i hle
      exact ⟨v0, v1, rfl, List.Perm.refl _, fun _ hlt => ⟨hle, fun _ => hlt⟩⟩
  have hlt : [v0, v1, v2].Pairwise (· < ·) → v0 < v1 ∧ a < v2 ∧ b < v2 := by
    intro hlt
    simp only [List.pairwise_cons, List.mem_cons, List.not_mem_nil, or_false, forall_eq_or_imp, forall_eq] at hlt
    have hmem : ∀ x ∈ [a, b], x < v2 := fun x hx => by
      rcases List.mem_pair.mp (hperm.mem_iff.mp hx) with rfl | rfl
      · exact hlt.1.2
      · exact hlt.2.1
    exact ⟨hlt.1.1, hmem a (by simp), hmem b (by simp)⟩
  have hperm3 : [a, b, v2].Perm [v0, v1, v2] := hperm.append_right [v2]
  rw [sortThree, hpair]
  dsimp only
  split
  · rename_i hb2
    have hswap : [a, v2, b].Perm [v0, v1, v2] := ((List.Perm.swap b v2 []).cons a).trans hperm3
    split
    · rename_i ha2
      refine ⟨(List.Perm.swap a v2 [b]).trans hswap, fun h hpw => ?_⟩
      have h2a : Earlier cmp v2 a := Earlier.of_not h (not_not.mpr ha2)
      have h2b : Earlier cmp v2 b := Earlier.of_not h (not_not.mpr hb2)
      simp [h2a, h2b, hab h (hlt hpw).1]
    · rename_i ha2
      refine ⟨hswap, fun h hpw => ?_⟩
      have ha2 : Earlier cmp a v2 := ⟨ha2, fun _ => (hlt hpw).2.1⟩
      have h2b : Earlier cmp v2 b := Earlier.of_not h (not_not.mpr hb2)
      simp [ha2, h2b, hab h (hlt hpw).1]
  · rename_i hb2
    refine ⟨hperm3, fun h hpw => ?_⟩
    have hb2 : Earlier cmp b v2 := ⟨hb2, fun _ => (hlt hpw).2.2⟩
    have hab := hab h (hlt hpw).1
    simp [hab, hb2, hab.trans h hb2]

/-- Two sorted halves, everything of the first having smaller indexes. -/
theorem Sorted.merge {l₁ l₂ left right tmp : List β} (h₁ : Sorted cmp l₁ left) (h₂ : Sorted cmp l₂ right)
    (hne₁ : l₁ ≠ []) (hne₂ : l₂ ≠ []) (htmp : l₁.length + l₂.length ≤ tmp.length) :
    ∃ r tmp', simpleMerge cmp (left ++ right) l₁.length l₂.length tmp = some (r, tmp') ∧ tmp'.length = tmp.length ∧
      Sorted cmp (l₁ ++ l₂) r := by
  have hlen₁ := h₁.perm.length_eq
  have hlen₂ := h₂.perm.length_eq
  obtain ⟨r, tmp', hmerge, hlen, hr⟩ := simpleMerge_spec cmp
    (show (left ++ right).length = l₁.length + l₂.length by rw [List.length_append, hlen₁, hlen₂]) htmp (List.length_pos_iff.mpr hne₁) (List.length_pos_iff.mpr hne₂)
  rw [← hlen₁, List.take_left, List.drop_left] at hr
  have hcross : (l₁ ++ l₂).Pairwise (· < ·) → ∀ x ∈ left, ∀ y ∈ right, x < y := fun hlt x hx y hy =>
    (List.pairwise_append.mp hlt).2.2 x (h₁.perm.mem_iff.mp hx) y (h₂.perm.mem_iff.mp hy)
  refine ⟨r, tmp', hmerge, hlen, ?_, fun h hlt => ?_⟩
  · rcases hr with rfl | ⟨rfl, -⟩
    · exact (List.merge_perm_append _).trans (h₁.perm.append h₂.perm)
    · exact h₁.perm.append h₂.perm
  · have hp₁ := h₁.pairwise h (List.pairwise_append.mp hlt).1
    have hp₂ := h₂.pairwise h (List.pairwise_append.mp hlt).2.1
    rcases hr with rfl | ⟨rfl, last, hlast, first, hfirst, hle⟩
    · refine pairwise_merge_of (R := Earlier cmp) (fun _ _ _ => Earlier.trans h) (fun x hx y hy => ?_) hp₁ hp₂
      split
      · rename_i htakes
        exact ⟨by simpa [takesFirst, NotAfter] using htakes, fun _ => hcross hlt x hx y hy⟩
      · rename_i htakes
        exact Earlier.of_not h (by simpa [takesFirst, NotAfter] using htakes)
    · refine List.pairwise_append.mpr ⟨hp₁, hp₂, fun x hx y hy => ⟨?_, fun _ => hcross hlt x hx y hy⟩⟩
      obtain ⟨init, rfl⟩ := List.getLast?_eq_some_iff.mp hlast
      obtain ⟨rest, rfl⟩ := List.head?_eq_some_iff.mp hfirst
      have hx : NotAfter cmp x last := by
        rcases List.mem_append.mp hx with hx | hx
        · exact ((List.pairwise_append.mp hp₁).2.2 x hx last List.mem_cons_self).1
        · rw [List.mem_singleton.mp hx]
          exact h.refl last
      have hy : NotAfter cmp first y := by
        rcases List.mem_cons.mp hy with rfl | hy
        · exact h.refl y
        · exact (List.rel_of_pairwise_cons hp₂ hy).1
      exact h.trans _ _ _ hx (h.trans _ _ _ hle hy)

variable (cmp) in
theorem simpleMergeSort_spec (listp : List β) {tmp : List β} (htmp : listp.length ≤ tmp.length) :
    ∃ r tmp', simpleMergeSort cmp listp tmp = some (r, tmp') ∧ tmp'.length = tmp.length ∧ Sorted cmp listp r := by
  induction listp, tmp using simpleMergeSort.induct with
  | case1 tmp => exact ⟨[], tmp, by rw [simpleMergeSort], rfl, List.Perm.refl _, fun _ _ => List.Pairwise.nil⟩
  | case2 tmp v => exact ⟨[v], tmp, by rw [simpleMergeSort], rfl, List.Perm.refl _, fun _ _ => List.pairwise_singleton _ _⟩
  | case3 tmp v0 v1 => exact ⟨_, tmp, by rw [simpleMergeSort], rfl, sortTwo_sorted v0 v1⟩
  | case4 tmp v0 v1 v2 => exact ⟨_, tmp, by rw [simpleMergeSort], rfl, sortThree_sorted v0 v1 v2⟩
  | case5 tmp v0 v1 v2 v3 rest listp half_cnt ih₁ ih₂ =>
    have hlen : listp.length = rest.length + 4 := rfl
    have hhalf : half_cnt = (rest.length + 4) / 2 := rfl
    have htake : (listp.take half_cnt).length = half_cnt := by rw [List.length_take]; omega
    have hdrop : (listp.drop half_cnt).length = listp.length - half_cnt := List.length_drop
    have htmp : listp.length ≤ tmp.length := htmp
    obtain ⟨left, tmp₁, hleft, hlen₁, hsorted₁⟩ := ih₁ (by omega)
    obtain ⟨right, tmp₂, hright, hlen₂, hsorted₂⟩ := ih₂ tmp₁ (by omega)
    obtain ⟨r, tmp₃, hmerge, hlen₃, hsorted⟩ := hsorted₁.merge hsorted₂
      (List.length_pos_iff.mp (by omega)) (List.length_pos_iff.mp (by omega))
      (show (listp.take half_cnt).length + (listp.drop half_cnt).length ≤ tmp₂.length by omega)
    rw [htake, hdrop] at hmerge
    rw [List.take_append_drop] at hsorted
    refine ⟨r, tmp₃, ?_, by omega, hsorted⟩
    rw [simpleMergeSort]
    simp only [Option.bind_eq_some_iff]
    exact ⟨_, hleft, _, hright, hmerge⟩

end Order

/-! ## Sorting a list -/

theorem sortIndexes_spec (count opts : Nat) (junk : Fin count) (cmp : Fin count → Fin count → CFComparisonResult) :
    ∃ r, sortIndexes count opts junk cmp = some r ∧ Sorted cmp (List.finRange count) r := by
  obtain ⟨r, tmp', hsort, -, hsorted⟩ := simpleMergeSort_spec cmp (List.finRange count)
    (show (List.finRange count).length ≤ (List.replicate count junk).length by simp)
  exact ⟨r, by rw [sortIndexes, hsort]; rfl, hsorted⟩

/-- For any comparator the result is a permutation, and for a total preorder it
is the stable order. Elements without bytes are all the same. -/
theorem sortArray_spec {β : Type*} (opts : Nat) (list : List β) {elementSize : Nat}
    (hsize : elementSize < 1 → Subsingleton β) (comparator : β → β → CFComparisonResult) :
    ∃ r, sortArray opts list elementSize comparator = some r ∧ r.Perm list ∧
      (TotalPreorder comparator → IsStableSort (NotAfter comparator) list r) := by
  rw [sortArray]
  split
  · rename_i hfew
    refine ⟨list, rfl, List.Perm.refl _, fun h => ⟨List.finRange list.length, List.Perm.refl _, ?_, ?_⟩⟩
    · refine (List.pairwise_lt_finRange _).imp fun {i j} hlt => ⟨?_, fun _ => hlt⟩
      rcases hfew with hlen | hbytes
      · omega
      · rw [(hsize hbytes).elim (list.get i) (list.get j)]
        exact h.refl _
    · rw [List.map_get_finRange]
  · rename_i hmany
    obtain ⟨p, hsort, hsorted⟩ := sortIndexes_spec list.length opts ⟨0, by omega⟩
      fun a b => comparator (list.get a) (list.get b)
    refine ⟨p.map list.get, by rw [hsort]; rfl, map_get_perm hsorted.perm, fun h => ⟨p, hsorted.perm, ?_, rfl⟩⟩
    have hindex : TotalPreorder fun a b : Fin list.length => comparator (list.get a) (list.get b) :=
      ⟨fun _ _ => h.swap _ _, fun _ _ _ => h.trans _ _ _⟩
    exact hsorted.pairwise hindex (List.pairwise_lt_finRange _)

/-! ## Comparators that tell equal elements apart -/

section Congruence

variable {β : Type*} {cmp cmp' : β → β → CFComparisonResult}

theorem mergeLoop_congr (h : ∀ a b, cmp a b = .gt ↔ cmp' a b = .gt) (cnt1 cnt2 : Nat) (listp tmp : List β) (idx idx1 idx2 : Nat) :
    mergeLoop cmp cnt1 cnt2 listp tmp idx idx1 idx2 = mergeLoop cmp' cnt1 cnt2 listp tmp idx idx1 idx2 := by
  have hne : ∀ a b, cmp a b ≠ .gt ↔ cmp' a b ≠ .gt := fun a b => not_congr (h a b)
  induction hn : cnt1 - idx1 + (cnt1 + cnt2 - idx2) using Nat.strong_induction_on generalizing tmp idx idx1 idx2 with
  | _ n ih =>
    rw [mergeLoop, mergeLoop]
    split
    · rfl
    · split
      · rfl
      · simp only [hne]
        congr 1
        funext v1
        congr 1
        funext v2
        split
        · congr 1
          funext tmp
          exact ih _ (by omega) _ _ _ _ rfl
        · congr 1
          funext tmp
          exact ih _ (by omega) _ _ _ _ rfl

theorem simpleMerge_congr (h : ∀ a b, cmp a b = .gt ↔ cmp' a b = .gt) (listp : List β) (cnt1 cnt2 : Nat) (tmp : List β) :
    simpleMerge cmp listp cnt1 cnt2 tmp = simpleMerge cmp' listp cnt1 cnt2 tmp := by
  simp only [simpleMerge, ne_eq, h, mergeLoop_congr h]

theorem simpleMergeSort_congr (h : ∀ a b, cmp a b = .gt ↔ cmp' a b = .gt) (listp tmp : List β) :
    simpleMergeSort cmp listp tmp = simpleMergeSort cmp' listp tmp := by
  induction listp, tmp using simpleMergeSort.induct with
  | case1 tmp => rw [simpleMergeSort, simpleMergeSort]
  | case2 tmp v => rw [simpleMergeSort, simpleMergeSort]
  | case3 tmp v0 v1 => simp only [simpleMergeSort, h]
  | case4 tmp v0 v1 v2 => simp only [simpleMergeSort, sortThree, h]
  | case5 tmp v0 v1 v2 v3 rest listp half_cnt ih₁ ih₂ =>
    rw [simpleMergeSort, simpleMergeSort]
    dsimp only
    rw [show simpleMergeSort cmp (listp.take half_cnt) tmp = _ from ih₁]
    congr 1
    funext left
    rw [show simpleMergeSort cmp (listp.drop half_cnt) left.2 = _ from ih₂ left.2]
    congr 1
    funext right
    exact simpleMerge_congr h _ _ _ _

/-- Sorting looks only for elements that come after another. -/
theorem sortArray_congr {comparator comparator' : β → β → CFComparisonResult}
    (h : ∀ a b, comparator a b = .gt ↔ comparator' a b = .gt) (opts : Nat) (list : List β) (elementSize : Nat) :
    sortArray opts list elementSize comparator = sortArray opts list elementSize comparator' := by
  unfold sortArray sortIndexes
  split
  · rfl
  · dsimp only
    rw [simpleMergeSort_congr fun a b => h (list.get a) (list.get b)]

end Congruence

end CFLite.Sorting
