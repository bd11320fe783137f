import CFLite.Framework.MergeExchange
import CFLite.Sorting.MergeSort

/-!
# The concurrent sort of `CFSortFunctions.c`

`__CFSortIndexesN` cuts the list into sections, sorts each of them, and then merges
neighbouring sections from the list to a buffer for each section and back. Both
halves of a pair are merged on their own: one takes the smaller part, the other one
the larger part from the end.

A `dispatch_apply` runs its block for all of its indexes in an order that is not
specified (`Schedule`). The blocks of one call write to different sections.

* `sortIndexesNMerge_spec`: the two parts of a merge.
-/

namespace CFLite.Sorting

open Framework

section Code

variable {β : Type*} (cmp : β → β → CFComparisonResult)

omit cmp in
/-- What a pointer that may have left its list points to. -/
def valueAt (listp : List β) (idx : Int) : Option β := if 0 ≤ idx then listp[idx.toNat]? else none

/-- `while (tmp_end < tmp)`, with `n` steps to go. -/
def mergeLargest (listp1 listp2 : List β) : (n : Nat) → (idx1 idx2 : Int) → (tmp : List β) → Option (List β)
  | 0, _, _, tmp => some tmp
  | n + 1, idx1, idx2, tmp =>
    if idx2 < 0 then
      (valueAt listp1 (idx1 - 1)).bind fun v => mergeLargest listp1 listp2 n (idx1 - 1) idx2 (v :: tmp)
    else if idx1 < 0 then
      (valueAt listp2 (idx2 - 1)).bind fun v => mergeLargest listp1 listp2 n idx1 (idx2 - 1) (v :: tmp)
    else
      (valueAt listp1 idx1).bind fun v1 => (valueAt listp2 idx2).bind fun v2 =>
      if cmp v1 v2 ≠ .gt then mergeLargest listp1 listp2 n idx1 (idx2 - 1) (v2 :: tmp)
      else mergeLargest listp1 listp2 n (idx1 - 1) idx2 (v1 :: tmp)

/-- `while (tmp < tmp_end)`, with `n` steps to go. -/
def mergeSmallest (listp1 listp2 : List β) : (n idx1 idx2 : Nat) → Option (List β)
  | 0, _, _ => some []
  | n + 1, idx1, idx2 =>
    if listp2.length ≤ idx2 then
      listp1[idx1]?.bind fun v => (mergeSmallest listp1 listp2 n (idx1 + 1) idx2).map (v :: ·)
    else if listp1.length ≤ idx1 then
      listp2[idx2]?.bind fun v => (mergeSmallest listp1 listp2 n idx1 (idx2 + 1)).map (v :: ·)
    else
      listp1[idx1]?.bind fun v1 => listp2[idx2]?.bind fun v2 =>
      if cmp v1 v2 ≠ .gt then (mergeSmallest listp1 listp2 n (idx1 + 1) idx2).map (v1 :: ·)
      else (mergeSmallest listp1 listp2 n idx1 (idx2 + 1)).map (v2 :: ·)

/-- `__CFSortIndexesNMerge`: the values that it puts in `tmp`. -/
def sortIndexesNMerge (listp1 listp2 : List β) (right : Bool) : Option (List β) := do
  let cnt1 := listp1.length
  let cnt2 := listp2.length
  let last ← listp1[cnt1 - 1]?
  let first ← listp2[0]?
  -- the lists are already ordered
  if 16 < cnt1 + cnt2 ∧ cmp last first ≠ .gt then return if right then listp2 else listp1
  if right then mergeLargest cmp listp1 listp2 cnt2 (cnt1 - 1) (cnt2 - 1) []
  else mergeSmallest cmp listp1 listp2 cnt1 0 0

/-- The list, and a buffer for each section. -/
structure Sections (β : Type*) where
  listp : List β
  tmps : List (List β)

/-- The order in which call number `call` of `dispatch_apply` runs its block for
`iterations` indexes. -/
abbrev Schedule := (call iterations : Nat) → { order : List Nat // order.Perm (List.range iterations) }

omit cmp in
/-- `dispatch_apply` -/
def dispatchApply {σ : Type*} (schedule : Schedule) (call iterations : Nat) (block : Nat → σ → Option σ) (s : σ) :
    Option σ :=
  (schedule call iterations).val.foldlM (fun s sect => block sect s) s

/-- The numbers that `__CFSortIndexesN` computes first. -/
structure Cut where
  sz : Nat
  num_sect : Nat
  last_sect_len : Nat

/-- Multiple-of-16-sized sections, up to `ncores` of them. -/
def cutFor (count ncores : Nat) : Cut :=
  let sz := ((count + ncores - 1) / ncores + 15) / 16 * 16
  let num_sect := (count + sz - 1) / sz
  ⟨sz, num_sect, count + sz - sz * num_sect⟩

/-- The block that sorts a section. -/
def sortSection (cut : Cut) (sect : Nat) (s : Sections β) : Option (Sections β) := do
  let sect_len := if sect < cut.num_sect - 1 then cut.sz else cut.last_sect_len
  let values ← readRange s.listp (sect * cut.sz : Nat) sect_len
  let tmp ← s.tmps[sect]?
  let (values, tmp) ← simpleMergeSort cmp values tmp
  let listp ← writeRange s.listp (sect * cut.sz : Nat) values
  return ⟨listp, s.tmps.set sect tmp⟩

omit cmp in
/-- The values at the start of a buffer. -/
def readTmp (s : Sections β) (sect n : Nat) : Option (List β) := do
  let tmp ← s.tmps[sect]?
  readRange tmp 0 n

omit cmp in
/-- Values to the start of a buffer. -/
def writeTmp (s : Sections β) (sect : Nat) (values : List β) : Option (Sections β) := do
  let tmp ← s.tmps[sect]?
  let tmp ← writeRange tmp 0 values
  return { s with tmps := s.tmps.set sect tmp }

omit cmp in
/-- Values to the list. -/
def writeList (s : Sections β) (idx : Nat) (values : List β) : Option (Sections β) := do
  let listp ← writeRange s.listp idx values
  return { s with listp }

/-- The block of the even phase: sections of the list to their buffers. -/
def mergeEven (cut : Cut) (sect : Nat) (s : Sections β) : Option (Sections β) := do
  let right : Bool := sect % 2 = 1
  let left_base : Int := (sect * cut.sz : Nat) - (if right then cut.sz else 0 : Nat)
  let right_base : Int := (sect * cut.sz : Nat) + (if right then 0 else cut.sz : Nat)
  let sect2_len := if sect + 1 + (if right then 0 else 1) = cut.num_sect then cut.last_sect_len else cut.sz
  let listp1 ← readRange s.listp left_base cut.sz
  let listp2 ← readRange s.listp right_base sect2_len
  let values ← sortIndexesNMerge cmp listp1 listp2 right
  writeTmp s sect values

/-- The block of the odd phase: buffers to the sections after the first one. -/
def mergeOdd (cut : Cut) (sect : Nat) (s : Sections β) : Option (Sections β) := do
  let right : Bool := sect % 2 = 1
  let sect2_len := if sect + 1 + (if right then 1 else 2) = cut.num_sect then cut.last_sect_len else cut.sz
  let listp1 ← readTmp s (sect + if right then 0 else 1) cut.sz
  let listp2 ← readTmp s (sect + if right then 1 else 2) sect2_len
  let values ← sortIndexesNMerge cmp listp1 listp2 right
  writeList s (sect * cut.sz + cut.sz) values

/-- The even phase: every section to its buffer. The last one has no neighbour if
there is an odd number of them. -/
def evenPhase (cut : Cut) (schedule : Schedule) (idx : Nat) (s : Sections β) : Option (Sections β) := do
  let even_phase_cnt := cut.num_sect / 2 * 2
  let s ← dispatchApply schedule (2 * idx + 1) even_phase_cnt (mergeEven cmp cut) s
  if cut.num_sect % 2 = 1 then do
    let values ← readRange s.listp ((cut.num_sect - 1) * cut.sz : Nat) cut.last_sect_len
    writeTmp s (cut.num_sect - 1) values
  else some s

/-- The odd phase: every buffer back to its section. The first one has no
neighbour, and neither has the last one if there is an even number of them. -/
def oddPhase (cut : Cut) (schedule : Schedule) (idx : Nat) (s : Sections β) : Option (Sections β) := do
  let odd_phase_cnt := (cut.num_sect - 1) / 2 * 2
  let s ← dispatchApply schedule (2 * idx + 2) odd_phase_cnt (mergeOdd cmp cut) s
  let values ← readTmp s 0 cut.sz
  let s ← writeList s 0 values
  if cut.num_sect % 2 = 0 then do
    let values ← readTmp s (cut.num_sect - 1) cut.last_sect_len
    writeList s ((cut.num_sect - 1) * cut.sz) values
  else some s

/-- `for (idx = 0; idx < (num_sect + 1) / 2; idx++)`, with `n` steps to go. -/
def mergePhases (cut : Cut) (schedule : Schedule) : (n idx : Nat) → (s : Sections β) → Option (Sections β)
  | 0, _, s => some s
  | n + 1, idx, s => do
    let s ← evenPhase cmp cut schedule idx s
    let s ← oddPhase cmp cut schedule idx s
    mergePhases cut schedule n (idx + 1) s

/-- `__CFSortIndexesN`. New memory holds `junk`. -/
def sortIndexesN (schedule : Schedule) (junk : Nat → Nat → β) (listp : List β) (ncores : Nat) : Option (List β) := do
  let cut := cutFor listp.length ncores
  let tmps := (List.range cut.num_sect).map fun idx => reallocate (junk idx) [] cut.sz
  let s ← dispatchApply schedule 0 cut.num_sect (sortSection cmp cut) ⟨listp, tmps⟩
  let s ← mergePhases cmp cut schedule ((cut.num_sect + 1) / 2) 0 s
  return s.listp

end Code

/-! ## The two parts of a merge -/

section Merge

variable {β : Type*} {cmp : β → β → CFComparisonResult} {l r : List β}

theorem mergeSmallest_spec {n idx1 idx2 : Nat} (hn : idx1 + n ≤ l.length) : mergeSmallest cmp l r n idx1 idx2 =
    some ((List.merge (l.drop idx1) (r.drop idx2) (takesFirst cmp)).take n) := by
  induction n generalizing idx1 idx2 with
  | zero => rfl
  | succ n ih =>
    have h1 : idx1 < l.length := by omega
    have hl : l.drop idx1 = l[idx1] :: l.drop (idx1 + 1) := List.drop_eq_getElem_cons h1
    rw [mergeSmallest, List.getElem?_eq_getElem h1, if_neg (show ¬ l.length ≤ idx1 by omega)]
    split
    · rename_i hdone
      have hr : r.drop idx2 = [] := List.drop_eq_nil_of_le hdone
      rw [Option.bind_some, ih (by omega), hl, hr, List.merge_right, List.merge_right]
      rfl
    · rename_i hmore
      have h2 : idx2 < r.length := by omega
      have hr : r.drop idx2 = r[idx2] :: r.drop (idx2 + 1) := List.drop_eq_getElem_cons h2
      rw [List.getElem?_eq_getElem h2, Option.bind_some, Option.bind_some, hl, hr, List.cons_merge_cons, ← hl, ← hr]
      split
      · rename_i hle
        rw [ih (by omega), if_pos (by simpa [takesFirst] using hle)]
        rfl
      · rename_i hgt
        rw [ih (by omega), if_neg (by simpa [takesFirst] using hgt)]
        rfl

theorem valueAt_natCast (l : List β) (i : Nat) : valueAt l i = l[i]? := by
  rw [valueAt, if_pos (Int.natCast_nonneg i), Int.toNat_natCast]

/-- From the end neither list is used up before there are `n` values. -/
theorem mergeLargest_spec {n i j : Nat} (hi : n ≤ i) (hj : n ≤ j) (hil : i ≤ l.length) (hjr : j ≤ r.length)
    (tmp : List β) : mergeLargest cmp l r n (i - 1) (j - 1) tmp =
    some (((List.merge (l.take i).reverse (r.take j).reverse fun a b => !takesFirst cmp a b).take n).reverse ++ tmp) := by
  induction n generalizing i j tmp with
  | zero => rfl
  | succ n ih =>
    obtain ⟨i, rfl⟩ : ∃ i', i = i' + 1 := ⟨i - 1, by omega⟩
    obtain ⟨j, rfl⟩ : ∃ j', j = j' + 1 := ⟨j - 1, by omega⟩
    have hl : (l.take (i + 1)).reverse = l[i] :: (l.take i).reverse := by
      rw [List.take_succ_eq_append_getElem (by omega), List.reverse_concat]
    have hr : (r.take (j + 1)).reverse = r[j] :: (r.take j).reverse := by
      rw [List.take_succ_eq_append_getElem (by omega), List.reverse_concat]
    have hpred (k : Nat) : ((k + 1 : Nat) : Int) - 1 = k := by omega
    rw [mergeLargest, hpred, hpred, if_neg (by omega), if_neg (by omega), valueAt_natCast, valueAt_natCast,
      List.getElem?_eq_getElem (by omega), List.getElem?_eq_getElem (by omega), Option.bind_some, Option.bind_some, hl,
      hr, List.cons_merge_cons, ← hl, ← hr]
    split
    · rename_i hle
      have hrest := ih (i := i + 1) (j := j) (by omega) (by omega) hil (by omega) (r[j] :: tmp)
      rw [hpred] at hrest
      rw [hrest, if_neg (by simpa [takesFirst] using hle), List.take_succ_cons, List.reverse_cons, List.append_assoc]
      rfl
    · rename_i hgt
      have hrest := ih (i := i) (j := j + 1) (by omega) (by omega) (by omega) hjr (l[i] :: tmp)
      rw [hpred] at hrest
      rw [hrest, if_pos (by simpa [takesFirst] using hgt), List.take_succ_cons, List.reverse_cons, List.append_assoc]
      rfl

end Merge

section Order

variable {β : Type*} [LinearOrder β] {cmp : β → β → CFComparisonResult} {l r : List β}

/-- Elements that may stand either way round stand in the order of their
indexes. -/
def TiesKept (cmp : β → β → CFComparisonResult) (a b : β) : Prop := NotAfter cmp a b → NotAfter cmp b a → a < b

theorem Earlier.tiesKept {a b : β} (h : Earlier cmp a b) : TiesKept cmp a b := fun _ hba => h.2 hba

theorem TiesKept.of_takesFirst (h : TotalPreorder cmp) {a b : β} (hab : TiesKept cmp a b) :
    if takesFirst cmp a b then Earlier cmp a b else Earlier cmp b a := by
  split
  · rename_i htakes
    have hle : NotAfter cmp a b := by simpa [takesFirst, NotAfter] using htakes
    exact ⟨hle, hab hle⟩
  · rename_i htakes
    exact Earlier.of_not h (by simpa [takesFirst, NotAfter] using htakes)

theorem Earlier.eq_of_perm {l r : List β} (hl : l.Pairwise (Earlier cmp)) (hr : r.Pairwise (Earlier cmp))
    (hperm : l.Perm r) : l = r :=
  hperm.eq_of_pairwise (fun _ _ _ _ h h' => absurd (h.2 h'.1) (lt_asymm (h'.2 h.1))) hl hr

/-- Each part of a pair of sections is what it has of their merge. -/
theorem sortIndexesNMerge_spec (h : TotalPreorder cmp) (hl : l.Pairwise (Earlier cmp)) (hr : r.Pairwise (Earlier cmp))
    (hties : ∀ x ∈ l, ∀ y ∈ r, TiesKept cmp x y) (hle : r.length ≤ l.length) (hpos : 0 < r.length) (right : Bool) :
    sortIndexesNMerge cmp l r right = some (if right then (List.merge l r (takesFirst cmp)).drop l.length
      else (List.merge l r (takesFirst cmp)).take l.length) := by
  obtain ⟨m, hm⟩ : ∃ m, m = List.merge l r (takesFirst cmp) := ⟨_, rfl⟩
  have hperm : m.Perm (l ++ r) := hm ▸ List.merge_perm_append _
  have hsorted : m.Pairwise (Earlier cmp) := by
    rw [hm]
    exact pairwise_merge_of (R := Earlier cmp) (fun _ _ _ => Earlier.trans h)
      (fun x hx y hy => (hties x hx y hy).of_takesFirst h) hl hr
  have hlast := List.getElem?_eq_getElem (show l.length - 1 < l.length by omega)
  have hfirst := List.getElem?_eq_getElem hpos
  rw [← hm, sortIndexesNMerge]
  simp only [hlast, hfirst, Option.bind_eq_bind, Option.bind_some]
  split
  · rename_i hordered
    have hcross : ∀ x ∈ l, ∀ y ∈ r, Earlier cmp x y := fun x hx y hy => by
      have hxl : NotAfter cmp x l[l.length - 1] := by
        obtain ⟨i, hi, rfl⟩ := List.mem_iff_getElem.mp hx
        rcases Nat.lt_or_ge i (l.length - 1) with hlt | hge
        · exact (List.pairwise_iff_getElem.mp hl i (l.length - 1) hi (by omega) hlt).1
        · simp only [show l.length - 1 = i by omega]
          exact h.refl _
      have hfy : NotAfter cmp r[0] y := by
        obtain ⟨i, hi, rfl⟩ := List.mem_iff_getElem.mp hy
        rcases Nat.eq_zero_or_pos i with rfl | hi'
        · exact h.refl _
        · exact (List.pairwise_iff_getElem.mp hr 0 i hpos hi hi').1
      have hxy : NotAfter cmp x y := h.trans _ _ _ hxl (h.trans _ _ _ hordered.2 hfy)
      exact ⟨hxy, hties x hx y hy hxy⟩
    have hall := Earlier.eq_of_perm hsorted (List.pairwise_append.mpr ⟨hl, hr, hcross⟩) hperm
    rw [hall, List.take_left, List.drop_left]
    rfl
  · cases right with
    | false =>
      have hspec : mergeSmallest cmp l r l.length 0 0 =
          some ((List.merge (l.drop 0) (r.drop 0) (takesFirst cmp)).take l.length) := mergeSmallest_spec (by omega)
      rw [List.drop_zero, List.drop_zero, ← hm] at hspec
      exact hspec
    | true =>
      have hspec : mergeLargest cmp l r r.length (l.length - 1) (r.length - 1) [] =
          some (((List.merge (l.take l.length).reverse (r.take r.length).reverse fun a b =>
            !takesFirst cmp a b).take r.length).reverse ++ []) :=
        mergeLargest_spec hle (Nat.le_refl r.length) le_rfl le_rfl []
      rw [List.take_length, List.take_length, List.append_nil] at hspec
      refine hspec.trans (congrArg some ?_)
      -- the merge from the end is the other one backwards
      obtain ⟨m', hm'⟩ : ∃ m', m' = List.merge l.reverse r.reverse fun a b => !takesFirst cmp a b := ⟨_, rfl⟩
      have hperm' : m'.reverse.Perm (l ++ r) := by
        rw [hm']
        refine (List.reverse_perm _).trans ((List.merge_perm_append _).trans ?_)
        exact (List.reverse_perm l).append (List.reverse_perm r)
      have hsorted' : m'.reverse.Pairwise (Earlier cmp) := by
        rw [List.pairwise_reverse, hm']
        refine pairwise_merge_of (R := fun a b => Earlier cmp b a) (fun _ _ _ hab hbc => hbc.trans h hab) (fun x hx y hy => ?_)
          (List.pairwise_reverse.mpr hl) (List.pairwise_reverse.mpr hr)
        have hxy := (hties x (List.mem_reverse.mp hx) y (List.mem_reverse.mp hy)).of_takesFirst h
        cases htakes : takesFirst cmp x y with
        | true => simpa [htakes] using hxy
        | false => simpa [htakes] using hxy
      have hback := Earlier.eq_of_perm hsorted' hsorted (hperm'.trans hperm.symm)
      have hlen : m'.length - r.length = l.length := by
        rw [← List.length_reverse, hperm'.length_eq, List.length_append, Nat.add_sub_cancel]
      rw [← hm', ← hback, List.reverse_take, hlen]
      rfl

end Order

end CFLite.Sorting
