import CFLite.Framework.Buckets
import CFLite.Framework.Shifts
import Mathlib.Algebra.Order.Ring.Nat

/-!
# The shifts of a needle

`_computeGoodSubstringShift` of `CFData.c`. Reads and writes outside an array have
no result, and neither has a sum of two `int`s that overflows.

* `suffixLoop_spec`: the lengths of the suffixes of the needle;
* `borderLoop_spec`, `substringLoop_spec`: what the two passes bound;
* `computeGoodSubstringShift_spec`: the shifts are safe;
* `computeGoodSubstringShift_long`: an index overflows for a needle of more than
  `2 ^ 30` bytes.
-/

namespace CFLite.Data

open Framework

/-! ## The shift table -/

/-- `INT_MAX` -/
def intMax : Int := 2 ^ 31 - 1

/-- The sum of two `int`s, neither of them less than `-1`. -/
def intAdd (a b : Int) : Option Int := if a + b ≤ intMax then some (a + b) else none

/-- The element at an index or behind a pointer. -/
def elementAt {β : Type} (l : List β) (i : Int) : Option β := if 0 ≤ i then l[i.toNat]? else none

/-- `while (g >= 0 && needle[g] == needle[g + needleLength - 1 - f]) --g;` -/
def extendSuffix (needle : List UInt8) (f g : Int) : Option Int :=
  if _h : 0 ≤ g then do
    let c ← elementAt needle g
    let sum ← intAdd g needle.length
    let d ← elementAt needle (sum - 1 - f)
    if c = d then extendSuffix needle f (g - 1) else some g
  else some g
  termination_by (g + 1).toNat

/-- The loop that computes the lengths of the suffixes, with the indexes below
`n` to go. -/
def suffixLoop (needle : List UInt8) : (n : Nat) → (f g : Int) → (suff : List Nat) → Option (List Nat)
  | 0, _, _, suff => some suff
  | i + 1, f, g, suff => do
    -- the second operand of `&&` is evaluated when the first holds
    let known ←
      if (i : Int) > g then do
        let sum ← intAdd i needle.length
        let length ← elementAt suff (sum - 1 - f)
        pure (if (length : Int) < i - g then some length else none)
      else pure none
    match known with
    | some length => suffixLoop needle i f g (← write suff i length)
    | none => do
      let g ← extendSuffix needle i (if (i : Int) < g then i else g)
      suffixLoop needle i i g (← write suff i ((i : Int) - g).toNat)

/-- `for (; j < d; ++j) if (shift[j] == needleLength) shift[j] = d;` -/
def borderFill (needleLength d j : Nat) (shift : List Nat) : Option (Nat × List Nat) :=
  if j < d then do
    let v ← shift[j]?
    borderFill needleLength d (j + 1) (← if v = needleLength then write shift j d else some shift)
  else some (j, shift)
  termination_by d - j

/-- The first pass, with the indexes below `n` to go. -/
def borderLoop (needleLength : Nat) (suff : List Nat) : (n j : Nat) → (shift : List Nat) → Option (List Nat)
  | 0, _, shift => some shift
  | i + 1, j, shift => do
    let length ← suff[i]?
    let (j, shift) ← if length = i + 1 then borderFill needleLength (needleLength - 1 - i) j shift else some (j, shift)
    borderLoop needleLength suff i j shift

/-- The second pass, over `n` indexes from `i` on. -/
def substringLoop (needleLength : Nat) (suff : List Nat) : (n i : Nat) → (shift : List Nat) → Option (List Nat)
  | 0, _, shift => some shift
  | n + 1, i, shift => do
    let length ← suff[i]?
    substringLoop needleLength suff n (i + 1) (← write shift (needleLength - 1 - length) (needleLength - 1 - i))

/-- The pass that adds the distance to the end, over `n` indexes from `i` on. -/
def distanceLoop (needleLength : Nat) : (n i : Nat) → (shift : List Nat) → Option (List Nat)
  | 0, _, shift => some shift
  | n + 1, i, shift => do
    let v ← shift[i]?
    distanceLoop needleLength n (i + 1) (← write shift i (v + (needleLength - 1 - i)))

/-- `_computeGoodSubstringShift`: the table `shift`. The memory of `suff` holds
`junk` at first. -/
def computeGoodSubstringShift (junk : Nat → Nat) (needle : List UInt8) : Option (List Nat) := do
  let m := needle.length
  let suff ← write (reallocate junk [] m) (m - 1) m
  let suff ← suffixLoop needle (m - 1) (m - 1) (m - 1) suff
  let shift := List.replicate m m
  let shift ← borderLoop m suff m 0 shift
  let shift ← substringLoop m suff (m - 1) 0 shift
  distanceLoop m (m - 1) 0 shift

/-! ## The lengths of the suffixes -/

variable {needle : List UInt8}

@[simp] theorem elementAt_natCast {β : Type} (l : List β) (i : Nat) : elementAt l (i : Int) = l[i]? := by
  rw [elementAt, if_pos (Int.natCast_nonneg i), Int.toNat_natCast]

theorem intAdd_eq {a b : Int} (h : a + b ≤ intMax) : intAdd a b = some (a + b) := if_pos h

/-- The index in the needle that is compared with `x` when `f` is compared with
its end. -/
def mirrored (needle : List UInt8) (f x : Nat) : Nat := x + (needle.length - 1 - f)

theorem mirrored_eq {f x : Nat} (hf : f < needle.length) :
    (x + needle.length - 1 - f : Int) = (mirrored needle f x : Nat) := by
  rw [mirrored]
  omega

/-- The loop goes back while the characters are the end of the needle. -/
theorem extendSuffix_spec (hm : needle.length ≤ 2 ^ 30) {f : Nat} (hf : f < needle.length) {n : Nat} (hn : n ≤ f + 1) :
    ∃ k ≤ n, extendSuffix needle f ((n : Int) - 1) = some ((k : Int) - 1) ∧
      (∀ x, k ≤ x → x < n → needle[x]? = needle[mirrored needle f x]?) ∧
      ∀ x, k = x + 1 → needle[x]? ≠ needle[mirrored needle f x]? := by
  induction n with
  | zero =>
    refine ⟨0, le_rfl, ?_, fun x _ hx => absurd hx (Nat.not_lt_zero x), fun x hx => absurd hx.symm (Nat.succ_ne_zero x)⟩
    rw [extendSuffix, dif_neg (by omega)]
  | succ n ih =>
    have hindex : (((n + 1 : Nat) : Int) - 1) = (n : Int) := by omega
    have hroom : (n : Int) + needle.length ≤ intMax := by
      rw [intMax]
      omega
    have hlt : mirrored needle f n < needle.length := by
      rw [mirrored]
      omega
    rw [hindex, extendSuffix, dif_pos (Int.natCast_nonneg n), elementAt_natCast, intAdd_eq hroom]
    simp only [Option.bind_eq_bind, Option.bind_some, mirrored_eq hf, elementAt_natCast]
    obtain ⟨c, hc⟩ : ∃ c, needle[n]? = some c := ⟨_, List.getElem?_eq_getElem (show n < needle.length by omega)⟩
    obtain ⟨d, hd⟩ : ∃ d, needle[mirrored needle f n]? = some d := ⟨_, List.getElem?_eq_getElem hlt⟩
    rw [hc, hd, Option.bind_some, Option.bind_some]
    by_cases hcd : c = d
    · obtain ⟨k, hk, hextend, hsame, hdiffer⟩ := ih (Nat.le_of_succ_le hn)
      refine ⟨k, Nat.le_succ_of_le hk, (if_pos hcd).trans hextend, fun x hkx hx => ?_, hdiffer⟩
      rcases Nat.lt_succ_iff_lt_or_eq.mp hx with hlt | rfl
      · exact hsame x hkx hlt
      · rw [hc, hd, hcd]
    · refine ⟨n + 1, le_rfl, ?_, fun x hkx hx => absurd hx (Nat.not_lt.mpr hkx), fun x hx => ?_⟩
      · rw [if_neg hcd, hindex]
      · obtain rfl := Nat.succ_injective hx
        rw [hc, hd]
        exact fun h => hcd (Option.some.inj h)

/-- The lengths from `n` on are there. -/
structure SuffixesFrom (needle : List UInt8) (n : Nat) (suff : List Nat) : Prop where
  length : suff.length = needle.length
  suffix : ∀ j, n ≤ j → j < needle.length → ∃ k, suff[j]? = some k ∧ SuffixLength needle j k

/-- The characters from `g` up to `f` are the end of the needle. -/
structure Window (needle : List UInt8) (f g : Nat) : Prop where
  lt : f < needle.length
  same : ∀ x, g ≤ x → x ≤ f → needle[x]? = needle[mirrored needle f x]?

theorem SuffixesFrom.write {n k : Nat} {suff : List Nat} (h : SuffixesFrom needle (n + 1) suff) (hn : n < needle.length)
    (hk : SuffixLength needle n k) :
    ∃ suff', write suff n k = some suff' ∧ SuffixesFrom needle n suff' := by
  have hlt : n < suff.length := h.length ▸ hn
  refine ⟨_, write_eq hlt k, List.length_set.trans h.length, fun j hj hjm => ?_⟩
  rcases hj.eq_or_lt with rfl | hj
  · exact ⟨k, List.getElem?_set_self hlt, hk⟩
  · obtain ⟨k', hget, hk'⟩ := h.suffix j hj hjm
    exact ⟨k', (List.getElem?_set_ne hj.ne).trans hget, hk'⟩

/-- A length that ends inside the window is the one at its mirror image. -/
theorem Window.suffixLength {f g i k : Nat} (h : Window needle f g) (hi : i < f)
    (hk : SuffixLength needle (mirrored needle f i) k) (hlt : k + g ≤ i) : SuffixLength needle i k where
  le := by omega
  same t ht := by
    have hsame := hk.same t ht
    rw [h.same (i - t) (by omega) (by omega), ← hsame]
    congr 1
    rw [mirrored, mirrored]
    omega
  differ _ := by
    have hdiffer := hk.differ (by rw [mirrored]; omega)
    rw [h.same (i - k) (by omega) (by omega)]
    rwa [show mirrored needle f (i - k) = mirrored needle f i - k by rw [mirrored, mirrored]; omega]

/-- A length at the mirror image that reaches the start of the window. -/
theorem Window.of_mirrored {f g i k : Nat} (h : Window needle f g) (hi : i < f)
    (hk : SuffixLength needle (mirrored needle f i) k) (hge : i < k + g) : Window needle i g where
  lt := hi.trans h.lt
  same x hx hxi := by
    have hf := h.lt
    have hsame := hk.same (i - x) (by omega)
    have hindex : mirrored needle f x = mirrored needle f i - (i - x) := by
      rw [mirrored, mirrored]
      omega
    rw [h.same x hx (by omega), hindex, hsame]
    congr 1
    rw [mirrored]
    omega

/-- What the comparison leaves is a length. -/
theorem suffixLength_of_extend {i k n : Nat} (hi : i < needle.length) (hn : Window needle i n) (hni : n ≤ i + 1)
    (hk : k ≤ n) (hsame : ∀ x, k ≤ x → x < n → needle[x]? = needle[mirrored needle i x]?)
    (hdiffer : ∀ x, k = x + 1 → needle[x]? ≠ needle[mirrored needle i x]?) :
    Window needle i k ∧ SuffixLength needle i (i + 1 - k) := by
  have hwindow : Window needle i k := by
    refine ⟨hi, fun x hx hxi => ?_⟩
    rcases Nat.lt_or_ge x n with hlt | hge
    · exact hsame x hx hlt
    · exact hn.same x hge hxi
  refine ⟨hwindow, Nat.sub_le _ _, fun t ht => ?_, fun h => ?_⟩
  · rw [hwindow.same (i - t) (by omega) (Nat.sub_le _ _)]
    congr 1
    rw [mirrored]
    omega
  · have hne := hdiffer (k - 1) (by omega)
    rwa [show k - 1 = i - (i + 1 - k) by omega,
      show mirrored needle i (i - (i + 1 - k)) = needle.length - 1 - (i + 1 - k) by rw [mirrored]; omega] at hne

/-- The comparison of a character that is not known from the window. -/
theorem extendSuffix_suffixLength (hm : needle.length ≤ 2 ^ 30) {i n : Nat} (hw : Window needle i n) (hni : n ≤ i + 1) :
    ∃ k : Nat, extendSuffix needle i ((n : Int) - 1) = some ((k : Int) - 1) ∧ k ≤ i + 1 ∧ Window needle i k ∧
      SuffixLength needle i (i + 1 - k) := by
  obtain ⟨k, hk, hextend, hsame, hdiffer⟩ := extendSuffix_spec hm hw.lt hni
  exact ⟨k, hextend, hk.trans hni, suffixLength_of_extend hw.lt hw hni hk hsame hdiffer⟩

/-- The loop computes the lengths of all suffixes. -/
theorem suffixLoop_spec (hm : needle.length ≤ 2 ^ 30) {n f g : Nat} {suff : List Nat} (hn : n < needle.length)
    (hnf : n ≤ f) (hw : Window needle f g) (hgf : g ≤ f → f + 1 < needle.length) (hs : SuffixesFrom needle n suff) :
    ∃ suff', suffixLoop needle n f ((g : Int) - 1) suff = some suff' ∧ SuffixesFrom needle 0 suff' := by
  induction n generalizing f g suff with
  | zero => exact ⟨suff, rfl, hs⟩
  | succ i ih =>
    have hi : i < needle.length := Nat.lt_of_succ_lt hn
    -- the steps after a comparison
    have hcompare : ∀ n, Window needle i n → n ≤ i + 1 →
        ∃ suff', ((extendSuffix needle i ((n : Int) - 1)).bind fun g =>
          (write suff i ((i : Int) - g).toNat).bind fun suff => suffixLoop needle i i g suff) = some suff' ∧
          SuffixesFrom needle 0 suff' := by
      intro n hwn hni
      obtain ⟨k, hextend, hk, hwk, hlength⟩ := extendSuffix_suffixLength hm hwn hni
      obtain ⟨suff₁, hwrite, hs₁⟩ := hs.write hi hlength
      obtain ⟨suff', hloop, hs'⟩ := ih hi le_rfl hwk (fun _ => hn) hs₁
      refine ⟨suff', ?_, hs'⟩
      have hvalue : ((i : Int) - ((k : Int) - 1)).toNat = i + 1 - k := by omega
      rw [hextend, Option.bind_some, hvalue, hwrite, Option.bind_some, hloop]
    rw [suffixLoop]
    simp only [Option.bind_eq_bind, Option.pure_def]
    by_cases hgi : g ≤ i
    · have hroom : (i : Int) + needle.length ≤ intMax := by
        rw [intMax]
        omega
      have hfm := hgf (by omega)
      obtain ⟨k, hget, hk⟩ := hs.suffix (mirrored needle f i) (by rw [mirrored]; omega) (by rw [mirrored]; omega)
      rw [if_pos (show (i : Int) > (g : Int) - 1 by omega), intAdd_eq hroom, Option.bind_some, mirrored_eq hw.lt,
        elementAt_natCast, hget, Option.bind_some, Option.bind_some]
      by_cases hlt : k + g ≤ i
      · rw [if_pos (show (k : Int) < i - ((g : Int) - 1) by omega)]
        obtain ⟨suff₁, hwrite, hs₁⟩ := hs.write hi (hw.suffixLength hnf hk hlt)
        obtain ⟨suff', hloop, hs'⟩ := ih hi (Nat.le_of_succ_le hnf) hw hgf hs₁
        refine ⟨suff', ?_, hs'⟩
        simp only [hwrite, Option.bind_some, hloop]
      · rw [if_neg (show ¬ (k : Int) < i - ((g : Int) - 1) by omega)]
        have hg : (if (i : Int) < (g : Int) - 1 then (i : Int) else (g : Int) - 1) = (g : Int) - 1 := if_neg (by omega)
        simp only [hg]
        exact hcompare g (hw.of_mirrored hnf hk (by omega)) (by omega)
    · rw [if_neg (show ¬ (i : Int) > (g : Int) - 1 by omega), Option.bind_some]
      have hg : (if (i : Int) < (g : Int) - 1 then (i : Int) else (g : Int) - 1) = ((i + 1 : Nat) : Int) - 1 := by
        split <;> omega
      simp only [hg]
      exact hcompare (i + 1) ⟨hi, fun x hx hxi => absurd hxi (by omega)⟩ le_rfl

/-! ## The shifts -/

/-- `v` at `x` passes over none of the borders whose index is at least `n`. -/
def WithinBorders (needle : List UInt8) (n x v : Nat) : Prop :=
  ∀ d, x < d → d < needle.length → n ≤ needle.length - 1 - d →
    SuffixLength needle (needle.length - 1 - d) (needle.length - d) → v ≤ d

/-- The table of the first pass, with the borders below index `n` to go. -/
structure BorderTable (needle : List UInt8) (n j : Nat) (shift : List Nat) : Prop where
  length : shift.length = needle.length
  bound : j + n ≤ needle.length
  filled : ∀ x < j, ∃ v, shift[x]? = some v ∧ 1 ≤ v ∧ v ≤ j ∧ WithinBorders needle n x v
  unfilled : ∀ x, j ≤ x → x < needle.length → shift[x]? = some needle.length ∧ WithinBorders needle n x needle.length

theorem borderFill_spec {m d j : Nat} {shift : List Nat} (hd : d ≤ shift.length) (hj : j ≤ d)
    (hunfilled : ∀ x, j ≤ x → x < d → shift[x]? = some m) :
    ∃ shift', borderFill m d j shift = some (d, shift') ∧ shift'.length = shift.length ∧
      ∀ x, shift'[x]? = if j ≤ x ∧ x < d then some d else shift[x]? := by
  obtain ⟨n, hn⟩ : ∃ n, d - j = n := ⟨_, rfl⟩
  induction n generalizing j shift with
  | zero =>
    obtain rfl : d = j := by omega
    refine ⟨shift, ?_, rfl, fun x => (if_neg fun h => absurd h.1 (Nat.not_le.mpr h.2)).symm⟩
    rw [borderFill, if_neg (Nat.lt_irrefl d)]
  | succ n ih =>
    have hlt : j < d := by omega
    have hjs : j < shift.length := by omega
    have hunfilled' : ∀ x, j + 1 ≤ x → x < d → (shift.set j d)[x]? = some m := by
      intro x hx hxd
      rw [List.getElem?_set_ne (Nat.ne_of_lt hx)]
      exact hunfilled x (Nat.le_of_succ_le hx) hxd
    obtain ⟨shift', hfill, hlength, hget⟩ := ih (by rwa [List.length_set]) hlt hunfilled' (by omega)
    refine ⟨shift', ?_, hlength.trans List.length_set, fun x => ?_⟩
    · rw [borderFill, if_pos hlt, hunfilled j le_rfl hlt]
      simp only [Option.bind_eq_bind, Option.bind_some, ↓reduceIte, write_eq hjs]
      exact hfill
    · rw [hget x]
      rcases Nat.lt_trichotomy x j with hbefore | rfl | hafter
      · rw [if_neg (by omega), if_neg (by omega), List.getElem?_set_ne (by omega)]
      · rw [if_neg (by omega), if_pos ⟨le_rfl, hlt⟩, List.getElem?_set_self hjs]
      · have hiff : (j + 1 ≤ x ∧ x < d) ↔ (j ≤ x ∧ x < d) := by omega
        simp only [hiff, List.getElem?_set_ne (Nat.ne_of_lt hafter)]

/-- A border is taken by every entry that none before it has taken. -/
theorem BorderTable.fill {i j : Nat} {shift shift' : List Nat} (h : BorderTable needle (i + 1) j shift)
    (hlength : shift'.length = shift.length)
    (hget : ∀ x, shift'[x]? = if j ≤ x ∧ x < needle.length - 1 - i then some (needle.length - 1 - i) else shift[x]?) :
    BorderTable needle i (needle.length - 1 - i) shift' := by
  have hbound := h.bound
  refine ⟨hlength.trans h.length, by omega, fun x hx => ?_, fun x hx hxm => ?_⟩
  · rcases Nat.lt_or_ge x j with hlt | hge
    · obtain ⟨v, hv, hpos, hvj, hwithin⟩ := h.filled x hlt
      refine ⟨v, by rw [hget, if_neg (by omega), hv], hpos, by omega, fun d hxd hdm hid hd => ?_⟩
      rcases Nat.lt_or_ge i (needle.length - 1 - d) with hseen | hnew
      · exact hwithin d hxd hdm hseen hd
      · omega
    · refine ⟨_, by rw [hget, if_pos ⟨hge, hx⟩], by omega, le_rfl, fun d hxd hdm hid hd => ?_⟩
      rcases Nat.lt_or_ge i (needle.length - 1 - d) with hseen | hnew
      · have hle := (h.unfilled x hge (by omega)).2 d hxd hdm hseen hd
        omega
      · omega
  · obtain ⟨hv, hwithin⟩ := h.unfilled x (by omega) hxm
    refine ⟨by rw [hget, if_neg (by omega), hv], fun d hxd hdm hid hd => ?_⟩
    exact hwithin d hxd hdm (by omega) hd

/-- An index that is no border changes nothing. -/
theorem BorderTable.skip {i j k : Nat} {shift : List Nat} (h : BorderTable needle (i + 1) j shift)
    (hk : SuffixLength needle i k) (hne : k ≠ i + 1) : BorderTable needle i j shift := by
  have hwithin : ∀ x v, WithinBorders needle (i + 1) x v → WithinBorders needle i x v := by
    intro x v h d hxd hdm hid hd
    rcases hid.eq_or_lt with heq | hlt
    · rw [← heq] at hd
      exact absurd (hk.unique hd) (by omega)
    · exact h d hxd hdm hlt hd
  refine ⟨h.length, by have := h.bound; omega, fun x hx => ?_, fun x hx hxm => ?_⟩
  · obtain ⟨v, hv, hpos, hvj, hv'⟩ := h.filled x hx
    exact ⟨v, hv, hpos, hvj, hwithin x v hv'⟩
  · exact ⟨(h.unfilled x hx hxm).1, hwithin x _ (h.unfilled x hx hxm).2⟩

theorem borderLoop_spec {suff : List Nat} (hs : SuffixesFrom needle 0 suff) {n j : Nat} {shift : List Nat}
    (hn : n ≤ needle.length) (h : BorderTable needle n j shift) :
    ∃ j' shift', borderLoop needle.length suff n j shift = some shift' ∧ BorderTable needle 0 j' shift' := by
  induction n generalizing j shift with
  | zero => exact ⟨j, shift, rfl, h⟩
  | succ i ih =>
    obtain ⟨k, hk, hsuffix⟩ := hs.suffix i (Nat.zero_le i) hn
    rw [borderLoop]
    simp only [Option.bind_eq_bind, hk, Option.bind_some]
    by_cases hborder : k = i + 1
    · have hbound := h.bound
      have hd : needle.length - 1 - i ≤ shift.length := by
        rw [h.length]
        omega
      obtain ⟨shift₁, hfill, hlength, hget⟩ := borderFill_spec hd (show j ≤ needle.length - 1 - i by omega)
        fun x hx hxd => (h.unfilled x hx (by omega)).1
      rw [if_pos hborder, hfill, Option.bind_some]
      exact ih (Nat.le_of_succ_le hn) (h.fill hlength hget)
    · rw [if_neg hborder]
      exact ih (Nat.le_of_succ_le hn) (h.skip hsuffix hborder)

theorem borderTable_start : BorderTable needle needle.length 0 (List.replicate needle.length needle.length) where
  length := List.length_replicate
  bound := (Nat.zero_add _).le
  filled x hx := absurd hx (Nat.not_lt_zero x)
  unfilled x _ hx := by
    refine ⟨List.getElem?_replicate_of_lt hx, fun d hxd hdm hid _ => ?_⟩
    omega

/-- The table of the second pass, after the indexes below `n`. -/
structure SubstringTable (needle : List UInt8) (n : Nat) (shift : List Nat) : Prop where
  length : shift.length = needle.length
  entry : ∀ x < needle.length, ∃ v, shift[x]? = some v ∧ 1 ≤ v ∧ v ≤ needle.length ∧ WithinBorders needle 0 x v ∧
    ∀ i < n, SuffixLength needle i (needle.length - 1 - x) → v ≤ needle.length - 1 - i

theorem BorderTable.substringTable {j : Nat} {shift : List Nat} (h : BorderTable needle 0 j shift) :
    SubstringTable needle 0 shift where
  length := h.length
  entry x hx := by
    rcases Nat.lt_or_ge x j with hlt | hge
    · obtain ⟨v, hv, hpos, hvj, hwithin⟩ := h.filled x hlt
      exact ⟨v, hv, hpos, hvj.trans h.bound, hwithin, fun i hi => absurd hi (Nat.not_lt_zero i)⟩
    · obtain ⟨hv, hwithin⟩ := h.unfilled x hge hx
      exact ⟨_, hv, by omega, le_rfl, hwithin, fun i hi => absurd hi (Nat.not_lt_zero i)⟩

/-- A suffix that is found again sets the entry before it. -/
theorem SubstringTable.succ {n k : Nat} {shift : List Nat} (h : SubstringTable needle n shift)
    (hn : n + 1 < needle.length) (hk : SuffixLength needle n k) :
    ∃ shift', write shift (needle.length - 1 - k) (needle.length - 1 - n) = some shift' ∧
      SubstringTable needle (n + 1) shift' := by
  have hle := hk.le
  have hlt : needle.length - 1 - k < shift.length := by
    rw [h.length]
    omega
  refine ⟨_, write_eq hlt _, List.length_set.trans h.length, fun x hx => ?_⟩
  by_cases hxk : needle.length - 1 - k = x
  · subst hxk
    refine ⟨_, List.getElem?_set_self hlt, by omega, by omega, fun d hxd hdm _ _ => by omega, fun i hi _ => by omega⟩
  · obtain ⟨v, hv, hpos, hvm, hwithin, hsuffix⟩ := h.entry x hx
    refine ⟨v, (List.getElem?_set_ne hxk).trans hv, hpos, hvm, hwithin, fun i hi hsame => ?_⟩
    rcases Nat.lt_succ_iff_lt_or_eq.mp hi with hlt | rfl
    · exact hsuffix i hlt hsame
    · have heq := hk.unique hsame
      omega

theorem substringLoop_spec {suff : List Nat} (hs : SuffixesFrom needle 0 suff) {n i : Nat} {shift : List Nat}
    (hn : i + n + 1 = needle.length) (h : SubstringTable needle i shift) :
    ∃ shift', substringLoop needle.length suff n i shift = some shift' ∧ SubstringTable needle (i + n) shift' := by
  induction n generalizing i shift with
  | zero => exact ⟨shift, rfl, h⟩
  | succ n ih =>
    obtain ⟨k, hk, hsuffix⟩ := hs.suffix i (Nat.zero_le i) (by omega)
    obtain ⟨shift₁, hwrite, h₁⟩ := h.succ (by omega) hsuffix
    obtain ⟨shift', hloop, h'⟩ := ih (by omega) h₁
    refine ⟨shift', ?_, ?_⟩
    · rw [substringLoop]
      simp only [Option.bind_eq_bind, hk, Option.bind_some, hwrite, hloop]
    · rwa [Nat.add_right_comm, Nat.add_assoc] at h'

/-- The two passes give safe shifts. -/
theorem SubstringTable.safeShift {n : Nat} {shift : List Nat} (h : SubstringTable needle n shift)
    (hn : n + 1 = needle.length) {x : Nat} (hx : x < needle.length) :
    ∃ v, shift[x]? = some v ∧ SafeShift needle x v := by
  obtain ⟨v, hv, hpos, hvm, hwithin, hsuffix⟩ := h.entry x hx
  exact ⟨v, hv, safeShift_of_suffixLengths hx hpos hvm (fun i hi => hsuffix i (by omega))
    fun d hxd hdm hd => hwithin d hxd hdm (Nat.zero_le _) hd⟩

/-- The pass adds the distance to the end to the entries. -/
theorem distanceLoop_spec {m n i : Nat} {shift : List Nat} (hn : i + n ≤ shift.length) :
    ∃ shift', distanceLoop m n i shift = some shift' ∧ shift'.length = shift.length ∧
      ∀ x, shift'[x]? = if i ≤ x ∧ x < i + n then shift[x]?.map (· + (m - 1 - x)) else shift[x]? := by
  induction n generalizing i shift with
  | zero => exact ⟨shift, rfl, rfl, fun x => (if_neg (by omega)).symm⟩
  | succ n ih =>
    have hi : i < shift.length := by omega
    obtain ⟨v, hv⟩ : ∃ v, shift[i]? = some v := ⟨_, List.getElem?_eq_getElem hi⟩
    have hroom : i + 1 + n ≤ (shift.set i (v + (m - 1 - i))).length := by
      rw [List.length_set]
      omega
    obtain ⟨shift', hloop, hlength, hget⟩ := ih hroom
    refine ⟨shift', ?_, hlength.trans List.length_set, fun x => ?_⟩
    · rw [distanceLoop]
      simp only [Option.bind_eq_bind, hv, Option.bind_some, write_eq hi, hloop]
    · rw [hget x]
      rcases Nat.lt_trichotomy x i with hbefore | rfl | hafter
      · rw [if_neg (by omega), if_neg (by omega), List.getElem?_set_ne (by omega)]
      · rw [if_neg (by omega), if_pos (by omega), List.getElem?_set_self hi, hv]
        rfl
      · have hiff : (i + 1 ≤ x ∧ x < i + 1 + n) ↔ (i ≤ x ∧ x < i + (n + 1)) := by omega
        simp only [hiff, List.getElem?_set_ne (Nat.ne_of_lt hafter)]

/-- The table for moving the pointer into the text. -/
structure GoodShifts (needle : List UInt8) (good : List Nat) : Prop where
  length : good.length = needle.length
  entry : ∀ x < needle.length, ∃ v, good[x]? = some (v + (needle.length - 1 - x)) ∧ SafeShift needle x v

/-- The shifts of the table are safe. -/
theorem computeGoodSubstringShift_spec (junk : Nat → Nat) (hne : needle ≠ []) (hm : needle.length ≤ 2 ^ 30) :
    ∃ good, computeGoodSubstringShift junk needle = some good ∧ GoodShifts needle good := by
  have hpos := List.length_pos_of_ne_nil hne
  have hlast : needle.length - 1 < (reallocate junk [] needle.length).length := by
    rw [length_reallocate]
    omega
  have hstart : SuffixesFrom needle (needle.length - 1)
      ((reallocate junk [] needle.length).set (needle.length - 1) needle.length) := by
    refine ⟨by rw [List.length_set, length_reallocate], fun j hj hjm => ?_⟩
    obtain rfl : j = needle.length - 1 := by omega
    exact ⟨_, List.getElem?_set_self hlast, suffixLength_last hne⟩
  obtain ⟨suff, hsuff, hs⟩ := suffixLoop_spec (f := needle.length - 1) (g := needle.length) hm (by omega) le_rfl
    ⟨by omega, fun x hx hxf => by omega⟩ (fun h => by omega) hstart
  obtain ⟨j, shift₁, hborder, h₁⟩ := borderLoop_spec hs le_rfl borderTable_start
  obtain ⟨shift₂, hsubstring, h₂⟩ := substringLoop_spec hs (n := needle.length - 1) (by omega) h₁.substringTable
  have hroom : 0 + (needle.length - 1) ≤ shift₂.length := by
    rw [h₂.length]
    omega
  obtain ⟨good, hdistance, hlength, hget⟩ := distanceLoop_spec (m := needle.length) hroom
  refine ⟨good, ?_, hlength.trans h₂.length, fun x hx => ?_⟩
  · rw [computeGoodSubstringShift]
    have hfirst : ((needle.length : Int) - 1) = ((needle.length - 1 : Nat) : Int) := by omega
    simp only [Option.bind_eq_bind, write_eq hlast, Option.bind_some]
    rw [hfirst] at hsuff ⊢
    rw [hsuff, Option.bind_some, hborder, Option.bind_some, hsubstring, Option.bind_some, hdistance]
  · obtain ⟨v, hv, hsafe⟩ := h₂.safeShift (by omega) hx
    refine ⟨v, ?_, hsafe⟩
    rw [hget x, hv]
    split
    · rfl
    · rw [show needle.length - 1 - x = 0 by omega, Nat.add_zero]

/-- The index of a longer needle overflows when its last but one byte is compared. -/
theorem computeGoodSubstringShift_long (junk : Nat → Nat) (hm : 2 ^ 30 < needle.length) :
    computeGoodSubstringShift junk needle = none := by
  obtain ⟨i, hi⟩ : ∃ i, needle.length - 1 = i + 1 := ⟨needle.length - 2, by omega⟩
  obtain ⟨c, hc⟩ : ∃ c, needle[i]? = some c := ⟨_, List.getElem?_eq_getElem (by omega)⟩
  have hwrite : needle.length - 1 < (reallocate junk [] needle.length).length := by
    rw [length_reallocate]
    omega
  have hover : intAdd i needle.length = none := by
    rw [intAdd, if_neg (by rw [intMax]; omega)]
  have hextend : ∀ f, extendSuffix needle f i = none := by
    intro f
    rw [extendSuffix, dif_pos (Int.natCast_nonneg i), elementAt_natCast, hc, hover]
    rfl
  have hfirst : ((needle.length : Int) - 1) = ((i + 1 : Nat) : Int) := by omega
  rw [computeGoodSubstringShift]
  simp only [Option.bind_eq_bind, write_eq hwrite, Option.bind_some]
  rw [hfirst, hi, suffixLoop, if_neg (show ¬ (i : Int) > ((i + 1 : Nat) : Int) by omega)]
  simp only [Option.bind_eq_bind, Option.pure_def, Option.bind_some,
    if_pos (show (i : Int) < ((i + 1 : Nat) : Int) by omega), hextend, Option.bind_none]

end CFLite.Data
