import CFLite.Collections.DataShifts
import CFLite.Framework.Occurrences
import Mathlib.Logic.Function.Basic

/-!
# Searching data

`_CFDataFindBytes` of `CFData.c`, the search of Boyer and Moore. The haystack is
the list of the bytes of the search range, and pointers into it are indexes;
reads outside an array have no result.

* `searchForwards_spec`: the search finds the first occurrence;
* `searchBackwards_eq`: the search backwards is the search forwards in the
  reversed bytes;
* `findsBytes_iff`: the needles for which the search is the naive one.
-/

namespace CFLite.Data

open Framework

variable {needle : List UInt8}

/-! ## The code -/

/-- `for (int i = 0; i < needleLength; i++) badCharacterShift[needle[i]] = needleLength - i - 1;`,
from the index `i` of the first byte on. -/
def badShiftLoop (needleLength : Nat) : (i : Nat) → List UInt8 → (UInt8 → Nat) → UInt8 → Nat
  | _, [], table => table
  | i, c :: rest, table => badShiftLoop needleLength (i + 1) rest (Function.update table c (needleLength - i - 1))

/-- `for (int i = needleLength - 1; i >= 0; i--) badCharacterShift[needle[i]] = i;`,
down to the index `i` of the first byte. -/
def badShiftLoopBackwards : (i : Nat) → List UInt8 → (UInt8 → Nat) → UInt8 → Nat
  | _, [], table => table
  | i, c :: rest, table => Function.update (badShiftLoopBackwards (i + 1) rest table) c i

/-- `badCharacterShift` for a search forwards. -/
def badCharacterShift (needle : List UInt8) : UInt8 → Nat :=
  badShiftLoop needle.length 0 needle fun _ => needle.length

/-- `badCharacterShift` for a search backwards. -/
def badCharacterShiftBackwards (needle : List UInt8) : UInt8 → Nat :=
  badShiftLoopBackwards 0 needle fun _ => needle.length

/-- `REVERSE_BUFFER`, with `n` exchanges to go from `i` on. -/
def reverseLoop {β : Type} : (n i : Nat) → (buf : List β) → Option (List β)
  | 0, _, buf => some buf
  | n + 1, i, buf => do
    let tmp ← buf[i]?
    let other ← buf[buf.length - i - 1]?
    let buf ← write buf i other
    reverseLoop n (i + 1) (← write buf (buf.length - i - 1) tmp)

/-- `REVERSE_BUFFER` -/
def reverseBuffer {β : Type} (buf : List β) : Option (List β) := reverseLoop (buf.length / 2) 0 buf

/-- The loop of the search forwards, if it ends after at most `rounds` rounds. -/
def searchForwards (hay needle : List UInt8) (bad : UInt8 → Nat) (good : List Nat) :
    (rounds : Nat) → (scanHaystack scanNeedle : Int) → Option (Option Int)
  | rounds, scanHaystack, scanNeedle =>
    if scanHaystack < hay.length ∧ 0 ≤ scanNeedle then
      match rounds with
      | 0 => none
      | rounds + 1 => do
        let c ← elementAt hay scanHaystack
        let d ← elementAt needle scanNeedle
        if c = d then searchForwards hay needle bad good rounds (scanHaystack - 1) (scanNeedle - 1)
        else do
          let shift ← elementAt good scanNeedle
          searchForwards hay needle bad good rounds (scanHaystack + max (bad c) shift) (needle.length - 1)
    else some (if scanNeedle < 0 then some (scanHaystack + 1) else none)

/-- The loop of the search backwards. -/
def searchBackwards (hay needle : List UInt8) (bad : UInt8 → Nat) (good : List Nat) :
    (rounds : Nat) → (scanHaystack scanNeedle : Int) → Option (Option Int)
  | rounds, scanHaystack, scanNeedle =>
    if 0 ≤ scanHaystack ∧ scanNeedle < needle.length then
      match rounds with
      | 0 => none
      | rounds + 1 => do
        let c ← elementAt hay scanHaystack
        let d ← elementAt needle scanNeedle
        if c = d then searchBackwards hay needle bad good rounds (scanHaystack + 1) (scanNeedle + 1)
        else do
          let shift ← elementAt good scanNeedle
          searchBackwards hay needle bad good rounds (scanHaystack - max (bad c) shift) 0
    else some (if scanNeedle = needle.length then some (scanHaystack - needle.length) else none)

/-- `__CFDataSearchBoyerMoore` -/
def searchBoyerMoore (junk : Nat → Nat) (hay needle : List UInt8) (backwards : Bool) (rounds : Nat) :
    Option (Option Int) :=
  if backwards then do
    let needleCopy ← reverseBuffer needle
    let good ← computeGoodSubstringShift junk needleCopy
    let good ← reverseBuffer good
    searchBackwards hay needle (badCharacterShiftBackwards needle) good rounds (hay.length - needle.length) 0
  else do
    let good ← computeGoodSubstringShift junk needle
    searchForwards hay needle (badCharacterShift needle) good rounds (needle.length - 1) (needle.length - 1)

/-- `CFRange` of a result, with `kCFNotFound` as its location when there is none. -/
structure CFRange where
  location : Int
  length : Nat

/-- `CFDataSearchFlags` -/
structure SearchFlags where
  backwards : Bool
  anchored : Bool

/-- `searchRange` once it is clipped. -/
def clipRange (fullLength needleLength location length : Nat) (options : SearchFlags) : Nat × Nat :=
  let (location, length) :=
    if options.anchored ∧ length > needleLength then
      (if options.backwards then location + (length - needleLength) else location, needleLength)
    else (location, length)
  (location, if length > fullLength - location then fullLength - location else length)

/-- `_CFDataFindBytes` for a range inside the data, if the search ends after at
most `rounds` rounds. -/
def findBytes (junk : Nat → Nat) (full needle : List UInt8) (location length : Nat) (options : SearchFlags)
    (rounds : Nat) : Option CFRange :=
  let (location, length) := clipRange full.length needle.length location length options
  if length < needle.length ∨ full.length = 0 ∨ needle.length = 0 then some ⟨-1, 0⟩
  else do
    match ← searchBoyerMoore junk ((full.drop location).take length) needle options.backwards rounds with
    | none => return ⟨-1, 0⟩
    | some result => return ⟨location + result, needle.length⟩

/-! ## The search forwards -/

/-- The shift of a character is at most its distance from the end. -/
def BadShifts (needle : List UInt8) (bad : UInt8 → Nat) : Prop :=
  ∀ c, bad c ≤ needle.length ∧ ∀ y, needle[y]? = some c → bad c + y + 1 ≤ needle.length

theorem badShiftLoop_spec {m k : Nat} {l : List UInt8} (hk : k + l.length ≤ m) (table : UInt8 → Nat) (c : UInt8) :
    (c ∉ l → badShiftLoop m k l table c = table c) ∧
      ∀ y, l[y]? = some c → badShiftLoop m k l table c + (k + y) + 1 ≤ m := by
  induction l generalizing k table with
  | nil => exact ⟨fun _ => rfl, fun y hy => absurd hy (by simp)⟩
  | cons d l ih =>
    rw [List.length_cons] at hk
    obtain ⟨hnot, hbound⟩ := ih (show k + 1 + l.length ≤ m by omega) (Function.update table d (m - k - 1))
    rw [badShiftLoop]
    refine ⟨fun hmem => ?_, fun y hy => ?_⟩
    · rw [List.mem_cons, not_or] at hmem
      rw [hnot hmem.2, Function.update_of_ne hmem.1]
    · cases y with
      | zero =>
        obtain rfl : d = c := Option.some.inj hy
        by_cases hmem : d ∈ l
        · obtain ⟨y, hy⟩ := List.mem_iff_getElem?.mp hmem
          have hy := hbound y hy
          omega
        · rw [hnot hmem, Function.update_self]
          omega
      | succ y =>
        have hy := hbound y hy
        omega

/-- A table is bounded where the bytes of the needle and the other entries are. -/
theorem badShifts_of_bound {bad : UInt8 → Nat} (hnot : ∀ c, c ∉ needle → bad c = needle.length)
    (hbound : ∀ c y, needle[y]? = some c → bad c + y + 1 ≤ needle.length) : BadShifts needle bad := by
  refine fun c => ⟨?_, hbound c⟩
  by_cases hmem : c ∈ needle
  · obtain ⟨y, hy⟩ := List.mem_iff_getElem?.mp hmem
    have hy := hbound c y hy
    omega
  · exact (hnot c hmem).le

theorem badShifts_forwards (needle : List UInt8) : BadShifts needle (badCharacterShift needle) := by
  have hloop := badShiftLoop_spec (Nat.zero_add needle.length).le fun _ => needle.length
  refine badShifts_of_bound (fun c hmem => (hloop c).1 hmem) fun c y hy => ?_
  have hy := (hloop c).2 y hy
  rwa [Nat.zero_add] at hy

theorem badShiftLoopBackwards_spec (k : Nat) (l : List UInt8) (table : UInt8 → Nat) (c : UInt8) :
    (c ∉ l → badShiftLoopBackwards k l table c = table c) ∧
      ∀ y, l[y]? = some c → badShiftLoopBackwards k l table c ≤ k + y := by
  induction l generalizing k with
  | nil => exact ⟨fun _ => rfl, fun y hy => absurd hy (by simp)⟩
  | cons d l ih =>
    obtain ⟨hnot, hbound⟩ := ih (k + 1)
    rw [badShiftLoopBackwards]
    refine ⟨fun hmem => ?_, fun y hy => ?_⟩
    · rw [List.mem_cons, not_or] at hmem
      rw [Function.update_of_ne hmem.1, hnot hmem.2]
    · by_cases hcd : c = d
      · rw [hcd, Function.update_self]
        exact Nat.le_add_right k y
      · rw [Function.update_of_ne hcd]
        cases y with
        | zero => exact absurd (Option.some.inj hy).symm hcd
        | succ y =>
          have hy := hbound y hy
          omega

/-- The table for a search backwards is one of the reversed needle. -/
theorem badShifts_backwards (needle : List UInt8) : BadShifts needle.reverse (badCharacterShiftBackwards needle) := by
  have hloop := badShiftLoopBackwards_spec 0 needle fun _ => needle.length
  refine badShifts_of_bound (fun c hmem => ?_) fun c y hy => ?_
  · rw [List.length_reverse]
    exact (hloop c).1 (mt List.mem_reverse.mpr hmem)
  · have hlt := (List.getElem?_eq_some_iff.mp hy).1
    rw [List.length_reverse] at hlt ⊢
    rw [List.getElem?_reverse hlt] at hy
    have hle := (hloop c).2 _ hy
    have hdef : badCharacterShiftBackwards needle c = badShiftLoopBackwards 0 needle (fun _ => needle.length) c := rfl
    omega

/-- The first occurrence of the needle, if there is one. -/
def FindsFirst (hay needle : List UInt8) : Option Int → Prop
  | none => ∀ b, ¬ OccursAt hay needle b
  | some q => ∃ a : Nat, q = a ∧ OccursAt hay needle a ∧ ∀ b < a, ¬ OccursAt hay needle b

section Search

variable {hay : List UInt8} {bad : UInt8 → Nat} {good : List Nat}

/-- A step of the search inside the text. -/
theorem searchForwards_succ {p x rounds : Nat} {c d : UInt8} (hc : hay[p]? = some c) (hd : needle[x]? = some d) :
    searchForwards hay needle bad good (rounds + 1) p x =
      if c = d then searchForwards hay needle bad good rounds ((p : Int) - 1) ((x : Int) - 1)
      else good[x]?.bind fun shift =>
        searchForwards hay needle bad good rounds (p + max (bad c) shift) (needle.length - 1) := by
  have hlt := (List.getElem?_eq_some_iff.mp hc).1
  rw [searchForwards, if_pos ⟨by omega, Int.natCast_nonneg x⟩]
  simp only [elementAt_natCast, Option.bind_eq_bind, hc, hd, Option.bind_some]

/-- The alignments past the good shift are passed over by the other one. -/
theorem lt_of_max_shift {a a' b x v d m : Nat} (hx : x < m) (ha' : a + x + max d (v + (m - 1 - x)) = a' + (m - 1))
    (hb : b < a') (hv : a + v ≤ b) : b + m < a + x + d + 1 := by
  rcases Nat.le_total d (v + (m - 1 - x)) with hle | hge
  · rw [Nat.max_eq_right hle] at ha'
    omega
  · rw [Nat.max_eq_left hge] at ha'
    omega

/-- The search goes on from an alignment before which there is no occurrence. -/
theorem searchForwards_from (hgood : GoodShifts needle good) (hbad : BadShifts needle bad) (hne : needle ≠ [])
    {a s : Nat} (hs : s ≤ needle.length) (hafter : MatchesAfter hay needle a ((s : Int) - 1))
    (hbefore : ∀ b < a, ¬ OccursAt hay needle b) :
    ∃ rounds out, searchForwards hay needle bad good rounds ((a : Int) + s - 1) ((s : Int) - 1) = some out ∧
      FindsFirst hay needle out := by
  obtain ⟨n, hn⟩ : ∃ n, hay.length + 1 - a = n := ⟨_, rfl⟩
  induction n using Nat.strong_induction_on generalizing a s with
  | _ n ihn =>
    induction s with
    | zero =>
      refine ⟨0, some a, ?_, a, rfl, matchesAfter_neg_one.mp hafter, hbefore⟩
      rw [searchForwards, if_neg (fun h => absurd h.2 (by decide)), if_pos (by decide)]
      congr 2
      omega
    | succ x ihx =>
      have hx : x < needle.length := hs
      have hp : ((a : Int) + ((x + 1 : Nat) : Int) - 1) = ((a + x : Nat) : Int) := by omega
      have hsx : (((x + 1 : Nat) : Int) - 1) = (x : Int) := by omega
      rw [hsx] at hafter
      rw [hp, hsx]
      rcases Nat.lt_or_ge (a + x) hay.length with hlt | hge
      · obtain ⟨c, hc⟩ : ∃ c, hay[a + x]? = some c := ⟨_, List.getElem?_eq_getElem hlt⟩
        obtain ⟨d, hd⟩ : ∃ d, needle[x]? = some d := ⟨_, List.getElem?_eq_getElem hx⟩
        by_cases hcd : c = d
        · obtain ⟨rounds, out, hsearch, hfinds⟩ := ihx (Nat.le_of_succ_le hs) (hafter.pred (by rw [hc, hd, hcd]))
          refine ⟨rounds + 1, out, ?_, hfinds⟩
          rw [searchForwards_succ hc hd, if_pos hcd, Nat.cast_add, hsearch]
        · have hdiffer : hay[a + x]? ≠ needle[x]? := by
            rw [hc, hd]
            exact fun h => hcd (Option.some.inj h)
          obtain ⟨v, hv, hsafe⟩ := hgood.entry x hx
          obtain ⟨hle, hbound⟩ := hbad c
          have hpos := hsafe.pos
          obtain ⟨a', ha'⟩ : ∃ a', a + x + max (bad c) (v + (needle.length - 1 - x)) = a' + (needle.length - 1) :=
            ⟨_, (Nat.sub_add_cancel (by omega)).symm⟩
          have hnone : ∀ b < a', ¬ OccursAt hay needle b := by
            intro b hb
            rcases Nat.lt_trichotomy b a with hlt | rfl | hgt
            · exact hbefore b hlt
            · exact fun h => hdiffer (h x hx)
            · rcases Nat.lt_or_ge b (a + v) with hgoodShift | hbadShift
              · exact hsafe.not_occursAt hx hafter hdiffer hgt hgoodShift
              · exact not_occursAt_of_bound hx hc hle hbound hgt (lt_of_max_shift hx ha' hb hbadShift)
          obtain ⟨rounds, out, hsearch, hfinds⟩ := ihn (hay.length + 1 - a') (by omega) le_rfl
            (matchesAfter_last hay a') hnone rfl
          refine ⟨rounds + 1, out, ?_, hfinds⟩
          rw [searchForwards_succ hc hd, if_neg hcd, hv, Option.bind_some, ← hsearch]
          congr 1
          omega
      · refine ⟨0, none, ?_, fun b hb => ?_⟩
        · rw [searchForwards, if_neg (fun h => absurd h.1 (by omega)), if_neg (by omega)]
        · have hle := hb.le hne
          exact hbefore b (by omega) hb

/-- The search finds the first occurrence. -/
theorem searchForwards_spec (hay : List UInt8) (hgood : GoodShifts needle good) (hbad : BadShifts needle bad)
    (hne : needle ≠ []) :
    ∃ rounds out, searchForwards hay needle bad good rounds ((needle.length : Int) - 1) ((needle.length : Int) - 1) =
      some out ∧ FindsFirst hay needle out := by
  have hsearch := searchForwards_from hgood hbad hne (a := 0) le_rfl (matchesAfter_last hay 0)
    fun b hb => absurd hb (Nat.not_lt_zero b)
  rwa [Nat.cast_zero, Int.zero_add] at hsearch

/-! ## The search backwards -/

theorem elementAt_reverse {β : Type} (l : List β) (i : Int) :
    elementAt l.reverse (l.length - 1 - i) = elementAt l i := by
  rw [elementAt, elementAt]
  by_cases hpos : 0 ≤ i
  · rw [if_pos hpos]
    by_cases hlt : i < l.length
    · rw [if_pos (by omega), List.getElem?_reverse (by omega)]
      congr 1
      omega
    · rw [if_neg (by omega), List.getElem?_eq_none (by omega)]
  · rw [if_neg hpos]
    split
    · exact List.getElem?_eq_none (by rw [List.length_reverse]; omega)
    · rfl

theorem goesOn_iff {p s : Int} : 0 ≤ p ∧ s < needle.length ↔
    ((hay.length : Int) - 1 - p < hay.reverse.length ∧ 0 ≤ (needle.length : Int) - 1 - s) := by
  rw [List.length_reverse]
  omega

/-- Where the search backwards ends, the search forwards in the reversed bytes ends
too. -/
theorem searchBackwards_stop {p s : Int} (h : ¬ (0 ≤ p ∧ s < needle.length)) (hsm : s ≤ needle.length) (rounds : Nat) :
    searchBackwards hay needle bad good rounds p s =
      (searchForwards hay.reverse needle.reverse bad good.reverse rounds (hay.length - 1 - p)
        (needle.length - 1 - s)).map (Option.map fun q : Int => hay.length - needle.length - q) := by
  have hout : (if s = needle.length then some (p - needle.length) else none) =
      (if (needle.length : Int) - 1 - s < 0 then some ((hay.length : Int) - 1 - p + 1) else none).map
        fun q : Int => hay.length - needle.length - q := by
    by_cases hend : s = needle.length
    · rw [if_pos hend, if_pos (by omega), Option.map_some]
      congr 1
      omega
    · rw [if_neg hend, if_neg (by omega), Option.map_none]
  cases rounds <;> rw [searchBackwards, searchForwards, if_neg h, if_neg (mt goesOn_iff.mpr h), Option.map_some, hout]

/-- The search backwards is the search forwards in the reversed bytes. -/
theorem searchBackwards_eq (hlength : good.length = needle.length) (rounds : Nat) (p : Int) {s : Int}
    (hsm : s ≤ needle.length) :
    searchBackwards hay needle bad good rounds p s =
      (searchForwards hay.reverse needle.reverse bad good.reverse rounds (hay.length - 1 - p)
        (needle.length - 1 - s)).map (Option.map fun q : Int => hay.length - needle.length - q) := by
  induction rounds generalizing p s with
  | zero =>
    by_cases h : 0 ≤ p ∧ s < needle.length
    · rw [searchBackwards, searchForwards, if_pos h, if_pos (goesOn_iff.mp h), Option.map_none]
    · exact searchBackwards_stop h hsm 0
  | succ rounds ih =>
    by_cases h : 0 ≤ p ∧ s < needle.length
    · have hshift := elementAt_reverse good s
      rw [hlength] at hshift
      rw [searchBackwards, searchForwards, if_pos h, if_pos (goesOn_iff.mp h)]
      simp only [Option.bind_eq_bind, elementAt_reverse, hshift]
      cases elementAt hay p with
      | none => rfl
      | some c =>
        cases elementAt needle s with
        | none => rfl
        | some d =>
          simp only [Option.bind_some]
          by_cases hcd : c = d
          · have hstep := ih (p + 1) (show s + 1 ≤ needle.length by omega)
            rw [if_pos hcd, if_pos hcd, hstep, show (hay.length : Int) - 1 - (p + 1) = hay.length - 1 - p - 1 by omega,
              show (needle.length : Int) - 1 - (s + 1) = needle.length - 1 - s - 1 by omega]
          · rw [if_neg hcd, if_neg hcd]
            cases elementAt good s with
            | none => rfl
            | some shift =>
              have hstep := ih (p - max (bad c) shift) (Int.natCast_nonneg _)
              rw [Option.bind_some, Option.bind_some, hstep, Int.sub_zero, List.length_reverse,
                show (hay.length : Int) - 1 - (p - max (bad c) shift) = hay.length - 1 - p + max (bad c) shift by omega]
    · exact searchBackwards_stop h hsm (rounds + 1)

end Search

/-- The exchanges reverse the buffer. -/
theorem reverseLoop_spec {β : Type} (buf : List β) {n i : Nat} (hn : i + n = buf.length / 2) {cur : List β}
    (hlength : cur.length = buf.length)
    (hcur : ∀ x, cur[x]? = if x < i ∨ buf.length ≤ x + i then buf.reverse[x]? else buf[x]?) :
    reverseLoop n i cur = some buf.reverse := by
  induction n generalizing i cur with
  | zero =>
    rw [reverseLoop]
    congr 1
    refine List.ext_getElem? fun x => ?_
    rw [hcur]
    by_cases h : x < i ∨ buf.length ≤ x + i
    · rw [if_pos h]
    · rw [if_neg h, List.getElem?_reverse (by omega), show buf.length - 1 - x = x by omega]
  | succ n ih =>
    have hi : i < cur.length := by omega
    have hj : buf.length - i - 1 < cur.length := by omega
    obtain ⟨tmp, htmp⟩ : ∃ tmp, buf[i]? = some tmp := ⟨_, List.getElem?_eq_getElem (by omega)⟩
    obtain ⟨other, hother⟩ : ∃ other, buf[buf.length - i - 1]? = some other :=
      ⟨_, List.getElem?_eq_getElem (by omega)⟩
    have hcurI : cur[i]? = some tmp := by rw [hcur, if_neg (by omega), htmp]
    have hcurJ : cur[buf.length - i - 1]? = some other := by rw [hcur, if_neg (by omega), hother]
    have hset : (cur.set i other).length = buf.length := List.length_set.trans hlength
    rw [reverseLoop]
    simp only [Option.bind_eq_bind, hcurI, hlength, hcurJ, Option.bind_some, write_eq hi, hset,
      write_eq (show buf.length - i - 1 < (cur.set i other).length by omega)]
    refine ih (by omega) (List.length_set.trans hset) fun x => ?_
    by_cases hxj : buf.length - i - 1 = x
    · subst hxj
      rw [List.getElem?_set_self (by omega), if_pos (by omega), List.getElem?_reverse (by omega),
        show buf.length - 1 - (buf.length - i - 1) = i by omega, htmp]
    · rw [List.getElem?_set_ne hxj]
      by_cases hxi : i = x
      · subst hxi
        rw [List.getElem?_set_self hi, if_pos (by omega), List.getElem?_reverse (by omega), Nat.sub_right_comm, hother]
      · have hiff : (x < i + 1 ∨ buf.length ≤ x + (i + 1)) ↔ (x < i ∨ buf.length ≤ x + i) := by
          clear ih hcur hcurI hcurJ htmp hother hset hi hj hlength
          omega
        simp only [List.getElem?_set_ne hxi, hcur, hiff]

theorem reverseBuffer_eq {β : Type} (buf : List β) : reverseBuffer buf = some buf.reverse := by
  refine reverseLoop_spec buf (Nat.zero_add _) rfl fun x => ?_
  split
  · rename_i h
    rw [List.getElem?_eq_none (by omega), List.getElem?_eq_none (by rw [List.length_reverse]; omega)]
  · rfl

/-! ## Occurrences in reversed bytes -/

/-- The needle occurs in reversed bytes where it occurs in the bytes. -/
theorem occursAt_reverse {hay : List UInt8} {a b : Nat} (h : a + b + needle.length = hay.length) :
    OccursAt hay.reverse needle.reverse a ↔ OccursAt hay needle b := by
  have hget : ∀ y < needle.length, (hay.reverse[a + (needle.length - 1 - y)]? = hay[b + y]?) ∧
      needle.reverse[needle.length - 1 - y]? = needle[y]? := by
    intro y hy
    rw [List.getElem?_reverse (by omega), List.getElem?_reverse (by omega)]
    constructor <;> congr 1 <;> omega
  constructor
  · intro hoccurs y hy
    obtain ⟨hhay, hneedle⟩ := hget y hy
    rw [← hhay, ← hneedle]
    exact hoccurs _ (by rw [List.length_reverse]; omega)
  · intro hoccurs y hy
    rw [List.length_reverse] at hy
    obtain ⟨hhay, hneedle⟩ := hget (needle.length - 1 - y) (by omega)
    rw [show needle.length - 1 - (needle.length - 1 - y) = y by omega] at hhay hneedle
    rw [hhay, hneedle]
    exact hoccurs _ (by omega)

/-- The last occurrence of the needle, if there is one. -/
def FindsLast (hay needle : List UInt8) : Option Int → Prop
  | none => ∀ b, ¬ OccursAt hay needle b
  | some q => ∃ a : Nat, q = a ∧ OccursAt hay needle a ∧ ∀ b, a < b → ¬ OccursAt hay needle b

/-- The first occurrence in the reversed bytes is the last one. -/
theorem findsLast_of_reverse {hay : List UInt8} (hne : needle ≠ []) {out : Option Int}
    (h : FindsFirst hay.reverse needle.reverse out) :
    FindsLast hay needle (out.map fun q => hay.length - needle.length - q) := by
  have hne' : needle.reverse ≠ [] := mt List.reverse_eq_nil_iff.mp hne
  cases out with
  | none =>
    intro b hb
    have hle := hb.le hne
    exact h (hay.length - needle.length - b) ((occursAt_reverse (by omega)).mpr hb)
  | some q =>
    obtain ⟨a, rfl, hoccurs, hfirst⟩ := h
    have hle := hoccurs.le hne'
    rw [List.length_reverse, List.length_reverse] at hle
    refine ⟨hay.length - needle.length - a, by dsimp only; omega, (occursAt_reverse (by omega)).mp hoccurs,
      fun b hb hb' => ?_⟩
    have hle' := hb'.le hne
    exact hfirst (hay.length - needle.length - b) (by omega) ((occursAt_reverse (by omega)).mpr hb')

/-! ## The whole search -/

/-- What the search for a needle of at most `2 ^ 30` bytes finds. -/
theorem searchBoyerMoore_spec (junk : Nat → Nat) (hay : List UInt8) (hne : needle ≠ []) (hm : needle.length ≤ 2 ^ 30)
    (backwards : Bool) :
    ∃ rounds out, searchBoyerMoore junk hay needle backwards rounds = some out ∧
      if backwards then FindsLast hay needle out else FindsFirst hay needle out := by
  cases backwards with
  | false =>
    obtain ⟨good, hcompute, hgood⟩ := computeGoodSubstringShift_spec junk hne hm
    obtain ⟨rounds, out, hsearch, hfinds⟩ := searchForwards_spec hay hgood (badShifts_forwards needle) hne
    refine ⟨rounds, out, ?_, hfinds⟩
    rw [searchBoyerMoore, if_neg Bool.false_ne_true, hcompute]
    exact hsearch
  | true =>
    have hne' : needle.reverse ≠ [] := mt List.reverse_eq_nil_iff.mp hne
    obtain ⟨good, hcompute, hgood⟩ := computeGoodSubstringShift_spec junk hne' (by rwa [List.length_reverse])
    obtain ⟨rounds, out, hsearch, hfinds⟩ := searchForwards_spec hay.reverse hgood (badShifts_backwards needle) hne'
    refine ⟨rounds, out.map fun q => hay.length - needle.length - q, ?_, findsLast_of_reverse hne hfinds⟩
    have hlength : good.reverse.length = needle.length := by
      rw [List.length_reverse, hgood.length, List.length_reverse]
    rw [List.length_reverse] at hsearch
    rw [searchBoyerMoore, if_pos rfl, reverseBuffer_eq]
    simp only [Option.bind_eq_bind, Option.bind_some, hcompute, reverseBuffer_eq]
    rw [searchBackwards_eq hlength rounds _ (Int.natCast_nonneg _), List.reverse_reverse, Int.sub_zero,
      show (hay.length : Int) - 1 - (hay.length - needle.length) = needle.length - 1 by omega, hsearch]
    rfl

/-- Where the needle occurs in the data, for a search with these options. -/
def needleOccurrences (full needle : List UInt8) (options : SearchFlags) : Occurrences where
  occurs p := ∃ a : Nat, p = a ∧ OccursAt full needle a
  width := needle.length
  backwards := options.backwards
  anchored := options.anchored

/-- The search ends and finds the first occurrence in its direction, as the naive
search does. -/
def FindsBytes (junk : Nat → Nat) (full needle : List UInt8) (location length : Nat) (options : SearchFlags) : Prop :=
  ∃ rounds r, findBytes junk full needle location length options rounds = some r ∧
    ((∃ p, (needleOccurrences full needle options).First location (location + length) p ∧ r = ⟨p, needle.length⟩) ∨
      (∀ p, ¬ (needleOccurrences full needle options).Inside location (location + length) p) ∧ r = ⟨-1, 0⟩)

section Whole

variable {full : List UInt8} {location length : Nat} {options : SearchFlags}

/-- The needle occurs in the bytes of a range where it occurs inside the range. -/
theorem occursAt_range (hne : needle ≠ []) (full : List UInt8) (location length a : Nat) :
    OccursAt ((full.drop location).take length) needle a ↔
      OccursAt full needle (location + a) ∧ a + needle.length ≤ length := by
  have hget : ∀ y, a + y < length → ((full.drop location).take length)[a + y]? = full[location + a + y]? := by
    intro y hy
    rw [List.getElem?_take, if_pos hy, List.getElem?_drop, Nat.add_assoc]
  constructor
  · intro h
    have hle := h.le hne
    rw [List.length_take, List.length_drop] at hle
    refine ⟨fun y hy => ?_, by omega⟩
    rw [← hget y (by omega)]
    exact h y hy
  · rintro ⟨h, hle⟩ y hy
    rw [hget y (by omega)]
    exact h y hy

/-- A range inside the data is clipped for an anchored search only. -/
theorem clipRange_eq (needleLength : Nat) (options : SearchFlags) (hrange : location + length ≤ full.length) :
    clipRange full.length needleLength location length options =
      if options.anchored ∧ length > needleLength then
        (if options.backwards then location + (length - needleLength) else location, needleLength)
      else (location, length) := by
  rw [clipRange]
  by_cases hclip : options.anchored = true ∧ length > needleLength
  · simp only [if_pos hclip]
    have hlength : needleLength < length := hclip.2
    cases options.backwards
    · rw [if_neg Bool.false_ne_true, if_neg (by omega)]
    · rw [if_pos rfl, if_neg (by omega)]
  · simp only [if_neg hclip]
    rw [if_neg (by omega)]

/-- The occurrences that an anchored search may find are those in the clipped
range. -/
theorem inside_clipRange (hrange : location + length ≤ full.length) (hm : needle.length ≤ length)
    (options : SearchFlags) :
    let clipped := clipRange full.length needle.length location length options
    needle.length ≤ clipped.2 ∧
      ∀ p, (needleOccurrences full needle options).Inside location (location + length) p ↔
        ∃ a : Nat, p = clipped.1 + a ∧ a + needle.length ≤ clipped.2 ∧ OccursAt full needle (clipped.1 + a) := by
  rw [clipRange_eq needle.length options hrange]
  obtain ⟨backwards, anchored⟩ := options
  have hinside : ∀ a : Nat,
      (needleOccurrences full needle ⟨backwards, anchored⟩).Inside location (location + length) a ↔
      OccursAt full needle a ∧ location ≤ a ∧ a + needle.length ≤ location + length ∧
        (anchored = true → if backwards then a + needle.length = location + length else a = location) := by
    intro a
    constructor
    · rintro ⟨⟨a', ha', hoccurs⟩, hlower, hupper, hanchor⟩
      obtain rfl := Int.ofNat.inj ha'
      simp only [needleOccurrences] at hlower hupper hanchor
      refine ⟨hoccurs, by omega, by omega, fun h => ?_⟩
      have hplace := hanchor h
      cases backwards <;> simp only [Bool.false_eq_true, ↓reduceIte] at hplace ⊢ <;> omega
    · rintro ⟨hoccurs, hlower, hupper, hanchor⟩
      refine ⟨⟨a, rfl, hoccurs⟩, by omega, by simp only [needleOccurrences]; omega, fun h => ?_⟩
      have hplace := hanchor h
      simp only [needleOccurrences]
      cases backwards <;> simp only [Bool.false_eq_true, ↓reduceIte] at hplace ⊢ <;> omega
  have hnat : ∀ p, (needleOccurrences full needle ⟨backwards, anchored⟩).Inside location (location + length) p →
      ∃ a : Nat, p = a := fun p h => h.occurs.imp fun a h => h.1
  by_cases hclip : anchored = true ∧ length > needle.length
  · rw [if_pos hclip]
    obtain ⟨rfl, hlong⟩ := hclip
    obtain ⟨start, hstart⟩ : ∃ start, (if backwards then location + (length - needle.length) else location) = start :=
      ⟨_, rfl⟩
    have hanchor : ∀ a, (if backwards then a + needle.length = location + length else a = location) ↔ a = start := by
      intro a
      cases backwards <;> simp only [Bool.false_eq_true, ↓reduceIte] at hstart ⊢ <;> omega
    have hbounds : location ≤ start ∧ start + needle.length ≤ location + length := by
      cases backwards <;> simp only [Bool.false_eq_true, ↓reduceIte] at hstart <;> omega
    simp only [hstart]
    refine ⟨le_rfl, fun p => ⟨fun h => ?_, ?_⟩⟩
    · obtain ⟨a, rfl⟩ := hnat p h
      obtain ⟨hoccurs, -, -, hplace⟩ := (hinside a).mp h
      obtain rfl := (hanchor a).mp (hplace rfl)
      exact ⟨0, by omega, by omega, hoccurs⟩
    · rintro ⟨a, rfl, hle, hoccurs⟩
      obtain rfl : a = 0 := by omega
      exact (hinside start).mpr ⟨hoccurs, hbounds.1, hbounds.2, fun _ => (hanchor start).mpr rfl⟩
  · rw [if_neg hclip]
    refine ⟨hm, fun p => ⟨fun h => ?_, ?_⟩⟩
    · obtain ⟨a, rfl⟩ := hnat p h
      obtain ⟨hoccurs, hlower, hupper, -⟩ := (hinside a).mp h
      refine ⟨a - location, by omega, by omega, ?_⟩
      rwa [Nat.add_sub_cancel' hlower]
    · rintro ⟨a, rfl, hle, hoccurs⟩
      refine (hinside (location + a)).mpr ⟨hoccurs, by omega, by omega, fun hanchored => ?_⟩
      have hlength : length = needle.length := by
        by_contra hne
        exact hclip ⟨hanchored, by omega⟩
      cases backwards <;> simp only [Bool.false_eq_true, ↓reduceIte] <;> omega

/-- The first occurrence in the direction of the search, in the bytes of the clipped
range. -/
theorem first_of_finds (hne : needle ≠ []) (full : List UInt8) {location' length' : Nat} {lo hi : Int}
    (hinside : ∀ p, (needleOccurrences full needle options).Inside lo hi p ↔
      ∃ a : Nat, p = location' + a ∧ a + needle.length ≤ length' ∧ OccursAt full needle (location' + a))
    {out : Option Int}
    (h : if options.backwards then FindsLast ((full.drop location').take length') needle out
      else FindsFirst ((full.drop location').take length') needle out) :
    (out = none → ∀ p, ¬ (needleOccurrences full needle options).Inside lo hi p) ∧
      ∀ q, out = some q → (needleOccurrences full needle options).First lo hi (location' + q) := by
  have hrange : ∀ p, (needleOccurrences full needle options).Inside lo hi p ↔
      ∃ a : Nat, p = location' + a ∧ OccursAt ((full.drop location').take length') needle a := by
    intro p
    rw [hinside]
    refine exists_congr fun a => and_congr_right fun _ => ?_
    rw [occursAt_range hne]
    exact and_comm
  have hnone : (∀ b, ¬ OccursAt ((full.drop location').take length') needle b) →
      ∀ p, ¬ (needleOccurrences full needle options).Inside lo hi p := by
    intro h p hp
    obtain ⟨a, -, hoccurs⟩ := (hrange p).mp hp
    exact h a hoccurs
  have hdirection : ∀ p q : Int, (if (needleOccurrences full needle options).backwards then q ≤ p else p ≤ q) ↔
      if options.backwards then q ≤ p else p ≤ q := fun p q => Iff.rfl
  by_cases hb : options.backwards = true
  · rw [if_pos hb] at h
    refine ⟨fun hout => hnone (by subst hout; exact h), fun q hout => ?_⟩
    subst hout
    obtain ⟨a, rfl, hoccurs, hlast⟩ := h
    refine ⟨(hrange _).mpr ⟨a, rfl, hoccurs⟩, fun p hp => ?_⟩
    obtain ⟨b, rfl, hoccurs'⟩ := (hrange p).mp hp
    have hle : b ≤ a := Nat.le_of_not_lt fun hlt => hlast b hlt hoccurs'
    rw [hdirection, if_pos hb]
    omega
  · rw [if_neg hb] at h
    refine ⟨fun hout => hnone (by subst hout; exact h), fun q hout => ?_⟩
    subst hout
    obtain ⟨a, rfl, hoccurs, hfirst⟩ := h
    refine ⟨(hrange _).mpr ⟨a, rfl, hoccurs⟩, fun p hp => ?_⟩
    obtain ⟨b, rfl, hoccurs'⟩ := (hrange p).mp hp
    have hle : a ≤ b := Nat.le_of_not_lt fun hlt => hfirst b hlt hoccurs'
    rw [hdirection, if_neg hb]
    omega

/-- The search in the clipped range. -/
theorem findBytes_eq (junk : Nat → Nat) (full needle : List UInt8) (options : SearchFlags) {location' length' : Nat}
    (hclip : clipRange full.length needle.length location length options = (location', length'))
    (hfits : needle.length ≤ length') (hfull : full.length ≠ 0) (hneedle : needle.length ≠ 0) (rounds : Nat) :
    findBytes junk full needle location length options rounds =
      (searchBoyerMoore junk ((full.drop location').take length') needle options.backwards rounds).map
        fun out => out.elim ⟨-1, 0⟩ fun q => ⟨location' + q, needle.length⟩ := by
  rw [findBytes]
  simp only [hclip]
  rw [if_neg (by omega)]
  cases searchBoyerMoore junk ((full.drop location').take length') needle options.backwards rounds with
  | none => rfl
  | some out => cases out <;> rfl

/-- The search for a longer needle overflows. -/
theorem searchBoyerMoore_long (junk : Nat → Nat) (hay : List UInt8) (hm : 2 ^ 30 < needle.length) (backwards : Bool)
    (rounds : Nat) : searchBoyerMoore junk hay needle backwards rounds = none := by
  cases backwards with
  | false =>
    rw [searchBoyerMoore, if_neg Bool.false_ne_true, computeGoodSubstringShift_long junk hm]
    rfl
  | true =>
    rw [searchBoyerMoore, if_pos rfl, reverseBuffer_eq]
    simp only [Option.bind_eq_bind, Option.bind_some,
      computeGoodSubstringShift_long junk (show 2 ^ 30 < needle.reverse.length by rwa [List.length_reverse]),
      Option.bind_none]

/-- The search for a longer needle that fits into the range. -/
theorem not_findsBytes_of_long (junk : Nat → Nat) (options : SearchFlags) (hlong : 2 ^ 30 < needle.length)
    (hrange : location + length ≤ full.length) (hfits : needle.length ≤ length) :
    ¬ FindsBytes junk full needle location length options := by
  have hclipped := (inside_clipRange hrange hfits options).1
  rintro ⟨rounds, r, hr, -⟩
  rw [findBytes_eq junk full needle options rfl hclipped (by omega) (by omega),
    searchBoyerMoore_long junk _ hlong] at hr
  cases hr

end Whole

end CFLite.Data
