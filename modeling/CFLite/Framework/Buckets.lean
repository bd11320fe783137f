import Mathlib.Data.List.Basic

/-!
# An allocated array

The array behind a pointer to allocated memory, as the list of its elements.
Reading one is `bs[i]?`; a step that touches an element outside the allocation
has no result.

* `write`, `fill`: `bs[i] = v`, and `memset`;
* `readRange`, `writeRange`: the two halves of a `memmove`, at signed offsets;
* `reallocate`: the array after `realloc`, with unspecified new elements.
-/

namespace CFLite.Framework

variable {β : Type*}

/-- `bs[i] = v` -/
def write (bs : List β) (i : Nat) (v : β) : Option (List β) :=
  if i < bs.length then some (bs.set i v) else none

/-- The first `n` elements set to `v`. -/
def fill (bs : List β) (v : β) (n : Nat) : Option (List β) :=
  if n ≤ bs.length then some (List.replicate n v ++ bs.drop n) else none

/-- `bs` reallocated with room for `n` elements. New ones hold `junk`. -/
def reallocate (junk : Nat → β) (bs : List β) (n : Nat) : List β :=
  (List.range n).map fun i => bs.getD i (junk i)

/-- The `n` elements from offset `i` on. -/
def readRange (bs : List β) (i : Int) (n : Nat) : Option (List β) :=
  if 0 ≤ i ∧ i + n ≤ bs.length then some ((bs.drop i.toNat).take n) else none

/-- `vs` stored from offset `i` on. -/
def writeRange (bs : List β) (i : Int) (vs : List β) : Option (List β) :=
  if 0 ≤ i ∧ i + vs.length ≤ bs.length then some (bs.take i.toNat ++ vs ++ bs.drop (i.toNat + vs.length)) else none

theorem write_eq {bs : List β} {i : Nat} (h : i < bs.length) (v : β) : write bs i v = some (bs.set i v) :=
  if_pos h

theorem fill_eq {bs : List β} {n : Nat} (h : n ≤ bs.length) (v : β) :
    fill bs v n = some (List.replicate n v ++ bs.drop n) :=
  if_pos h

@[simp] theorem length_reallocate (junk : Nat → β) (bs : List β) (n : Nat) :
    (reallocate junk bs n).length = n := by
  simp [reallocate]

theorem getElem?_reallocate (junk : Nat → β) (bs : List β) {n i : Nat} (h : i < n) (hi : i < bs.length) :
    (reallocate junk bs n)[i]? = bs[i]? := by
  simp [reallocate, h, hi]

/-! ## Ranges -/

theorem readRange_eq {bs : List β} {i n : Nat} (h : i + n ≤ bs.length) :
    readRange bs i n = some ((bs.drop i).take n) := by
  rw [readRange, if_pos (by omega), Int.toNat_natCast]

theorem readRange_eq_some {bs vs : List β} {i : Int} {n : Nat} (h : readRange bs i n = some vs) :
    0 ≤ i ∧ i + n ≤ bs.length ∧ vs = (bs.drop i.toNat).take n := by
  rw [readRange] at h
  split at h
  · rename_i hin
    exact ⟨hin.1, hin.2, (Option.some.inj h).symm⟩
  · cases h

theorem writeRange_eq {bs vs : List β} {i : Nat} (h : i + vs.length ≤ bs.length) :
    writeRange bs i vs = some (bs.take i ++ vs ++ bs.drop (i + vs.length)) := by
  rw [writeRange, if_pos (by omega), Int.toNat_natCast]

theorem writeRange_eq_some {bs bs' vs : List β} {i : Int} (h : writeRange bs i vs = some bs') :
    0 ≤ i ∧ i + vs.length ≤ bs.length ∧ bs' = bs.take i.toNat ++ vs ++ bs.drop (i.toNat + vs.length) := by
  rw [writeRange] at h
  split at h
  · rename_i hin
    exact ⟨hin.1, hin.2, (Option.some.inj h).symm⟩
  · cases h

/-- What is where after a range was stored. -/
theorem getElem?_written {bs vs : List β} {i : Nat} (h : i + vs.length ≤ bs.length) (k : Nat) :
    (bs.take i ++ vs ++ bs.drop (i + vs.length))[k]? =
      if i ≤ k ∧ k < i + vs.length then vs[k - i]? else bs[k]? := by
  rw [List.append_assoc, List.getElem?_append, List.getElem?_append, List.getElem?_take, List.getElem?_drop,
    List.length_take, Nat.min_eq_left (by omega)]
  grind

theorem length_written {bs vs : List β} {i : Nat} (h : i + vs.length ≤ bs.length) :
    (bs.take i ++ vs ++ bs.drop (i + vs.length)).length = bs.length := by
  simp only [List.length_append, List.length_take, List.length_drop]
  omega

/-- A range that is stored within the array. -/
theorem writeRange_spec {bs vs : List β} {i : Nat} (h : i + vs.length ≤ bs.length) :
    ∃ bs', writeRange bs i vs = some bs' ∧ bs'.length = bs.length ∧
      ∀ k, bs'[k]? = if i ≤ k ∧ k < i + vs.length then vs[k - i]? else bs[k]? :=
  ⟨_, writeRange_eq h, length_written h, getElem?_written h⟩

/-- A range that is read within the array. -/
theorem readRange_spec {bs : List β} {i n : Nat} (h : i + n ≤ bs.length) :
    ∃ vs, readRange bs i n = some vs ∧ vs.length = n ∧ ∀ k < n, vs[k]? = bs[i + k]? := by
  refine ⟨_, readRange_eq h, ?_, fun k hk => ?_⟩
  · rw [List.length_take, List.length_drop]
    omega
  · rw [List.getElem?_take_of_lt hk, List.getElem?_drop]

end CFLite.Framework
