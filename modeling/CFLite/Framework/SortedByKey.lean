import Mathlib.Order.Lattice
import Mathlib.Data.List.InsertIdx
import Mathlib.Data.List.Perm.Basic
import Mathlib.Order.Basic

/-!
# Lists in the order of a key

* `SortedBy`: no element has a greater key than a later one;
* `lt_notAfter_iff`: the elements whose key is not above `k` come first, so
  that their number splits the list;
* `SortedBy.insertIdx`: an element inserted there leaves the list in order.
-/

namespace CFLite.Framework

variable {α κ : Type*} [LinearOrder κ] {key key' : α → κ} {l l' : List α} {a : α} {k : κ} {i : Nat}

/-- No element has a greater key than a later one. -/
def SortedBy (key : α → κ) (l : List α) : Prop := l.Pairwise fun a b => key a ≤ key b

/-- The number of elements whose key is not above `k`. -/
def notAfter (key : α → κ) (l : List α) (k : κ) : Nat := l.countP fun a => decide (key a ≤ k)

theorem SortedBy.sublist (h : SortedBy key l) (hl : l'.Sublist l) : SortedBy key l' := List.Pairwise.sublist hl h

theorem SortedBy.congr (h : SortedBy key l) (hkey : ∀ a ∈ l, key' a = key a) : SortedBy key' l :=
  List.Pairwise.imp_of_mem (fun ha hb hab => by rwa [hkey _ ha, hkey _ hb]) h

theorem notAfter_le_length : notAfter key l k ≤ l.length := List.countP_le_length

theorem notAfter_eq_zero (h : ∀ a ∈ l, k < key a) : notAfter key l k = 0 :=
  List.countP_eq_zero.mpr fun a ha => by simpa using h a ha

theorem notAfter_cons_of_le (h : key a ≤ k) : notAfter key (a :: l) k = notAfter key l k + 1 :=
  List.countP_cons_of_pos (by simpa using h)

/-- Above the first element's key nothing is not above `k`. -/
theorem SortedBy.notAfter_cons_of_lt (hs : SortedBy key (a :: l)) (h : k < key a) : notAfter key (a :: l) k = 0 := by
  refine notAfter_eq_zero fun b hb => ?_
  rcases List.mem_cons.mp hb with rfl | hb
  · exact h
  · exact h.trans_le (List.rel_of_pairwise_cons hs hb)

/-- The elements whose key is not above `k` come first. -/
theorem SortedBy.lt_notAfter_iff (hs : SortedBy key l) (hi : l[i]? = some a) : i < notAfter key l k ↔ key a ≤ k := by
  induction l generalizing i with
  | nil => simp at hi
  | cons b l ih =>
    rcases lt_or_ge k (key b) with hb | hb
    · have ha : a = b ∨ a ∈ l := List.mem_cons.mp (List.mem_of_getElem? hi)
      have hk : k < key a := by
        rcases ha with rfl | ha
        · exact hb
        · exact hb.trans_le (List.rel_of_pairwise_cons hs ha)
      rw [hs.notAfter_cons_of_lt hb]
      simpa using hk
    · rw [notAfter_cons_of_le hb]
      cases i with
      | zero =>
        obtain rfl : b = a := by simpa using hi
        simpa using hb
      | succ i => simpa using ih hs.of_cons (by simpa using hi)

theorem SortedBy.insertIdx (hs : SortedBy key l) : SortedBy key (l.insertIdx (notAfter key l (key a)) a) := by
  induction l with
  | nil => simp [notAfter, SortedBy]
  | cons b l ih =>
    rcases lt_or_ge (key a) (key b) with hb | hb
    · rw [hs.notAfter_cons_of_lt hb, List.insertIdx_zero]
      refine List.Pairwise.cons (fun c hc => ?_) hs
      rcases List.mem_cons.mp hc with rfl | hc
      · exact hb.le
      · exact hb.le.trans (List.rel_of_pairwise_cons hs hc)
    · rw [notAfter_cons_of_le hb, List.insertIdx_succ_cons]
      refine List.Pairwise.cons (fun c hc => ?_) (ih hs.of_cons)
      rcases (List.mem_insertIdx notAfter_le_length).mp hc with rfl | hc
      · exact hb
      · exact List.rel_of_pairwise_cons hs hc

theorem SortedBy.le_of_mem_take (hs : SortedBy key l) (ha : a ∈ l.take (notAfter key l k)) : key a ≤ k := by
  obtain ⟨i, hi, rfl⟩ := List.mem_take_iff_getElem.mp ha
  exact (hs.lt_notAfter_iff (List.getElem?_eq_getElem _)).mp (Nat.lt_min.mp hi).1

theorem SortedBy.lt_of_mem_drop (hs : SortedBy key l) (ha : a ∈ l.drop (notAfter key l k)) : k < key a := by
  obtain ⟨i, hi, rfl⟩ := List.mem_drop_iff_getElem.mp ha
  refine lt_of_not_ge fun hle => ?_
  have hlt := (hs.lt_notAfter_iff (List.getElem?_eq_getElem _)).mpr hle
  omega

/-- The first element that satisfies `p` has the least key of all that do. -/
theorem SortedBy.find?_le (hs : SortedBy key l) {p : α → Bool} (hfind : l.find? p = some a) :
    ∀ b ∈ l, p b = true → key a ≤ key b := by
  obtain ⟨_, before, rest, rfl, hbefore⟩ := List.find?_eq_some_iff_append.mp hfind
  intro b hb hpb
  rcases List.mem_append.mp hb with hb | hb
  · exact absurd hpb (by simpa using hbefore b hb)
  · rcases List.mem_cons.mp hb with rfl | hb
    · exact le_rfl
    · exact List.rel_of_pairwise_cons (List.pairwise_append.mp hs).2.1 hb

end CFLite.Framework
