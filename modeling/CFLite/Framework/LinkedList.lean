import Mathlib.Data.List.Nodup
import Mathlib.Logic.Function.Basic

/-!
# Singly linked lists

`next n` is the link of the node `n`. A segment is a list of nodes that are
linked one after another, and a chain is a segment that ends at no node.

* `Segment.append_iff`, `Segment.cons_iff`: a segment cut in two;
* `Segment.congr`: a segment depends on the links of its own nodes only;
* `Chain.insertAfter`, `Chain.removeAfter`, `Chain.append`, `linked_chain`: the
  links that are changed to insert a node, to take one out, to put one chain
  after another, and to put all nodes in order.
-/

namespace CFLite.Framework

variable {Node : Type*} {next next' : Node → Option Node} {p q : Option Node} {l l' : List Node} {n m : Node}

/-- From `p` the links lead through the nodes of the list to `q`. -/
def Segment (next : Node → Option Node) (p : Option Node) : List Node → Option Node → Prop
  | [], q => p = q
  | n :: l, q => p = some n ∧ Segment next (next n) l q

/-- From `p` the links lead through the nodes of the list and end. -/
abbrev Chain (next : Node → Option Node) (p : Option Node) (l : List Node) : Prop := Segment next p l none

@[simp] theorem segment_nil : Segment next p [] q ↔ p = q := Iff.rfl

@[simp] theorem segment_cons : Segment next p (n :: l) q ↔ p = some n ∧ Segment next (next n) l q := Iff.rfl

theorem Segment.append_iff : Segment next p (l ++ l') q ↔ ∃ r, Segment next p l r ∧ Segment next r l' q := by
  induction l generalizing p with
  | nil => simp
  | cons n l ih => simp [ih, and_assoc]

/-- A segment before and after one of its nodes. -/
theorem Segment.cons_iff :
    Segment next p (l ++ n :: l') q ↔ Segment next p l (some n) ∧ Segment next (next n) l' q := by
  rw [Segment.append_iff]
  constructor
  · rintro ⟨r, hl, rfl, hl'⟩
    exact ⟨hl, hl'⟩
  · rintro ⟨hl, hl'⟩
    exact ⟨some n, hl, rfl, hl'⟩

theorem Segment.congr (h : Segment next p l q) (hnext : ∀ n ∈ l, next' n = next n) : Segment next' p l q := by
  induction l generalizing p with
  | nil => exact h
  | cons n l ih =>
    refine ⟨h.1, ?_⟩
    rw [hnext n List.mem_cons_self]
    exact ih h.2 fun m hm => hnext m (List.mem_cons_of_mem n hm)

theorem Chain.head? (h : Chain next p l) : p = l.head? := by
  cases l with
  | nil => exact h
  | cons n l => exact h.1

theorem Chain.unique (h : Chain next p l) (h' : Chain next p l') : l = l' := by
  induction l generalizing p l' with
  | nil =>
    cases l' with
    | nil => rfl
    | cons m l' => exact absurd (h.symm.trans h'.1) (Option.some_ne_none m).symm
  | cons n l ih =>
    cases l' with
    | nil => exact absurd (h'.symm.trans h.1) (Option.some_ne_none n).symm
    | cons m l' =>
      obtain rfl : n = m := Option.some.inj (h.1.symm.trans h'.1)
      rw [ih h.2 h'.2]

/-- The links say what comes after a node, so no node comes twice. -/
theorem Chain.nodup (h : Chain next p l) : l.Nodup := by
  induction l generalizing p with
  | nil => exact List.nodup_nil
  | cons n l ih =>
    refine List.nodup_cons.mpr ⟨fun hn => ?_, ih h.2⟩
    obtain ⟨s, t, rfl⟩ := List.append_of_mem hn
    have hlen := congrArg List.length (Chain.unique h.2 (Segment.cons_iff.mp h.2).2)
    simp only [List.length_append, List.length_cons] at hlen
    omega

theorem Chain.ne_later (h : Chain next p (n :: l)) (hm : m ∈ l) : p ≠ some m := by
  rw [h.1]
  intro he
  exact (List.nodup_cons.mp (Chain.nodup h)).1 (Option.some.inj he ▸ hm)

theorem Chain.ne_middle (h : Chain next p (l ++ n :: l')) (hl : l ≠ []) : p ≠ some n := by
  obtain ⟨m, l, rfl⟩ := List.exists_cons_of_ne_nil hl
  exact Chain.ne_later h (List.mem_append_right l List.mem_cons_self)

theorem getLast?_append_cons (hl : l' ≠ []) : (l ++ n :: l').getLast? = l'.getLast? := by
  rw [List.getLast?_append_of_ne_nil _ (List.cons_ne_nil _ _), List.getLast?_cons_of_ne_nil hl]

/-- A node is the last one when none comes after it. -/
theorem Chain.last_iff (h : Chain next p (l ++ n :: l')) : (l ++ n :: l').getLast? = some n ↔ l' = [] := by
  constructor
  · intro hlast
    by_contra hl'
    rw [getLast?_append_cons hl'] at hlast
    exact (List.nodup_cons.mp h.nodup.of_append_right).1 (List.mem_of_getLast? hlast)
  · rintro rfl
    exact List.getLast?_concat ..

section Update

variable [DecidableEq Node]

/-- The last node after `n` was taken out. -/
theorem Chain.getLast?_remove (h : Chain next p (l ++ n :: l')) :
    (if some n = (l ++ n :: l').getLast? then l.getLast? else (l ++ n :: l').getLast?) = (l ++ l').getLast? := by
  rcases eq_or_ne l' [] with rfl | hl'
  · rw [if_pos (h.last_iff.mpr rfl).symm, List.append_nil]
  · rw [if_neg fun he => hl' (h.last_iff.mp he.symm), getLast?_append_cons hl', List.getLast?_append_of_ne_nil _ hl']

theorem Segment.update (h : Segment next p l q) (hn : n ∉ l) (r : Option Node) :
    Segment (Function.update next n r) p l q :=
  h.congr fun _ hm => Function.update_of_ne (ne_of_mem_of_not_mem hm hn) _ _

/-- `m` is linked in after `n`. -/
theorem Chain.insertAfter (h : Chain next p (l ++ n :: l')) (hm : m ∉ l ++ n :: l') :
    Chain (Function.update (Function.update next m (next n)) n (some m)) p (l ++ n :: m :: l') := by
  obtain ⟨hl, hl'⟩ := Segment.cons_iff.mp h
  have hnl : n ∉ l := fun hn => List.disjoint_of_nodup_append h.nodup hn List.mem_cons_self
  have hnl' : n ∉ l' := (List.nodup_cons.mp h.nodup.of_append_right).1
  have hmn : m ≠ n := fun he => hm (he ▸ List.mem_append_right l List.mem_cons_self)
  have hml : m ∉ l := fun h => hm (List.mem_append_left _ h)
  have hml' : m ∉ l' := fun h => hm (List.mem_append_right l (List.mem_cons_of_mem n h))
  refine Segment.cons_iff.mpr ⟨(hl.update hml _).update hnl _, ?_⟩
  rw [Function.update_self]
  refine ⟨rfl, ?_⟩
  rw [Function.update_of_ne hmn, Function.update_self]
  exact (hl'.update hml' _).update hnl' _

/-- `m` is taken out from after `n`. -/
theorem Chain.removeAfter (h : Chain next p (l ++ n :: m :: l')) :
    Chain (Function.update next n (next m)) p (l ++ n :: l') := by
  obtain ⟨hl, -, hl'⟩ := Segment.cons_iff.mp h
  have hnl : n ∉ l := fun hn => List.disjoint_of_nodup_append h.nodup hn List.mem_cons_self
  have hnl' : n ∉ l' := fun hn => (List.nodup_cons.mp h.nodup.of_append_right).1 (List.mem_cons_of_mem m hn)
  refine Segment.cons_iff.mpr ⟨hl.update hnl _, ?_⟩
  rw [Function.update_self]
  exact hl'.update hnl' _

/-- The second chain is linked in after the last node of the first one. -/
theorem Chain.append {p' : Option Node} (h : Chain next p (l ++ [n])) (h' : Chain next p' l') (hn : n ∉ l') :
    Chain (Function.update next n p') p (l ++ n :: l') := by
  have hnl : n ∉ l := fun hnl => List.disjoint_of_nodup_append h.nodup hnl List.mem_cons_self
  refine Segment.cons_iff.mpr ⟨(Segment.cons_iff.mp h).1.update hnl _, ?_⟩
  rw [Function.update_self]
  exact Segment.update h' hn _

/-- The links after each node of the list was linked to the one after it, and
the last one to none. -/
def linked (next : Node → Option Node) : List Node → Node → Option Node
  | [] => next
  | n :: l => linked (Function.update next n l.head?) l

theorem linked_of_notMem (hn : n ∉ l) : linked next l n = next n := by
  induction l generalizing next with
  | nil => rfl
  | cons m l ih =>
    rw [linked, ih (List.not_mem_of_not_mem_cons hn), Function.update_of_ne (List.ne_of_not_mem_cons hn)]

theorem linked_chain (hnodup : l.Nodup) : Chain (linked next l) l.head? l := by
  induction l generalizing next with
  | nil => rfl
  | cons n l ih =>
    obtain ⟨hn, hl⟩ := List.nodup_cons.mp hnodup
    refine ⟨rfl, ?_⟩
    rw [linked, linked_of_notMem hn, Function.update_self]
    exact ih hl

end Update

end CFLite.Framework
