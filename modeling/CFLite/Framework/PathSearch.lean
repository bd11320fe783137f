import Mathlib.Data.Set.Insert
import Mathlib.Data.Fintype.Card
import Mathlib.Data.Finset.Insert
import Mathlib.Logic.Relation
import CFLite.Framework.Run

/-!
# Searches along a path

A recursion over a graph that remembers the nodes on the path down to the
current one, and refuses a node that is on it.

* `Clear`: from a node only good nodes are reached, none of them on the path
  and none on a cycle;
* `clear_iff`: the same for the node and then for its children, with the node
  on the path;
* `card_compl_insert_lt`: the measure of such a recursion;
* `Decides`, `Decides.foldlM`: a run with three outcomes, and a loop that goes
  on after a failure without doing anything.
-/

namespace CFLite.Framework

/-! ## Paths -/

section Clear

open Relation

variable {α : Type*} {r : α → α → Prop} {good : α → Prop} {path : Set α} {x y : α}

/-- What is reached from `x` is good, and neither on the path nor on a cycle. -/
def Clear (r : α → α → Prop) (good : α → Prop) (path : Set α) (x : α) : Prop :=
  ∀ y, ReflTransGen r x y → y ∉ path ∧ good y ∧ ¬ TransGen r y y

theorem Clear.not_mem (h : Clear r good path x) : x ∉ path := (h x .refl).1

theorem Clear.good_self (h : Clear r good path x) : good x := (h x .refl).2.1

theorem Clear.child (h : Clear r good path x) (hy : r x y) : Clear r good (insert x path) y := by
  intro z hz
  obtain ⟨hpath, hgood, hcycle⟩ := h z (.head hy hz)
  refine ⟨?_, hgood, hcycle⟩
  rw [Set.mem_insert_iff, not_or]
  refine ⟨?_, hpath⟩
  -- a child that reaches `x` closes a cycle
  rintro rfl
  exact hcycle (.head' hy hz)

theorem clear_of_children (hpath : x ∉ path) (hgood : good x) (h : ∀ y, r x y → Clear r good (insert x path) y) :
    Clear r good path x := by
  intro z hz
  rcases hz.cases_head with rfl | ⟨y, hy, hz⟩
  · refine ⟨hpath, hgood, fun hcycle => ?_⟩
    obtain ⟨y, hy, hback⟩ := TransGen.head'_iff.mp hcycle
    exact (h y hy x hback).1 (Set.mem_insert x path)
  · obtain ⟨hz', hrest⟩ := h y hy z hz
    exact ⟨fun hmem => hz' (Set.mem_insert_of_mem x hmem), hrest⟩

theorem clear_iff :
    Clear r good path x ↔ x ∉ path ∧ good x ∧ ∀ y, r x y → Clear r good (insert x path) y :=
  ⟨fun h => ⟨h.not_mem, h.good_self, fun _ => h.child⟩, fun h => clear_of_children h.1 h.2.1 h.2.2⟩

theorem clear_empty : Clear r good ∅ x ↔ ∀ y, ReflTransGen r x y → good y ∧ ¬ TransGen r y y := by
  simp only [Clear, Set.mem_empty_iff_false, not_false_eq_true, true_and]

end Clear

/-- A longer path leaves fewer nodes. -/
theorem card_compl_insert_lt {α : Type*} [Fintype α] [DecidableEq α] {path : Finset α} {x : α} (hx : x ∉ path) :
    (insert x path)ᶜ.card < pathᶜ.card := by
  have hlt : path.card < (insert x path).card := by
    rw [Finset.card_insert_of_notMem hx]
    exact Nat.lt_succ_self _
  have hle : (insert x path).card ≤ Fintype.card α := Finset.card_le_univ _
  rw [Finset.card_compl, Finset.card_compl]
  omega

/-! ## Runs that decide -/

section Decides

variable {ε σ β : Type} {s : σ} {failed : σ → Prop} {valid fatal : Prop}

/-- The run gives `true` and leaves the state alone if `valid`, stops the
process if `fatal`, and otherwise gives `false` in a state that records the
failure. -/
structure Decides (x : Run ε σ Bool) (s : σ) (failed : σ → Prop) (valid fatal : Prop) : Prop where
  accepts : valid → (x s).result = .ok (true, s)
  halts : fatal → (x s).result = .error .halt
  rejects : ¬ valid → ¬ fatal → ∃ s', (x s).result = .ok (false, s') ∧ failed s'

theorem Decides.congr {x : Run ε σ Bool} {valid' fatal' : Prop} (h : Decides x s failed valid fatal)
    (hvalid : valid ↔ valid') (hfatal : fatal ↔ fatal') : Decides x s failed valid' fatal' :=
  propext hvalid ▸ propext hfatal ▸ h

theorem Decides.of_eq {x y : Run ε σ Bool} (h : Decides y s failed valid fatal) (heq : x s = y s) :
    Decides x s failed valid fatal := by
  refine ⟨?_, ?_, ?_⟩ <;> rw [heq]
  · exact h.accepts
  · exact h.halts
  · exact h.rejects

/-- Once the answer is no, the rest of the loop leaves it. -/
theorem foldlM_false {step : Bool → β → Run ε σ Bool} (hfalse : ∀ b s, (step false b s).result = .ok (false, s))
    (list : List β) (s : σ) : (list.foldlM step false s).result = .ok (false, s) := by
  induction list with
  | nil => rfl
  | cons b list ih =>
    rw [List.foldlM_cons, Run.bind_apply, Outcome.andThen_of_ok (hfalse b s)]
    exact ih

/-- A loop whose answer stays no decides whether all elements are good, and it
stops the process at a fatal element when those before it are good. -/
theorem Decides.foldlM {step : Bool → β → Run ε σ Bool} {good fatal : β → Prop}
    (hfalse : ∀ b s, (step false b s).result = .ok (false, s)) {list : List β}
    (h : ∀ b ∈ list, Decides (step true b) s failed (good b) (fatal b)) :
    Decides (list.foldlM step true) s failed (∀ b ∈ list, good b)
      (∃ before b after, list = before ++ b :: after ∧ (∀ c ∈ before, good c) ∧ fatal b) := by
  induction list with
  | nil =>
    refine ⟨fun _ => rfl, ?_, fun hbad => absurd (by simp) hbad⟩
    rintro ⟨before, b, after, hlist, -⟩
    simp at hlist
  | cons b list ih =>
    have hb := h b List.mem_cons_self
    have hrest := ih fun c hc => h c (List.mem_cons_of_mem b hc)
    simp only [List.foldlM_cons]
    refine ⟨fun hgood => ?_, ?_, fun hbad hnone => ?_⟩
    · rw [Run.bind_apply, Outcome.andThen_of_ok (hb.accepts (hgood b List.mem_cons_self))]
      exact hrest.accepts fun c hc => hgood c (List.mem_cons_of_mem b hc)
    · rintro ⟨before, c, after, hlist, hbefore, hc⟩
      cases before with
      | nil =>
        obtain ⟨rfl, -⟩ := List.cons.inj hlist
        rw [Run.bind_apply, Outcome.andThen_of_error (hb.halts hc)]
      | cons d before =>
        obtain ⟨rfl, rfl⟩ := List.cons.inj hlist
        rw [Run.bind_apply, Outcome.andThen_of_ok (hb.accepts (hbefore _ List.mem_cons_self))]
        exact hrest.halts ⟨before, c, after, rfl, fun e he => hbefore e (List.mem_cons_of_mem _ he), hc⟩
    · by_cases hgood : good b
      · rw [Run.bind_apply, Outcome.andThen_of_ok (hb.accepts hgood)]
        refine hrest.rejects (fun hall => hbad ?_) ?_
        · rintro c (_ | ⟨_, hc⟩)
          · exact hgood
          · exact hall c hc
        · rintro ⟨before, c, after, rfl, hbefore, hc⟩
          refine hnone ⟨b :: before, c, after, rfl, ?_, hc⟩
          rintro d (_ | ⟨_, hd⟩)
          · exact hgood
          · exact hbefore d hd
      · obtain ⟨s', hs', hfailed⟩ := hb.rejects hgood fun hfatal => hnone ⟨[], b, list, rfl, nofun, hfatal⟩
        refine ⟨s', ?_, hfailed⟩
        rw [Run.bind_apply, Outcome.andThen_of_ok hs']
        exact foldlM_false hfalse list s'

end Decides

end CFLite.Framework
