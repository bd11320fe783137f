import Mathlib.Order.WellFounded

/-!
# Budgets of loops

A loop that is modelled with a budget settles on a result when every budget
that is large enough gives it.

* `Settles.unique`: there is one such result;
* `Settles.bind`, `Settles.succ`: a sequence, and a loop that spends one unit;
* `roundsLoop_settles`: a loop whose rounds keep an invariant and go down a
  well-founded relation.
-/

namespace CFLite.Framework

variable {α β : Type} {f : Nat → Option α} {a : α} {b : β}

/-- With budget enough the result is `a`. -/
def Settles (f : Nat → Option α) (a : α) : Prop := ∃ bound, ∀ fuel, bound ≤ fuel → f fuel = some a

namespace Settles

theorem const (a : α) : Settles (fun _ => some a) a := ⟨0, fun _ _ => rfl⟩

theorem unique {a' : α} (h : Settles f a) (h' : Settles f a') : a = a' := by
  obtain ⟨m, hm⟩ := h
  obtain ⟨n, hn⟩ := h'
  exact Option.some.inj ((hm _ (Nat.le_max_left m n)).symm.trans (hn _ (Nat.le_max_right m n)))

/-- The two parts of a sequence get the same budget. -/
theorem bind {g : α → Nat → Option β} (h : Settles f a) (hg : Settles (g a) b) :
    Settles (fun fuel => (f fuel).bind fun a => g a fuel) b := by
  obtain ⟨m, hm⟩ := h
  obtain ⟨n, hn⟩ := hg
  refine ⟨max m n, fun fuel hfuel => ?_⟩
  dsimp only
  rw [hm fuel (Nat.le_trans (Nat.le_max_left m n) hfuel)]
  exact hn fuel (Nat.le_trans (Nat.le_max_right m n) hfuel)

/-- A unit of the budget is spent first. -/
theorem succ (h : Settles (fun fuel => f (fuel + 1)) a) : Settles f a := by
  obtain ⟨m, hm⟩ := h
  refine ⟨m + 1, fun fuel hfuel => ?_⟩
  obtain ⟨n, rfl⟩ := Nat.exists_eq_add_of_le' (Nat.le_of_add_left_le hfuel)
  exact hm n (Nat.le_of_add_le_add_right hfuel)

theorem map (g : α → β) (h : Settles f a) : Settles (fun fuel => (f fuel).map g) (g a) := by
  obtain ⟨m, hm⟩ := h
  exact ⟨m, fun fuel hfuel => congrArg (Option.map g) (hm fuel hfuel)⟩

theorem congr {g : Nat → Option α} (h : Settles f a) (hg : ∀ fuel, g fuel = f fuel) : Settles g a := by
  obtain ⟨m, hm⟩ := h
  exact ⟨m, fun fuel hfuel => (hg fuel).trans (hm fuel hfuel)⟩

end Settles

/-! ## Loops -/

variable {σ : Type}

/-- The loop of a body that ends it with a result or goes on with a state. -/
def roundsLoop (body : σ → β ⊕ σ) : (rounds : Nat) → σ → Option β
  | 0, _ => none
  | rounds + 1, s =>
    match body s with
    | .inl result => some result
    | .inr s => roundsLoop body rounds s

/-- The states that a loop comes to. -/
inductive LoopReached (body : σ → β ⊕ σ) (start : σ) : σ → Prop
  | start : LoopReached body start start
  | next {s s' : σ} : LoopReached body start s → body s = .inr s' → LoopReached body start s'

theorem roundsLoop_end {body : σ → β ⊕ σ} {s : σ} {result : β} (h : body s = .inl result) :
    Settles (fun rounds => roundsLoop body rounds s) result :=
  Settles.succ ((Settles.const result).congr fun rounds => by rw [roundsLoop, h])

theorem roundsLoop_next {body : σ → β ⊕ σ} {s s' : σ} (h : body s = .inr s') {result : β}
    (hnext : Settles (fun rounds => roundsLoop body rounds s') result) :
    Settles (fun rounds => roundsLoop body rounds s) result :=
  Settles.succ (hnext.congr fun rounds => by rw [roundsLoop, h])

theorem roundsLoop_settles {body : σ → β ⊕ σ} {r : σ → σ → Prop} (hwf : WellFounded r) {Inv : σ → Prop}
    {Post : β → Prop} {start : σ} (hstart : Inv start)
    (hend : ∀ s result, LoopReached body start s → Inv s → body s = .inl result → Post result)
    (hnext : ∀ s s', LoopReached body start s → Inv s → body s = .inr s' → Inv s' ∧ r s' s) :
    ∃ result, Post result ∧ Settles (fun rounds => roundsLoop body rounds start) result := by
  suffices h : ∀ s, LoopReached body start s → Inv s →
      ∃ result, Post result ∧ Settles (fun rounds => roundsLoop body rounds s) result from h start .start hstart
  intro s
  induction s using hwf.induction with
  | _ s ih =>
    intro hs hinv
    cases hbody : body s with
    | inl result => exact ⟨result, hend s result hs hinv hbody, roundsLoop_end hbody⟩
    | inr s' =>
      obtain ⟨hinv', hless⟩ := hnext s s' hs hinv hbody
      obtain ⟨result, hpost, hloop⟩ := ih s' hless (hs.next hbody) hinv'
      exact ⟨result, hpost, roundsLoop_next hbody hloop⟩

end CFLite.Framework
