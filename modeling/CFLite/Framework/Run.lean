import Mathlib.Data.List.Basic

/-!
# Runs of code with a state

`Run ε σ α` is a piece of code that works on a state of type `σ`, does things
that are recorded as events of type `ε`, and produces a value. Its outcome
keeps the events in order also when the process is stopped. A loop or a
recursion of the source gets a budget, and `Abort.fuel` records that the
budget, not the code, ended the run.

* `Outcome.Spec`: the specification of a run. Some events are guards `G`,
  conditions on the state before a step, and some are actions that are within
  their bounds `B` or not. A run meets its specification when it ends by
  itself, and its actions are all within bounds exactly when its guards all
  hold.
* `Spec.bind`, `Spec.guard_bind`, `Spec.loop`: the rules for a sequence, a
  guard and a loop.
* `Returns`: the run ends in a value and a state, and `Returns.bind`.
-/

namespace CFLite.Framework

/-- Why a run ended without a value: the process was stopped, or the budget of
a loop or a recursion was used up. -/
inductive Abort where
  | halt
  | fuel
  deriving DecidableEq, Repr

/-- What a run did, and how it ended. -/
structure Outcome (ε α : Type) where
  events : List ε
  result : Except Abort α

/-- Code with a state. -/
def Run (ε σ α : Type) := σ → Outcome ε (α × σ)

namespace Outcome

variable {ε α β : Type}

/-- The second part runs only when the first one produced a value. -/
def andThen (x : Outcome ε α) (f : α → Outcome ε β) : Outcome ε β :=
  match x.result with
  | .ok a => ⟨x.events ++ (f a).events, (f a).result⟩
  | .error e => ⟨x.events, .error e⟩

theorem andThen_of_ok {x : Outcome ε α} {a : α} (h : x.result = .ok a) (f : α → Outcome ε β) :
    x.andThen f = ⟨x.events ++ (f a).events, (f a).result⟩ := by
  simp only [andThen, h]

theorem andThen_of_error {x : Outcome ε α} {e : Abort} (h : x.result = .error e) (f : α → Outcome ε β) :
    x.andThen f = ⟨x.events, .error e⟩ := by
  simp only [andThen, h]

theorem andThen_eq_ok {x : Outcome ε α} {f : α → Outcome ε β} {b : β} :
    (x.andThen f).result = .ok b ↔ ∃ a, x.result = .ok a ∧ (f a).result = .ok b := by
  cases h : x.result with
  | ok a => simp [andThen_of_ok h]
  | error e => simp [andThen_of_error h]

theorem andThen_eq_error {x : Outcome ε α} {f : α → Outcome ε β} {e : Abort} :
    (x.andThen f).result = .error e ↔
      x.result = .error e ∨ ∃ a, x.result = .ok a ∧ (f a).result = .error e := by
  cases h : x.result with
  | ok a => simp [andThen_of_ok h]
  | error e' => simp [andThen_of_error h]

end Outcome

namespace Run

variable {ε σ α β : Type}

instance : Monad (Run ε σ) where
  pure a s := ⟨[], .ok (a, s)⟩
  bind x f s := (x s).andThen fun p => f p.1 p.2

/-- The state. -/
def get : Run ε σ σ := fun s => ⟨[], .ok (s, s)⟩

def modify (f : σ → σ) : Run ε σ Unit := fun s => ⟨[], .ok ((), f s)⟩

/-- Something is done. -/
def emit (e : ε) : Run ε σ Unit := fun s => ⟨[e], .ok ((), s)⟩

/-- The process is stopped. -/
def halt : Run ε σ α := fun _ => ⟨[], .error .halt⟩

/-- The budget of the model is used up. -/
def outOfFuel : Run ε σ α := fun _ => ⟨[], .error .fuel⟩

/-- `x` if `c` holds. -/
def when (c : Prop) [Decidable c] (x : Run ε σ Unit) : Run ε σ Unit := if c then x else pure ()

/-- `body` is repeated until it gives the value of the loop. -/
def loop (body : α → Run ε σ (α ⊕ β)) : Nat → α → Run ε σ β
  | 0, _ => outOfFuel
  | n + 1, a => do
    match ← body a with
    | .inl a => loop body n a
    | .inr b => return b

@[simp] theorem pure_apply (a : α) (s : σ) : (pure a : Run ε σ α) s = ⟨[], .ok (a, s)⟩ := rfl

theorem bind_apply (x : Run ε σ α) (f : α → Run ε σ β) (s : σ) :
    (x >>= f) s = (x s).andThen fun p => f p.1 p.2 := rfl

@[simp] theorem pure_bind (a : α) (f : α → Run ε σ β) : (pure a : Run ε σ α) >>= f = f a := by
  funext s
  simp [bind_apply, Outcome.andThen]

@[simp] theorem ite_apply (c : Prop) [Decidable c] (x y : Run ε σ α) (s : σ) :
    (if c then x else y) s = if c then x s else y s := by
  split <;> rfl

@[simp] theorem get_bind (f : σ → Run ε σ β) (s : σ) : ((get : Run ε σ σ) >>= f) s = f s s := by
  simp [bind_apply, Outcome.andThen, get]

@[simp] theorem modify_bind (g : σ → σ) (f : Unit → Run ε σ β) (s : σ) :
    ((modify g : Run ε σ Unit) >>= f) s = f () (g s) := by
  simp [bind_apply, Outcome.andThen, modify]

@[simp] theorem modify_apply (g : σ → σ) (s : σ) : (modify g : Run ε σ Unit) s = ⟨[], .ok ((), g s)⟩ := rfl

@[simp] theorem bind_assoc {γ : Type} (x : Run ε σ α) (f : α → Run ε σ β) (g : β → Run ε σ γ) :
    (x >>= f) >>= g = x >>= fun a => f a >>= g := by
  funext s
  simp only [bind_apply]
  cases h : (x s).result with
  | error e =>
    have hf : ((x s).andThen fun p => f p.1 p.2).result = .error e := by rw [Outcome.andThen_of_error h]
    rw [Outcome.andThen_of_error hf, Outcome.andThen_of_error h, Outcome.andThen_of_error h]
  | ok p =>
    rw [Outcome.andThen_of_ok h, Outcome.andThen_of_ok h]
    cases hf : (f p.1 p.2).result with
    | error e => simp only [Outcome.andThen, hf]
    | ok q => simp only [Outcome.andThen, hf, List.append_assoc]

theorem mem_events_bind {x : Run ε σ α} {f : α → Run ε σ β} {s : σ} {e : ε} (h : e ∈ (x s).events) :
    e ∈ ((x >>= f) s).events := by
  rw [bind_apply]
  cases hx : (x s).result with
  | ok p => simp [Outcome.andThen_of_ok hx, h]
  | error e' => simpa [Outcome.andThen_of_error hx] using h

theorem mem_events_bind_right {x : Run ε σ α} {f : α → Run ε σ β} {s s' : σ} {a : α} {e : ε}
    (hx : (x s).result = .ok (a, s')) (h : e ∈ (f a s').events) : e ∈ ((x >>= f) s).events := by
  rw [bind_apply, Outcome.andThen_of_ok hx]
  exact List.mem_append_right _ h

theorem loop_succ (body : α → Run ε σ (α ⊕ β)) (n : Nat) (a : α) :
    loop body (n + 1) a = body a >>= fun r => match r with
      | .inl a => loop body n a
      | .inr b => pure b := rfl

end Run

/-! ## Specifications -/

namespace Outcome

variable {ε α β : Type}

/-- The run ends by itself, in a value that satisfies `Q` if any. Under the
condition `P`, what it does is within bounds exactly when its guards hold, and
when they do its value satisfies `R`. -/
structure Spec (G B : ε → Prop) (P : Prop) (x : Outcome ε α) (Q R : α → Prop) : Prop where
  ends : x.result ≠ .error .fuel
  events : P → ((∀ e ∈ x.events, G e) ↔ ∀ e ∈ x.events, B e)
  value : ∀ a, x.result = .ok a → Q a
  inside : P → (∀ e ∈ x.events, G e) → ∀ a, x.result = .ok a → R a

variable {G B : ε → Prop} {P P' : Prop} {x : Outcome ε α} {Q Q' R R' : α → Prop}

theorem Spec.pure {a : α} (hQ : Q a) (hR : P → R a) : Spec G B P ⟨[], .ok a⟩ Q R where
  ends := nofun
  events _ := by simp
  value _ h := by cases h; exact hQ
  inside hP _ _ h := by cases h; exact hR hP

theorem Spec.halt : Spec G B P ⟨[], .error .halt⟩ Q R where
  ends := nofun
  events _ := by simp
  value := nofun
  inside _ _ := nofun

theorem Spec.andThen {f : α → Outcome ε β} {Q' R' : β → Prop} (hx : Spec G B P x Q R)
    (hf : ∀ a, Q a → Spec G B (R a) (f a) Q' R') : Spec G B P (x.andThen f) Q' R' := by
  cases h : x.result with
  | error e =>
    rw [andThen_of_error h]
    refine ⟨?_, hx.events, nofun, fun _ _ => nofun⟩
    rintro ⟨⟩
    exact hx.ends h
  | ok a =>
    have hfa := hf a (hx.value a h)
    rw [andThen_of_ok h]
    refine ⟨hfa.ends, fun hP => ?_, hfa.value, fun hP hG => ?_⟩
    · simp only [List.forall_mem_append]
      constructor
      · rintro ⟨h₁, h₂⟩
        exact ⟨(hx.events hP).mp h₁, (hfa.events (hx.inside hP h₁ a h)).mp h₂⟩
      · rintro ⟨h₁, h₂⟩
        have hG := (hx.events hP).mpr h₁
        exact ⟨hG, (hfa.events (hx.inside hP hG a h)).mpr h₂⟩
    · simp only [List.forall_mem_append] at hG
      exact hfa.inside (hx.inside hP hG.1 a h) hG.2

theorem Spec.mono (h : Spec G B P x Q R) (hP : P' → P) (hQ : ∀ a, Q a → Q' a)
    (hR : ∀ a, Q a → P' → R a → R' a) : Spec G B P' x Q' R' where
  ends := h.ends
  events hP' := h.events (hP hP')
  value a ha := hQ a (h.value a ha)
  inside hP' hG a ha := hR a (h.value a ha) hP' (h.inside (hP hP') hG a ha)

end Outcome

namespace Run

open Outcome (Spec)

variable {ε σ α β : Type} {G B : ε → Prop} {P : Prop} {s : σ}

theorem Spec.bind {x : Run ε σ α} {f : α → Run ε σ β} {Q R : α × σ → Prop} {Q' R' : β × σ → Prop}
    (hx : Spec G B P (x s) Q R) (hf : ∀ a s', Q (a, s') → Spec G B (R (a, s')) (f a s') Q' R') :
    Spec G B P ((x >>= f) s) Q' R' :=
  Outcome.Spec.andThen hx fun p => hf p.1 p.2

theorem Spec.emit_bind {e : ε} {f : Unit → Run ε σ β} {Q R : β × σ → Prop} (he : P → (G e ↔ B e))
    (hf : Spec G B (P ∧ G e) (f () s) Q R) : Spec G B P ((emit e >>= f) s) Q R := by
  refine Outcome.Spec.andThen (Q := fun p => p = ((), s)) (R := fun _ => P ∧ G e) ?_ ?_
  · refine ⟨nofun, fun hP => ?_, fun _ h => ?_, fun hP hG _ _ => ⟨hP, hG e (by simp [emit])⟩⟩
    · simpa [emit] using he hP
    · cases h; rfl
  · rintro _ rfl
    exact hf

/-- A guard that is not within bounds by itself: if it does not hold, then
something that the rest does is out of bounds. -/
theorem Spec.guard_bind {e : ε} {f : Unit → Run ε σ β} {Q R : β × σ → Prop} (he : B e)
    (hf : Spec G B (P ∧ G e) (f () s) Q R) (hbad : P → ¬G e → ∃ e' ∈ (f () s).events, ¬B e') :
    Spec G B P ((emit e >>= f) s) Q R := by
  have hrun : (emit e >>= f) s = ⟨e :: (f () s).events, (f () s).result⟩ := rfl
  rw [hrun]
  refine ⟨hf.ends, fun hP => ?_, hf.value, fun hP hG => ?_⟩
  · simp only [List.forall_mem_cons, he, true_and]
    by_cases h : G e
    · simpa only [h, true_and] using hf.events ⟨hP, h⟩
    · obtain ⟨e', hmem, hout⟩ := hbad hP h
      exact ⟨fun hG => absurd hG.1 h, fun hB => absurd (hB e' hmem) hout⟩
  · simp only [List.forall_mem_cons] at hG
    exact hf.inside ⟨hP, hG.1⟩ hG.2

/-- A loop whose steps keep `Inv`, and `InvR` as far as the guards hold, and
decrease a measure. -/
theorem Spec.loop {body : α → Run ε σ (α ⊕ β)} {Inv InvR : α → σ → Prop} (measure : α → σ → Nat)
    {Q R : β × σ → Prop}
    (hbody : ∀ a s, Inv a s → Spec G B (InvR a s) (body a s)
      (fun p => match p.1 with
        | .inl a' => Inv a' p.2 ∧ measure a' p.2 < measure a s
        | .inr b => Q (b, p.2))
      (fun p => match p.1 with
        | .inl a' => InvR a' p.2
        | .inr b => R (b, p.2)))
    {n : Nat} {a : α} {s : σ} (hInv : Inv a s) (hn : measure a s < n) :
    Spec G B (InvR a s) (Run.loop body n a s) Q R := by
  induction n generalizing a s with
  | zero => omega
  | succ n ih =>
    rw [loop_succ]
    refine Spec.bind (hbody a s hInv) ?_
    rintro (a' | b) s' h
    · exact ih h.1 (by have := h.2; omega)
    · exact Outcome.Spec.pure h id

/-! ## Results -/

/-- The run from `s` ends with the value `a` in the state `s'`. -/
def Returns (x : Run ε σ α) (s : σ) (a : α) (s' : σ) : Prop := (x s).result = .ok (a, s')

theorem Returns.bind {x : Run ε σ α} {f : α → Run ε σ β} {s₁ s₂ : σ} {a : α} {b : β}
    (hx : x.Returns s a s₁) (hf : (f a).Returns s₁ b s₂) : (x >>= f).Returns s b s₂ :=
  Outcome.andThen_eq_ok.mpr ⟨(a, s₁), hx, hf⟩

end Run

end CFLite.Framework
