import Mathlib.Data.List.Basic

/-!
# Computations that read memory

A run of C code over a block of memory reads bytes, may return its failure
value early, and otherwise produces a value. `Read α` keeps both parts: the
addresses the run dereferenced, in order, and how it ended. A recursive
function of the source that has no bound of its own is given a budget, and
`Stop.fuel` records that the budget, not the code, ended the run.

* `bind_eq_ok`, `bind_eq_error`: how a sequence of two runs ends;
* `Ends x`: the run `x` was not cut off by its budget;
* `Safe P Q x`: every address the run `x` dereferences satisfies `P`, and a
  value it produces satisfies `Q`; `Safe.bind` composes two such runs.
-/

namespace CFLite.Framework

/-- Why a run ended without a value: the code returned its failure value, or
the budget of a recursive function was used up. -/
inductive Stop where
  | fail
  | fuel
  deriving DecidableEq, Repr

/-- A run that reads memory: the addresses it dereferenced, and its result. -/
structure Read (α : Type) where
  touched : List Nat
  result : Except Stop α

namespace Read

variable {α β γ : Type}

/-- The failure value of the code. -/
def fail : Read α := ⟨[], .error .fail⟩

/-- The run is cut off by the budget of the model. -/
def outOfFuel : Read α := ⟨[], .error .fuel⟩

/-- `if (p) return false;` -/
def failIf (p : Prop) [Decidable p] : Read Unit := ⟨[], if p then .error .fail else .ok ()⟩

/-- The second run starts only when the first one produced a value. -/
def andThen (x : Read α) (f : α → Read β) : Read β :=
  match x.result with
  | .ok a => ⟨x.touched ++ (f a).touched, (f a).result⟩
  | .error e => ⟨x.touched, .error e⟩

instance : Monad Read where
  pure a := ⟨[], .ok a⟩
  bind := andThen

theorem pure_def (a : α) : (pure a : Read α) = ⟨[], .ok a⟩ := rfl

theorem bind_def (x : Read α) (f : α → Read β) : x >>= f = x.andThen f := rfl

@[simp] theorem pure_result (a : α) : (pure a : Read α).result = .ok a := rfl
@[simp] theorem pure_touched (a : α) : (pure a : Read α).touched = [] := rfl
@[simp] theorem fail_result : (fail : Read α).result = .error .fail := rfl
@[simp] theorem fail_touched : (fail : Read α).touched = [] := rfl
@[simp] theorem outOfFuel_result : (outOfFuel : Read α).result = .error .fuel := rfl
@[simp] theorem outOfFuel_touched : (outOfFuel : Read α).touched = [] := rfl
@[simp] theorem failIf_touched (p : Prop) [Decidable p] : (failIf p).touched = [] := rfl

theorem failIf_of_not {p : Prop} [Decidable p] (h : ¬p) : failIf p = pure () := by
  simp only [failIf, if_neg h, pure_def]

theorem failIf_of {p : Prop} [Decidable p] (h : p) : failIf p = fail := by
  simp only [failIf, if_pos h, fail]

@[simp] theorem failIf_eq_ok {p : Prop} [Decidable p] {u : Unit} : (failIf p).result = .ok u ↔ ¬p := by
  by_cases h : p <;> simp [failIf, h]

@[simp] theorem failIf_eq_error {p : Prop} [Decidable p] {e : Stop} :
    (failIf p).result = .error e ↔ p ∧ e = .fail := by
  by_cases h : p <;> simp [failIf, h, eq_comm]

theorem bind_of_ok {x : Read α} {a : α} (h : x.result = .ok a) (f : α → Read β) :
    x >>= f = ⟨x.touched ++ (f a).touched, (f a).result⟩ := by
  simp only [bind_def, andThen, h]

theorem bind_of_error {x : Read α} {e : Stop} (h : x.result = .error e) (f : α → Read β) :
    x >>= f = ⟨x.touched, .error e⟩ := by
  simp only [bind_def, andThen, h]

@[simp] theorem pure_bind (a : α) (f : α → Read β) : (pure a : Read α) >>= f = f a := by
  simp [bind_of_ok (pure_result a)]

@[simp] theorem fail_bind (f : α → Read β) : (fail : Read α) >>= f = fail := rfl

@[simp] theorem bind_pure (x : Read α) : (x >>= fun a => pure a) = x := by
  cases x with
  | mk touched result => cases result <;> simp [bind_def, andThen]

theorem bind_eq_ok {x : Read α} {f : α → Read β} {b : β} :
    (x >>= f).result = .ok b ↔ ∃ a, x.result = .ok a ∧ (f a).result = .ok b := by
  cases h : x.result with
  | ok a => simp [bind_of_ok h]
  | error e => simp [bind_of_error h]

theorem bind_eq_error {x : Read α} {f : α → Read β} {e : Stop} :
    (x >>= f).result = .error e ↔
      x.result = .error e ∨ ∃ a, x.result = .ok a ∧ (f a).result = .error e := by
  cases h : x.result with
  | ok a => simp [bind_of_ok h]
  | error e' => simp [bind_of_error h]

/-- Only the result of the first run matters for the result of two. -/
theorem bind_result (x : Read α) (f : α → Read β) :
    (x >>= f).result = x.result.bind fun a => (f a).result := by
  cases h : x.result with
  | ok a => simp [bind_of_ok h, Except.bind]
  | error e => simp [bind_of_error h, Except.bind]

theorem mem_touched_bind {x : Read α} {f : α → Read β} {p : Nat} :
    p ∈ (x >>= f).touched ↔
      p ∈ x.touched ∨ ∃ a, x.result = .ok a ∧ p ∈ (f a).touched := by
  cases h : x.result with
  | ok a => simp [bind_of_ok h]
  | error e => simp [bind_of_error h]

@[simp] theorem map_eq_bind (f : α → β) (x : Read α) : f <$> x = x >>= fun a => pure (f a) := rfl

/-! ## Runs that end -/

/-- The run ends by itself. -/
def Ends (x : Read α) : Prop := x.result ≠ .error .fuel

theorem Ends.pure (a : α) : Ends (Pure.pure a : Read α) := nofun

theorem Ends.fail : Ends (Read.fail : Read α) := nofun

theorem Ends.bind {x : Read α} {f : α → Read β} (hx : Ends x) (hf : ∀ a, Ends (f a)) : Ends (x >>= f) := by
  intro h
  rcases bind_eq_error.mp h with h | ⟨a, -, h⟩
  · exact hx h
  · exact hf a h

theorem Ends.failIf_bind {p : Prop} [Decidable p] {f : Unit → Read β} (hf : Ends (f ())) :
    Ends (Read.failIf p >>= f) :=
  Ends.bind (fun h => by simp at h) fun _ => hf

theorem Ends.ite {p : Prop} [Decidable p] {x y : Read α} (hx : Ends x) (hy : Ends y) : Ends (if p then x else y) := by
  split
  · exact hx
  · exact hy

theorem Ends.map {x : Read α} {f : α → β} (hx : Ends x) : Ends (f <$> x) := Ends.bind hx fun _ => Ends.pure _

/-! ## Safe runs -/

/-- Every address the run dereferences satisfies `P`, and a value it produces
satisfies `Q`. -/
def Safe (P : Nat → Prop) (Q : α → Prop) (x : Read α) : Prop :=
  (∀ p ∈ x.touched, P p) ∧ ∀ a, x.result = .ok a → Q a

variable {P : Nat → Prop} {Q : α → Prop} {R : β → Prop}

theorem Safe.pure {a : α} (h : Q a) : Safe P Q (Pure.pure a : Read α) :=
  ⟨by simp, fun b hb => by cases hb; exact h⟩

theorem Safe.fail : Safe P Q (Read.fail : Read α) := ⟨by simp, fun _ h => by cases h⟩

theorem Safe.outOfFuel : Safe P Q (Read.outOfFuel : Read α) := ⟨by simp, fun _ h => by cases h⟩

theorem Safe.bind {x : Read α} {f : α → Read β} (hx : Safe P Q x) (hf : ∀ a, Q a → Safe P R (f a)) :
    Safe P R (x >>= f) := by
  refine ⟨fun p hp => ?_, fun b hb => ?_⟩
  · rcases mem_touched_bind.mp hp with h | ⟨a, ha, h⟩
    · exact hx.1 p h
    · exact (hf a (hx.2 a ha)).1 p h
  · obtain ⟨a, ha, h⟩ := bind_eq_ok.mp hb
    exact (hf a (hx.2 a ha)).2 b h

/-- After `if (p) return false;` the code may rely on `¬p`. -/
theorem Safe.failIf_bind {p : Prop} [Decidable p] {f : Unit → Read β} (h : ¬p → Safe P R (f ())) :
    Safe P R (Read.failIf p >>= f) := by
  by_cases hp : p
  · rw [failIf_of hp, fail_bind]; exact Safe.fail
  · rw [failIf_of_not hp, pure_bind]; exact h hp

theorem Safe.ite {p : Prop} [Decidable p] {x y : Read α} (hx : Safe P Q x) (hy : Safe P Q y) :
    Safe P Q (if p then x else y) := by
  split
  · exact hx
  · exact hy

theorem Safe.mono {Q' : α → Prop} {x : Read α} (h : Safe P Q x) (hQ : ∀ a, Q a → Q' a) : Safe P Q' x :=
  ⟨h.1, fun a ha => hQ a (h.2 a ha)⟩

end Read

end CFLite.Framework
