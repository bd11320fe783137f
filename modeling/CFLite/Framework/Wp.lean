import CFLite.Framework.Run

/-!
# Weakest preconditions of runs

`Wp t E x s Q`: run from `s`, `x` does only things that satisfy `E`, and if it
ends with a value then the value and the state satisfy `Q`. With `t` it ends
with a value. So `Wp True` is total correctness and `Wp False` is partial
correctness.

* `wp_bind`, `wp_get`, `wp_modify`, `wp_emit`: the rules for the parts of a
  sequence, as rewrite rules;
* `Wp.mono`, `Wp.and`: consequence, and what was proved of a run separately;
* `Wp.loop`, `Wp.forM`: loops with an invariant.
-/

namespace CFLite.Framework.Run

variable {ε σ α β : Type} {t : Prop} {E : ε → Prop} {s : σ} {Q Q' : α → σ → Prop}

def Wp (t : Prop) (E : ε → Prop) (x : Run ε σ α) (s : σ) (Q : α → σ → Prop) : Prop :=
  (∀ e ∈ (x s).events, E e) ∧
    match (x s).result with
    | .ok (a, s') => Q a s'
    | .error _ => ¬t

@[simp] theorem wp_pure {a : α} : Wp t E (pure a : Run ε σ α) s Q ↔ Q a s := by
  simp [Wp]

@[simp] theorem wp_bind {x : Run ε σ β} {f : β → Run ε σ α} :
    Wp t E (x >>= f) s Q ↔ Wp t E x s fun b s' => Wp t E (f b) s' Q := by
  unfold Wp
  rw [bind_apply]
  cases h : (x s).result with
  | error e => simp only [Outcome.andThen_of_error h]
  | ok p =>
    simp only [Outcome.andThen_of_ok h, List.forall_mem_append]
    exact and_assoc

@[simp] theorem wp_get {Q : σ → σ → Prop} : Wp t E (get : Run ε σ σ) s Q ↔ Q s s := by
  simp [Wp, get]

@[simp] theorem wp_modify {f : σ → σ} {Q : Unit → σ → Prop} :
    Wp t E (modify f : Run ε σ Unit) s Q ↔ Q () (f s) := by
  simp [Wp]

@[simp] theorem wp_emit {e : ε} {Q : Unit → σ → Prop} :
    Wp t E (emit e : Run ε σ Unit) s Q ↔ E e ∧ Q () s := by
  simp [Wp, emit]

@[simp] theorem wp_halt : Wp t E (halt : Run ε σ α) s Q ↔ ¬t := by
  simp [Wp, halt]

@[simp] theorem wp_outOfFuel : Wp t E (outOfFuel : Run ε σ α) s Q ↔ ¬t := by
  simp [Wp, outOfFuel]

@[simp] theorem wp_ite {c : Prop} [Decidable c] {x y : Run ε σ α} :
    Wp t E (if c then x else y) s Q ↔ (c → Wp t E x s Q) ∧ (¬c → Wp t E y s Q) := by
  by_cases h : c <;> simp [h]

@[simp] theorem wp_when {c : Prop} [Decidable c] {x : Run ε σ Unit} {Q : Unit → σ → Prop} :
    Wp t E (when c x) s Q ↔ (c → Wp t E x s Q) ∧ (¬c → Q () s) := by
  simp [when]

theorem Wp.mono {x : Run ε σ α} (h : Wp t E x s Q) (hQ : ∀ a s', Q a s' → Q' a s') : Wp t E x s Q' := by
  refine ⟨h.1, ?_⟩
  have h₂ := h.2
  split at h₂
  · exact hQ _ _ h₂
  · exact h₂

/-- What a run ensures when it ends can be proved separately. -/
theorem Wp.and {x : Run ε σ α} (h : Wp t E x s Q) (h' : Wp False (fun _ => True) x s Q') :
    Wp t E x s fun a s' => Q a s' ∧ Q' a s' := by
  refine ⟨h.1, ?_⟩
  have h₂ := h.2
  have h₂' := h'.2
  split at h₂
  · rename_i hr
    rw [hr] at h₂'
    exact ⟨h₂, h₂'⟩
  · exact h₂

theorem Wp.weaken {E' : ε → Prop} {x : Run ε σ α} (h : Wp t E x s Q) (hE : ∀ e, E e → E' e) :
    Wp t E' x s Q :=
  ⟨fun e he => hE e (h.1 e he), h.2⟩

/-- A run whose total correctness was proved ends with a value. -/
theorem Wp.returns {x : Run ε σ α} (h : Wp True E x s Q) : ∃ a s', x.Returns s a s' ∧ Q a s' := by
  have h₂ := h.2
  unfold Returns
  split at h₂
  · rename_i a s' hr
    exact ⟨a, s', hr, h₂⟩
  · exact absurd trivial h₂

theorem Wp.of_returns {x : Run ε σ α} (h : Wp t E x s Q) {a : α} {s' : σ} (hr : x.Returns s a s') : Q a s' := by
  have h₂ := h.2
  rw [hr] at h₂
  exact h₂

/-- The events of a run and what it returns can be proved separately. -/
theorem Wp.returning {x : Run ε σ α} (h : Wp False E x s Q) {a : α} {s' : σ} (hr : x.Returns s a s') :
    Wp t E x s fun b s'' => b = a ∧ s'' = s' := by
  refine ⟨h.1, ?_⟩
  rw [hr]
  exact ⟨rfl, rfl⟩

/-- Partial correctness: what holds of the value and the state if the run ends. -/
abbrev Ensures (x : Run ε σ α) (s : σ) (Q : α → σ → Prop) : Prop := Wp False (fun _ => True) x s Q

theorem ensures_bind {x : Run ε σ β} {f : β → Run ε σ α}
    (h : Ensures x s fun b s' => Ensures (f b) s' Q) : Ensures (x >>= f) s Q :=
  wp_bind.mpr h

theorem ensures_seq {x : Run ε σ β} {f : β → Run ε σ α} (h : ∀ b s', Ensures (f b) s' Q) : Ensures (x >>= f) s Q := by
  refine wp_bind.mpr ⟨fun _ _ => trivial, ?_⟩
  split
  · exact h _ _
  · exact not_false

/-- A loop whose steps keep `I` and decrease a measure. The measure is for
total correctness only. -/
theorem Wp.loop {body : α → Run ε σ (α ⊕ β)} {Q : β → σ → Prop} {I : α → σ → Prop} (measure : α → Nat)
    (hbody : ∀ a s, I a s → Wp t E (body a) s fun r s' => match r with
      | .inl a' => I a' s' ∧ (t → measure a' < measure a)
      | .inr b => Q b s')
    {n : Nat} {a : α} {s : σ} (hInv : I a s) (hn : t → measure a < n) : Wp t E (Run.loop body n a) s Q := by
  induction n generalizing a s with
  | zero =>
    simp only [Run.loop, wp_outOfFuel]
    intro ht
    exact absurd (hn ht) (Nat.not_lt_zero _)
  | succ n ih =>
    rw [loop_succ, wp_bind]
    refine (hbody a s hInv).mono ?_
    rintro (a' | b) s' h
    · exact ih h.1 fun ht => by have := h.2 ht; have := hn ht; omega
    · exact wp_pure.mpr h

@[simp] theorem wp_forM_nil {f : β → Run ε σ PUnit} {Q : PUnit → σ → Prop} :
    Wp t E (List.forM [] f) s Q ↔ Q ⟨⟩ s := by
  simp [List.forM_eq_forM]

@[simp] theorem wp_forM_cons {f : β → Run ε σ PUnit} {b : β} {bs : List β} {Q : PUnit → σ → Prop} :
    Wp t E (List.forM (b :: bs) f) s Q ↔ Wp t E (f b) s fun _ s' => Wp t E (List.forM bs f) s' Q := by
  simp [List.forM_eq_forM]

/-- A loop over the numbers below `n` that keeps an invariant. -/
theorem Wp.forM_range {f : Nat → Run ε σ PUnit} {n : Nat} {I : Nat → σ → Prop}
    (hstep : ∀ i < n, ∀ s, I i s → Wp t E (f i) s fun _ s' => I (i + 1) s') (h : I 0 s) :
    Wp t E (List.forM (List.range n) f) s fun _ s' => I n s' := by
  -- the rest of the loop, from any number on
  have hrest : ∀ m k s, k + m = n → I k s → Wp t E (List.forM (List.range' k m) f) s fun _ s' => I n s' := by
    intro m
    induction m with
    | zero =>
      intro k s hk hI
      rw [List.range'_zero, wp_forM_nil]
      exact hk ▸ hI
    | succ m ih =>
      intro k s hk hI
      rw [List.range'_succ, wp_forM_cons]
      exact (hstep k (by omega) s hI).mono fun _ s' hs' => ih (k + 1) s' (by omega) hs'
  rw [List.range_eq_range']
  exact hrest n 0 s (Nat.zero_add n) h

end CFLite.Framework.Run
