import Mathlib.Data.List.Perm.Basic
import Mathlib.Data.List.Nodup
import Mathlib.Logic.Relation
import Mathlib.Order.WellFounded
import Mathlib.Logic.Function.Basic

/-!
# Ordered forests

A forest on a type of nodes: every node has a list of children, no node is a
child twice, and neither going down nor going up goes on for ever.

* `wellFounded_insert`: one more pair in a well-founded relation, as long as it
  closes no cycle;
* `OrderedForest.restrict`, `OrderedForest.attach`: the two ways to change a
  forest, with fewer children or with one child more;
* `Abandoned`, `Releases`: the nodes that go when references are given up, as a
  set and as a run.
-/

namespace CFLite.Framework

variable {Node : Type*}

/-! ## One more pair -/

theorem wellFounded_insert {r : Node → Node → Prop} (h : WellFounded r) {a b : Node}
    (hab : ¬ Relation.ReflTransGen r b a) : WellFounded fun x y => r x y ∨ (x = a ∧ y = b) := by
  -- no node from which `a` cannot be left upwards meets the new pair
  have hbelow : ∀ x, Relation.ReflTransGen r x a → Acc (fun x y => r x y ∨ (x = a ∧ y = b)) x := by
    intro x
    induction x using h.induction with
    | _ x ih =>
      intro hx
      refine Acc.intro x fun y hy => ?_
      rcases hy with hyx | ⟨-, rfl⟩
      · exact ih y hyx (hx.head hyx)
      · exact absurd hx hab
  refine ⟨fun x => ?_⟩
  induction x using h.induction with
  | _ x ih =>
    refine Acc.intro x fun y hy => ?_
    rcases hy with hyx | ⟨rfl, -⟩
    · exact ih y hyx
    · exact hbelow y .refl

/-! ## Forests -/

/-- A shorter list of children gives no node a child. -/
theorem mem_of_mem_update [DecidableEq Node] {children : Node → List Node} {q : Node} {l : List Node}
    (hl : ∀ n ∈ l, n ∈ children q) (p : Node) {n : Node} (hn : n ∈ Function.update children q l p) : n ∈ children p := by
  by_cases hp : p = q
  · rw [hp, Function.update_self] at hn
    exact hp ▸ hl n hn
  · rwa [Function.update_of_ne hp] at hn

theorem mem_of_mem_update_nil [DecidableEq Node] {children : Node → List Node} {q : Node} (p : Node) {n : Node}
    (hn : n ∈ Function.update children q [] p) : n ∈ children p :=
  mem_of_mem_update (fun _ h => absurd h List.not_mem_nil) p hn

/-- The children of every node, in their order. -/
structure OrderedForest (Node : Type*) where
  children : Node → List Node
  nodup (p : Node) : (children p).Nodup
  parent_unique {n p q : Node} : n ∈ children p → n ∈ children q → p = q
  down : WellFounded fun n p => n ∈ children p
  up : WellFounded fun p n => n ∈ children p

namespace OrderedForest

variable (f : OrderedForest Node)

/-- A node that is nobody's child. -/
def IsRoot (n : Node) : Prop := ∀ p, n ∉ f.children p

/-- `n` is `p` or below it. -/
def Below (n p : Node) : Prop := Relation.ReflTransGen (fun n p => n ∈ f.children p) n p

/-- Fewer children, or the same ones in another order. -/
def restrict (children : Node → List Node) (hnodup : ∀ p, (children p).Nodup)
    (hsub : ∀ p, ∀ n ∈ children p, n ∈ f.children p) : OrderedForest Node where
  children
  nodup := hnodup
  parent_unique hp hq := f.parent_unique (hsub _ _ hp) (hsub _ _ hq)
  down := Subrelation.wf (fun {n p} h => hsub p n h) f.down
  up := Subrelation.wf (fun {p n} h => hsub p n h) f.up

/-- All nodes are roots. -/
def bare : OrderedForest Node where
  children _ := []
  nodup _ := List.nodup_nil
  parent_unique h := absurd h List.not_mem_nil
  down := ⟨fun _ => Acc.intro _ fun _ h => absurd h List.not_mem_nil⟩
  up := ⟨fun _ => Acc.intro _ fun _ h => absurd h List.not_mem_nil⟩

variable [DecidableEq Node]

/-- `c`, a root with `p` not below it, becomes a child of `p`. -/
def attach (p c : Node) (l : List Node) (hl : l.Perm (c :: f.children p)) (hroot : f.IsRoot c) (hbelow : ¬ f.Below p c) :
    OrderedForest Node :=
  have hmem : ∀ {n q}, n ∈ Function.update f.children p l q → n ∈ f.children q ∨ (n = c ∧ q = p) := by
    intro n q h
    by_cases hq : q = p
    · rw [hq, Function.update_self, hl.mem_iff, List.mem_cons] at h
      rw [hq]
      exact h.symm.imp_right fun h => ⟨h, rfl⟩
    · rw [Function.update_of_ne hq] at h
      exact Or.inl h
  { children := Function.update f.children p l
    nodup q := by
      by_cases hq : q = p
      · subst hq
        rw [Function.update_self, hl.nodup_iff]
        exact List.nodup_cons.mpr ⟨hroot q, f.nodup q⟩
      · rw [Function.update_of_ne hq]
        exact f.nodup q
    parent_unique {n q q'} h h' := by
      rcases hmem h with h | ⟨hn, hq⟩
      · rcases hmem h' with h' | ⟨hn, -⟩
        · exact f.parent_unique h h'
        · exact absurd (hn ▸ h) (hroot q)
      · rcases hmem h' with h' | ⟨-, hq'⟩
        · exact absurd (hn ▸ h') (hroot q')
        · rw [hq, hq']
    down := Subrelation.wf (fun {n q} h => hmem h) (wellFounded_insert f.down hbelow)
    up := by
      refine Subrelation.wf (fun {q n} h => (hmem h).imp_right And.symm) (wellFounded_insert f.up fun h => hbelow ?_)
      exact Relation.reflTransGen_swap.mp h }

end OrderedForest

/-! ## References given up -/

/-- The nodes that nothing holds any more once the nodes of `l` are given up:
nodes without other holders, from those of `l` downwards. -/
inductive Abandoned (children : Node → List Node) (held : Node → Nat) (l : List Node) : Node → Prop
  | given {n : Node} : n ∈ l → held n = 0 → Abandoned children held l n
  | child {p n : Node} : Abandoned children held l p → n ∈ children p → held n = 0 → Abandoned children held l n

/-- The nodes of a list are given up one by one. A node without other holders
goes, and gives up its children. -/
inductive Releases [DecidableEq Node] (held : Node → Nat) : (Node → List Node) → List Node → (Node → List Node) → Prop
  | nil {children : Node → List Node} : Releases held children [] children
  | kept {children children' : Node → List Node} {n : Node} {l : List Node} : held n ≠ 0 →
      Releases held children l children' → Releases held children (n :: l) children'
  | gone {children children₁ children' : Node → List Node} {n : Node} {l : List Node} : held n = 0 →
      Releases held (Function.update children n []) (children n) children₁ → Releases held children₁ l children' →
      Releases held children (n :: l) children'

namespace Abandoned

variable {children children' : Node → List Node} {held : Node → Nat} {l l' : List Node} {n : Node}

theorem not_held (h : Abandoned children held l n) : held n = 0 := by
  cases h with
  | given _ h => exact h
  | child _ _ h => exact h

theorem mono (h : Abandoned children held l n) (hl : ∀ m ∈ l, m ∈ l') (hsub : ∀ p, ∀ m ∈ children p, m ∈ children' p) :
    Abandoned children' held l' n := by
  induction h with
  | given hn hheld => exact .given (hl _ hn) hheld
  | child _ hn hheld ih => exact .child ih (hsub _ _ hn) hheld

theorem nil_false (h : Abandoned children held [] n) : False := by
  induction h with
  | given hn _ => exact List.not_mem_nil hn
  | child _ _ _ ih => exact ih

end Abandoned

/-- The nodes that are abandoned have no children afterwards, and the others
keep theirs. -/
def GivenUp (children : Node → List Node) (held : Node → Nat) (l : List Node) (children' : Node → List Node) : Prop :=
  ∀ p, (Abandoned children held l p ∧ children' p = []) ∨ (¬ Abandoned children held l p ∧ children' p = children p)

theorem Releases.givenUp [DecidableEq Node] {children children' : Node → List Node} {held : Node → Nat} {l : List Node}
    (h : Releases held children l children') : GivenUp children held l children' := by
  induction h with
  | nil => exact fun p => .inr ⟨Abandoned.nil_false, rfl⟩
  | @kept children children' n l hheld _ ih =>
    intro p
    refine (ih p).imp (And.imp_left fun h => h.mono (fun _ => List.mem_cons_of_mem n) fun _ _ => id)
      (And.imp_left fun h hp => h ?_)
    clear h
    induction hp with
    | given hn hheld' =>
      rcases List.mem_cons.mp hn with rfl | hn
      · exact absurd hheld' hheld
      · exact .given hn hheld'
    | child _ hn hheld' ih => exact .child ih hn hheld'
  | @gone children children₁ children' n l hheld _ _ ih₁ ih₂ =>
    have hlost : ∀ p, (p = n ∨ Abandoned (Function.update children n []) held (children n) p) →
        Abandoned children held (n :: l) p ∧ children₁ p = [] := by
      rintro p (rfl | hp)
      · refine ⟨.given List.mem_cons_self hheld, ?_⟩
        rcases ih₁ p with ⟨-, h⟩ | ⟨-, h⟩
        · exact h
        · rw [h, Function.update_self]
      · refine ⟨?_, ((ih₁ p).resolve_right fun h => h.1 hp).2⟩
        induction hp with
        | given hm hm0 => exact .child (.given List.mem_cons_self hheld) hm hm0
        | child _ hm hm0 ih => exact .child ih (mem_of_mem_update_nil _ hm) hm0
    have hkept : ∀ p, ¬ (p = n ∨ Abandoned (Function.update children n []) held (children n) p) →
        children₁ p = children p := by
      intro p hp
      rw [((ih₁ p).resolve_left fun h => hp (.inr h.1)).2, Function.update_of_ne fun h => hp (.inl h)]
    have hsub : ∀ p, ∀ m ∈ children₁ p, m ∈ children p := by
      intro p m hm
      by_cases hp : p = n ∨ Abandoned (Function.update children n []) held (children n) p
      · rw [(hlost p hp).2] at hm
        exact absurd hm List.not_mem_nil
      · rwa [hkept p hp] at hm
    have hsplit : ∀ p, Abandoned children held (n :: l) p →
        (p = n ∨ Abandoned (Function.update children n []) held (children n) p) ∨ Abandoned children₁ held l p := by
      intro p hp
      induction hp with
      | given hm hm0 =>
        rcases List.mem_cons.mp hm with rfl | hm
        · exact .inl (.inl rfl)
        · exact .inr (.given hm hm0)
      | @child q m _ hm hm0 ih =>
        by_cases hq : q = n ∨ Abandoned (Function.update children n []) held (children n) q
        · refine .inl (.inr ?_)
          by_cases hqn : q = n
          · exact .given (hqn ▸ hm) hm0
          · exact .child (hq.resolve_left hqn) (by rwa [Function.update_of_ne hqn]) hm0
        · exact .inr (.child (ih.resolve_left hq) (by rwa [hkept q hq]) hm0)
    intro p
    rcases ih₂ p with ⟨hp, hnil⟩ | ⟨hp, hsame⟩
    · exact .inl ⟨hp.mono (fun _ => List.mem_cons_of_mem n) hsub, hnil⟩
    · by_cases hq : p = n ∨ Abandoned (Function.update children n []) held (children n) p
      · exact .inl ⟨(hlost p hq).1, hsame.trans (hlost p hq).2⟩
      · exact .inr ⟨fun h => (hsplit p h).elim hq hp, hsame.trans (hkept p hq)⟩

theorem Releases.cons [DecidableEq Node] {children children₁ children' : Node → List Node} {held : Node → Nat} {n : Node}
    {l : List Node} (h : Releases held children [n] children₁) (h' : Releases held children₁ l children') :
    Releases held children (n :: l) children' := by
  cases h with
  | kept hheld h =>
    cases h
    exact .kept hheld h'
  | gone hheld h₁ h =>
    cases h
    exact .gone hheld h₁ h'

/-- Giving up references gives no node a child. -/
theorem GivenUp.subset {children children' : Node → List Node} {held : Node → Nat} {l : List Node}
    (h : GivenUp children held l children') (p : Node) {n : Node} (hn : n ∈ children' p) : n ∈ children p := by
  rcases h p with ⟨-, hnil⟩ | ⟨-, hsame⟩
  · rw [hnil] at hn
    exact absurd hn List.not_mem_nil
  · rwa [hsame] at hn

end CFLite.Framework
