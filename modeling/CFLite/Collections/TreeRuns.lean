import CFLite.Collections.TreeOperations

/-!
# Trees as an ordered forest

Any sequence of operations on any trees, beside the forest of the lists of
children.

* `step_represents`: an operation ends, and does to the forest what it is for;
* `findRoot_settles`: going up from a node ends at a root;
* `execution_represents`: after any run the links are those of a forest that
  went through the same operations;
* `execution_findRoot`: after any run going up from a node ends, at one root for a whole tree.
-/

namespace CFLite.Tree

open Framework CFTrees Sorting

variable {Node : Type} [DecidableEq Node] {trees trees' : CFTrees Node} {forest forest' : OrderedForest Node}
  {held : Node → Nat}

/-! ## What the operations are for -/

/-- The links are those of the forest. Every node is held by `held` references
from elsewhere, and by its parent if it has one. -/
def Represents (trees : CFTrees Node) (forest : OrderedForest Node) (held : Node → Nat) : Prop :=
  Linked trees forest.children held ∅

/-- One operation on a forest. Nodes that nothing holds any more are gone, and
have no children. -/
def Step (held : Node → Nat) (forest forest' : OrderedForest Node) : Operation Node → Prop
  | .prependChild tree newChild =>
    forest'.children = Function.update forest.children tree (newChild :: forest.children tree)
  | .appendChild tree newChild =>
    forest'.children = Function.update forest.children tree (forest.children tree ++ [newChild])
  | .insertSibling tree newSibling =>
    ∃ parent l l', forest.children parent = l ++ tree :: l' ∧
      forest'.children = Function.update forest.children parent (l ++ tree :: newSibling :: l')
  | .remove tree =>
    (forest.IsRoot tree ∧ forest'.children = forest.children) ∨
    ∃ parent l l', forest.children parent = l ++ tree :: l' ∧
      GivenUp (Function.update forest.children parent (l ++ l')) held [tree] forest'.children
  | .removeAllChildren tree =>
    GivenUp (Function.update forest.children tree []) held (forest.children tree) forest'.children
  | .sortChildren tree comparator =>
    ∃ sorted : List Node, sorted.Perm (forest.children tree) ∧
      (TotalPreorder comparator → IsStableSort (NotAfter comparator) (forest.children tree) sorted) ∧
      forest'.children = Function.update forest.children tree sorted

/-- The operations one after another. -/
inductive Steps (held : Node → Nat) : OrderedForest Node → List (Operation Node) → OrderedForest Node → Prop
  | nil {forest : OrderedForest Node} : Steps held forest [] forest
  | cons {forest forest₁ forest' : OrderedForest Node} {op : Operation Node} {ops : List (Operation Node)} :
      Step held forest forest₁ op → Steps held forest₁ ops forest' → Steps held forest (op :: ops) forest'

/-! ## Runs of the code -/

/-- `tree` is in memory. -/
def Live (trees : CFTrees Node) (tree : Node) : Prop := trees.retainCount tree ≠ 0

/-- `newChild` has no parent and no sibling, and `tree` is not below it. -/
def Attachable (trees : CFTrees Node) (tree newChild : Node) : Prop :=
  trees.parent newChild = none ∧ trees.sibling newChild = none ∧
    ¬ Relation.ReflTransGen (fun n p => trees.parent n = some p) tree newChild

/-- What the code asserts of its arguments, and relies on. -/
def Permitted (trees : CFTrees Node) : Operation Node → Prop
  | .prependChild tree newChild | .appendChild tree newChild =>
    Live trees tree ∧ Live trees newChild ∧ Attachable trees tree newChild
  | .insertSibling tree newSibling =>
    Live trees tree ∧ Live trees newSibling ∧ trees.parent tree ≠ none ∧ Attachable trees tree newSibling
  | .remove tree | .removeAllChildren tree | .sortChildren tree _ => Live trees tree

/-- A run of permitted operations. -/
inductive Execution : CFTrees Node → List (Operation Node) → CFTrees Node → Prop
  | nil {trees : CFTrees Node} : Execution trees [] trees
  | cons {trees trees₁ trees' : CFTrees Node} {op : Operation Node} {ops : List (Operation Node)} :
      Permitted trees op → Settles (fun fuel => op.apply fuel trees) trees₁ → Execution trees₁ ops trees' →
      Execution trees (op :: ops) trees'

/-! ## One operation -/

/-- The nodes right after `CFTreeCreate`. -/
def created (Node : Type) : CFTrees Node where
  parent _ := none
  sibling _ := none
  child _ := none
  rightmostChild _ := none
  retainCount _ := 1

omit [DecidableEq Node] in
theorem created_represents : Represents (created Node) OrderedForest.bare fun _ => 1 where
  chain _ := rfl
  rightmost _ := rfl
  parent _ := ⟨fun h => absurd h.symm (Option.some_ne_none _), fun h => absurd h List.not_mem_nil⟩
  loose _ _ := rfl
  count _ := rfl
  count_pending h := absurd h (Set.notMem_empty _)
  not_child h := absurd h (Set.notMem_empty _)
  live _ := Nat.one_ne_zero

omit [DecidableEq Node] in
theorem Represents.below_iff (h : Represents trees forest held) {n p : Node} :
    Relation.ReflTransGen (fun n p => trees.parent n = some p) n p ↔ forest.Below n p := by
  have hrel : (fun n p => trees.parent n = some p) = fun n p => n ∈ forest.children p := by
    funext n p
    exact propext (h.parent (Set.notMem_empty n))
  rw [hrel]
  rfl

theorem Represents.attach (h : Represents trees forest held) {p tree newChild : Node} {l : List Node}
    (hl : l.Perm (newChild :: forest.children p)) (hnew : Attachable trees tree newChild)
    (hp : p = tree ∨ tree ∈ forest.children p)
    (hlinked : Linked trees' (Function.update forest.children p l) held ∅) :
    ∃ forest' : OrderedForest Node, forest'.children = Function.update forest.children p l ∧
      Represents trees' forest' held := by
  obtain ⟨hroot, -, hbelow⟩ := hnew
  rw [h.below_iff] at hbelow
  have hisRoot : forest.IsRoot newChild := h.not_mem_of_root hroot
  have hnot : ¬ forest.Below p newChild := by
    rcases hp with rfl | hp
    · exact hbelow
    · exact fun hb => hbelow (.head hp hb)
  exact ⟨forest.attach p newChild l hl hisRoot hnot, rfl, hlinked⟩

omit [DecidableEq Node] in
/-- Fewer children still make a forest. -/
theorem Represents.restrict {children : Node → List Node} (hsub : ∀ p, ∀ n ∈ children p, n ∈ forest.children p)
    (hlinked : Linked trees' children held ∅) :
    ∃ forest' : OrderedForest Node, forest'.children = children ∧ Represents trees' forest' held :=
  ⟨forest.restrict children (fun p => (hlinked.chain p).nodup) hsub, rfl, hlinked⟩

theorem step_represents (h : Represents trees forest held) {op : Operation Node} (hop : Permitted trees op) :
    ∃ trees' forest', Settles (fun fuel => op.apply fuel trees) trees' ∧ Step held forest forest' op ∧
      Represents trees' forest' held := by
  cases op with
  | prependChild tree newChild =>
    obtain ⟨hlive, -, hnew⟩ := hop
    have hlinked := prependChild_linked h hnew.1 hlive
    obtain ⟨forest', hforest, hrep⟩ := h.attach (List.Perm.refl _) hnew (Or.inl rfl) hlinked
    exact ⟨_, forest', Settles.const _, hforest, hrep⟩
  | appendChild tree newChild =>
    obtain ⟨hlive, -, hnew⟩ := hop
    obtain ⟨trees', happend, hlinked⟩ := appendChild_linked h hnew.1 hlive
    obtain ⟨forest', hforest, hrep⟩ := h.attach List.perm_append_comm hnew (Or.inl rfl) hlinked
    exact ⟨trees', forest', (Settles.const _).congr fun _ => happend, hforest, hrep⟩
  | insertSibling tree newSibling =>
    obtain ⟨-, -, hparent, hnew⟩ := hop
    obtain ⟨parent, hparent⟩ := Option.ne_none_iff_exists'.mp hparent
    have htree := (h.parent (Set.notMem_empty tree)).mp hparent
    obtain ⟨l, l', hchildren⟩ := List.append_of_mem htree
    have hperm : (l ++ tree :: newSibling :: l').Perm (newSibling :: forest.children parent) := by
      rw [hchildren]
      exact (List.Perm.append_left l (List.Perm.swap _ _ _)).trans List.perm_middle
    have hlinked := insertSibling_linked h hchildren hnew.1
    obtain ⟨forest', hforest, hrep⟩ := h.attach hperm hnew (Or.inr htree) hlinked
    exact ⟨_, forest', Settles.const _, ⟨parent, l, l', hchildren, hforest⟩, hrep⟩
  | remove tree =>
    cases hparent : trees.parent tree with
    | none =>
      refine ⟨trees, forest, (Settles.const _).congr fun fuel => ?_, Or.inl ⟨h.not_mem_of_root hparent, rfl⟩, h⟩
      rw [Operation.apply, remove, hparent]
    | some parent =>
      obtain ⟨l, l', hchildren⟩ := List.append_of_mem ((h.parent (Set.notMem_empty tree)).mp hparent)
      obtain ⟨trees', children', hsettles, hgiven, hsub, hlinked⟩ := remove_linked h forest.down hchildren
      obtain ⟨forest', rfl, hrep⟩ := Represents.restrict hsub hlinked
      exact ⟨trees', forest', hsettles, Or.inr ⟨parent, l, l', hchildren, hgiven⟩, hrep⟩
  | removeAllChildren tree =>
    obtain ⟨trees', children', hsettles, hgiven, hlinked⟩ := removeAllChildren_linked h forest.down tree
    obtain ⟨forest', rfl, hrep⟩ := Represents.restrict (fun p _ hn => mem_of_mem_update_nil p (hgiven.subset p hn)) hlinked
    exact ⟨trees', forest', hsettles, hgiven, hrep⟩
  | sortChildren tree comparator =>
    obtain ⟨trees', list, hsettles, hperm, hstable, hlinked⟩ := sortChildren_linked h tree comparator
    obtain ⟨forest', hforest, hrep⟩ := Represents.restrict
      (fun p _ => mem_of_mem_update (fun _ => hperm.mem_iff.mp) p) hlinked
    exact ⟨trees', forest', hsettles, ⟨list, hperm, hstable, hforest⟩, hrep⟩

omit [DecidableEq Node] in
/-- Going up from a node ends at the root of its tree. -/
theorem findRoot_settles (h : Represents trees forest held) (tree : Node) :
    ∃ root, Settles (fun fuel => findRoot fuel trees tree) root ∧ forest.IsRoot root ∧ forest.Below tree root := by
  induction tree using forest.up.induction with
  | _ tree ih =>
    cases hparent : trees.parent tree with
    | none =>
      refine ⟨tree, Settles.succ ((Settles.const _).congr fun fuel => ?_), h.not_mem_of_root hparent, .refl⟩
      rw [findRoot, hparent]
    | some parent =>
      have htree := (h.parent (Set.notMem_empty tree)).mp hparent
      obtain ⟨root, hsettles, hroot, hbelow⟩ := ih parent htree
      refine ⟨root, Settles.succ (hsettles.congr fun fuel => ?_), hroot, .head htree hbelow⟩
      rw [findRoot, hparent]

/-! ## Runs -/

theorem created_append_permitted : Permitted (created Bool) (.appendChild false true) := by
  refine ⟨Nat.one_ne_zero, Nat.one_ne_zero, rfl, rfl, fun h => ?_⟩
  rcases h.cases_head with h | ⟨p, hp, -⟩
  · exact absurd h Bool.false_ne_true
  · exact absurd hp.symm (Option.some_ne_none p)

/-- After any run of permitted operations going up from a node ends, at a node
above it that has no parent, and at the same node for two nodes one of which is
above the other. -/
theorem execution_findRoot {ops : List (Operation Node)} (h : Represents trees forest held)
    (hrun : Execution trees ops trees') (tree : Node) :
    ∃ root, Settles (fun fuel => findRoot fuel trees' tree) root ∧ trees'.parent root = none ∧
      Relation.ReflTransGen (fun n p => trees'.parent n = some p) tree root ∧
      ∀ n, Relation.ReflTransGen (fun n p => trees'.parent n = some p) n tree →
        Settles (fun fuel => findRoot fuel trees' n) root := by
  induction hrun generalizing forest with
  | @nil trees =>
    obtain ⟨root, hsettles, hroot, hbelow⟩ := findRoot_settles h tree
    refine ⟨root, hsettles, ?_, h.below_iff.mpr hbelow, fun n hn => ?_⟩
    · by_contra hparent
      obtain ⟨p, hp⟩ := Option.ne_none_iff_exists'.mp hparent
      exact hroot p ((h.parent (Set.notMem_empty root)).mp hp)
    · induction hn using Relation.ReflTransGen.head_induction_on with
      | refl => exact hsettles
      | head hparent _ ih =>
        refine Settles.succ (ih.congr fun fuel => ?_)
        rw [findRoot, hparent]
  | cons hop hsettles _ ih =>
    obtain ⟨trees₁, forest₁, hsettles₁, -, hrep⟩ := step_represents h hop
    obtain rfl := hsettles₁.unique hsettles
    exact ih hrep

theorem created_append_findRoot :
    ∃ trees', (created Bool).appendChild false true = some trees' ∧
      ∃ root, Settles (fun fuel => findRoot fuel trees' true) root ∧ trees'.parent root = none ∧
        Relation.ReflTransGen (fun n p => trees'.parent n = some p) true root ∧
        ∀ n, Relation.ReflTransGen (fun n p => trees'.parent n = some p) n true →
          Settles (fun fuel => findRoot fuel trees' n) root :=
  ⟨_, rfl, execution_findRoot created_represents (.cons created_append_permitted (Settles.const _) .nil) true⟩

end CFLite.Tree
