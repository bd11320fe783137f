import CFLite.Collections.TreeLinks

/-!
# The operations on trees

One specification for each operation: which list of children changes, and to
what.
-/

namespace CFLite.Tree

open Framework CFTrees Sorting

variable {Node : Type} [DecidableEq Node] {trees : CFTrees Node} {children : Node → List Node} {held : Node → Nat}

/-! ## Attaching -/

theorem prependChild_eq (tree newChild : Node) :
    trees.prependChild tree newChild =
      { parent := Function.update trees.parent newChild (some tree)
        sibling := Function.update trees.sibling newChild (trees.child tree)
        child := Function.update trees.child tree (some newChild)
        rightmostChild :=
          if trees.child tree = none then Function.update trees.rightmostChild tree (some newChild)
          else trees.rightmostChild
        retainCount := Function.update trees.retainCount newChild (trees.retainCount newChild + 1) } := by
  unfold prependChild
  dsimp only [setSibling, setParent, retain, setRetainCount]
  split <;> rfl

theorem prependChild_linked (h : Linked trees children held ∅) {tree newChild : Node}
    (hroot : trees.parent newChild = none) (hlive : trees.retainCount tree ≠ 0) :
    Linked (trees.prependChild tree newChild) (Function.update children tree (newChild :: children tree)) held ∅ := by
  have hnot := h.not_mem_of_root hroot tree
  rw [prependChild_eq]
  refine h.attach (List.Perm.refl _) hroot hlive rfl rfl ?_ ?_ ?_ ?_ ?_
  · exact fun n hn _ => Function.update_of_ne hn _ _
  · exact fun q hq => Function.update_of_ne hq _ _
  · intro q hq
    dsimp only
    split
    · exact Function.update_of_ne hq _ _
    · rfl
  · dsimp only
    rw [Function.update_self]
    refine ⟨rfl, ?_⟩
    rw [Function.update_self]
    exact (h.chain tree).update hnot _
  · dsimp only
    split
    · rename_i hnone
      rw [(h.child_eq_none tree).mp hnone, Function.update_self]
      rfl
    · rename_i hsome
      rw [List.getLast?_cons_of_ne_nil fun hnil => hsome ((h.child_eq_none tree).mpr hnil)]
      exact h.rightmost tree

theorem appendChild_linked (h : Linked trees children held ∅) {tree newChild : Node}
    (hroot : trees.parent newChild = none) (hlive : trees.retainCount tree ≠ 0) :
    ∃ trees', trees.appendChild tree newChild = some trees' ∧
      Linked trees' (Function.update children tree (children tree ++ [newChild])) held ∅ := by
  have hnot := h.not_mem_of_root hroot tree
  have hperm : (children tree ++ [newChild]).Perm (newChild :: children tree) := List.perm_append_comm
  unfold appendChild
  rw [hroot, if_neg (by exact Bool.false_ne_true)]
  dsimp only [setSibling, setParent, retain, setRetainCount, setChild, setRightmostChild]
  cases hchild : trees.child tree with
  | none =>
    have hnil := (h.child_eq_none tree).mp hchild
    refine ⟨_, rfl, h.attach hperm hroot hlive rfl rfl ?_ ?_ ?_ ?_ ?_⟩
    · exact fun n hn _ => Function.update_of_ne hn _ _
    · exact fun q hq => Function.update_of_ne hq _ _
    · exact fun q hq => Function.update_of_ne hq _ _
    · rw [hnil]
      exact ⟨Function.update_self .., Function.update_self ..⟩
    · rw [hnil]
      exact Function.update_self ..
  | some first =>
    have hne : children tree ≠ [] := by
      rw [Ne, ← h.child_eq_none tree, hchild]
      exact Option.some_ne_none first
    obtain ⟨l, last, hl⟩ := (children tree).eq_nil_or_concat'.resolve_left hne
    have hright : trees.rightmostChild tree = some last := by
      rw [h.rightmost tree, hl, List.getLast?_concat]
    have hlast : last ∈ children tree := hl ▸ List.mem_append_right l List.mem_cons_self
    have hchain := h.chain tree
    rw [hl] at hchain hnot
    have hend : trees.sibling last = none := (Segment.cons_iff.mp hchain).2
    rw [hright]
    refine ⟨_, rfl, h.attach hperm hroot hlive rfl rfl ?_ ?_ ?_ ?_ ?_⟩
    · intro n hn hnl
      dsimp only
      rw [Function.update_of_ne (ne_of_mem_of_not_mem hlast hnl).symm, Function.update_of_ne hn]
    · exact fun q _ => rfl
    · exact fun q hq => Function.update_of_ne hq _ _
    · dsimp only
      rw [hl, List.append_assoc]
      have hins := Chain.insertAfter hchain hnot
      rwa [hend] at hins
    · dsimp only
      rw [Function.update_self, List.getLast?_concat]

theorem insertSibling_linked (h : Linked trees children held ∅) {parent tree newSibling : Node} {l l' : List Node}
    (hchildren : children parent = l ++ tree :: l') (hroot : trees.parent newSibling = none) :
    Linked (trees.insertSibling tree newSibling)
      (Function.update children parent (l ++ tree :: newSibling :: l')) held ∅ := by
  have htree : tree ∈ children parent := hchildren ▸ List.mem_append_right l List.mem_cons_self
  have hparent : trees.parent tree = some parent := (h.parent (Set.notMem_empty tree)).mpr htree
  have hne : tree ≠ newSibling := fun he => h.not_mem_of_root hroot parent (he ▸ htree)
  have hperm : (l ++ tree :: newSibling :: l').Perm (newSibling :: children parent) := by
    rw [hchildren]
    refine (List.Perm.append_left l (List.Perm.swap _ _ _)).trans ?_
    exact List.perm_middle
  have hnot := h.not_mem_of_root hroot parent
  have hchain := h.chain parent
  rw [hchildren] at hnot hchain
  have heq : trees.insertSibling tree newSibling =
      { parent := Function.update trees.parent newSibling (some parent)
        sibling := Function.update (Function.update trees.sibling newSibling (trees.sibling tree)) tree (some newSibling)
        child := trees.child
        rightmostChild :=
          if trees.rightmostChild parent = some tree then
            Function.update trees.rightmostChild parent (some newSibling)
          else trees.rightmostChild
        retainCount := Function.update trees.retainCount newSibling (trees.retainCount newSibling + 1) } := by
    unfold insertSibling
    dsimp only [setSibling, setParent, retain, setRetainCount]
    rw [hparent, Function.update_of_ne hne, hparent]
    dsimp only
    split <;> rfl
  rw [heq]
  refine h.attach hperm hroot (h.live (List.ne_nil_of_mem htree)) rfl rfl ?_ ?_ ?_ ?_ ?_
  · intro n hn hnl
    dsimp only
    rw [Function.update_of_ne (ne_of_mem_of_not_mem htree hnl).symm, Function.update_of_ne hn]
  · exact fun q _ => rfl
  · intro q hq
    dsimp only
    split
    · exact Function.update_of_ne hq _ _
    · rfl
  · exact Chain.insertAfter hchain hnot
  · -- the new node is the last one exactly when `tree` was
    have hright := h.rightmost parent
    rw [hchildren] at hright
    dsimp only
    split
    · rename_i hlast
      rw [hright, hchain.last_iff] at hlast
      rw [hlast, Function.update_self, getLast?_append_cons (List.cons_ne_nil _ _)]
      rfl
    · rename_i hlast
      rw [hright, hchain.last_iff] at hlast
      rw [hright, getLast?_append_cons hlast, getLast?_append_cons (List.cons_ne_nil _ _),
        List.getLast?_cons_of_ne_nil hlast]

/-! ## Releasing -/

/-- A pending node without children, or with other holders, is settled. -/
theorem Linked.settle {n : Node} {pending : Set Node} (h : Linked trees children held pending) (hn : n ∈ pending)
    (hzero : held n = 0 → children n = []) :
    Linked (((trees.setParent n none).setSibling n none).setRetainCount n (held n)) children held (pending \ {n}) where
  chain p := (h.chain p).update (h.not_child hn) none
  rightmost := h.rightmost
  parent {m p} hm := by
    by_cases hmn : m = n
    · subst hmn
      simp only [setParent, setSibling, setRetainCount, Function.update_self]
      exact ⟨fun he => absurd he.symm (Option.some_ne_none p), fun hp => absurd hp (h.not_child hn)⟩
    · simp only [setParent, setSibling, setRetainCount, Function.update_of_ne hmn]
      exact h.parent fun hp => hm ⟨hp, hmn⟩
  loose {m} hm hnone := by
    by_cases hmn : m = n
    · subst hmn
      exact Function.update_self ..
    · simp only [setParent, setSibling, setRetainCount, Function.update_of_ne hmn] at hnone ⊢
      exact h.loose (fun hp => hm ⟨hp, hmn⟩) hnone
  count {m} hm := by
    by_cases hmn : m = n
    · subst hmn
      simp only [setParent, setSibling, setRetainCount, Function.update_self]
      rfl
    · simp only [setParent, setSibling, setRetainCount, Function.update_of_ne hmn]
      exact h.count fun hp => hm ⟨hp, hmn⟩
  count_pending {m} hm := by
    simp only [setParent, setSibling, setRetainCount, Function.update_of_ne hm.2]
    exact h.count_pending hm.1
  not_child hm := h.not_child hm.1
  live {p} hp := by
    by_cases hpn : p = n
    · subst hpn
      simp only [setRetainCount, Function.update_self]
      exact fun he => hp (hzero he)
    · simp only [setParent, setSibling, setRetainCount, Function.update_of_ne hpn]
      exact h.live hp

/-- All children of a node are given up. -/
theorem Linked.removeChildren {pending : Set Node} (h : Linked trees children held pending) (p : Node) :
    Linked ((trees.setChild p none).setRightmostChild p none) (Function.update children p []) held
      (pending ∪ {n | n ∈ children p}) := by
  refine h.detach (by rw [List.append_nil]) rfl rfl (fun _ _ => rfl) ?_ ?_ ?_ ?_
  · exact fun q hq => Function.update_of_ne hq _ _
  · exact fun q hq => Function.update_of_ne hq _ _
  · exact Function.update_self ..
  · exact Function.update_self ..

/-- What the loop of `CFTreeRemoveAllChildren` does with a chain of pending
nodes. -/
def LoopSpec (below : Node → Node → Prop) (held : Node → Nat) (l : List Node) : Prop :=
  ∀ (trees : CFTrees Node) (children : Node → List Node) (pending : Set Node) (first : Option Node),
    (∀ p, ∀ n ∈ children p, below n p) → Linked trees children held pending → Chain trees.sibling first l →
    (∀ n ∈ l, n ∈ pending) →
    ∃ trees' children', Releases held children l children' ∧
      Settles (fun fuel => removeLoop fuel trees first) trees' ∧
      Linked trees' children' held (pending \ {n | n ∈ l}) ∧
      ∀ n ∈ pending, n ∉ l → trees'.sibling n = trees.sibling n

/-- A pending node is released, with what it alone holds. -/
theorem release_spec {below : Node → Node → Prop} {n : Node} {pending : Set Node}
    (hbelow : ∀ p, ∀ m ∈ children p, below m p) (h : Linked trees children held pending) (hn : n ∈ pending)
    (hspec : LoopSpec below held (children n)) :
    ∃ trees' children', Releases held children [n] children' ∧
      Settles (fun fuel => release fuel ((trees.setParent n none).setSibling n none) n) trees' ∧
      Linked trees' children' held (pending \ {n}) ∧
      ∀ m ∈ pending, m ≠ n → trees'.sibling m = trees.sibling m := by
  have hcount : trees.retainCount n - 1 = held n := by rw [h.count_pending hn, Nat.add_sub_cancel]
  have hsibling : ∀ m, m ≠ n → Function.update trees.sibling n none m = trees.sibling m :=
    fun m hm => Function.update_of_ne hm _ _
  by_cases hzero : held n = 0
  · -- the last reference: the children are pending too, and are released in turn
    have hnc : n ∉ children n := h.not_child hn
    have hpend : ∀ m ∈ children n, m ∈ (pending ∪ {m | m ∈ children n}) \ {n} :=
      fun m hm => ⟨Or.inr hm, ne_of_mem_of_not_mem hm hnc⟩
    have hstart := (h.removeChildren n).settle (Or.inl hn) fun _ => Function.update_self ..
    have hsub : ∀ p, ∀ m ∈ Function.update children n [] p, below m p :=
      fun p m hm => hbelow p m (mem_of_mem_update_nil p hm)
    obtain ⟨trees', children', hrel, hsettles, hlinked, hframe⟩ :=
      hspec _ _ _ (trees.child n) hsub hstart ((h.chain n).update hnc none) hpend
    refine ⟨trees', children', .gone hzero hrel .nil, ?_, ?_, ?_⟩
    · refine Settles.succ (Settles.succ (hsettles.congr fun fuel => ?_))
      rw [release]
      simp only [setParent, setSibling, setRetainCount, Function.update_self, hcount, hzero, if_pos]
      rw [removeAllChildren]
      simp only [setChild, setRightmostChild]
    · convert hlinked using 1
      ext m
      simp only [Set.mem_sdiff, Set.mem_union, Set.mem_singleton_iff, Set.mem_ofPred_eq]
      constructor
      · rintro ⟨hm, hmn⟩
        exact ⟨⟨Or.inl hm, hmn⟩, h.not_child hm⟩
      · rintro ⟨⟨hm, hmn⟩, hmc⟩
        exact ⟨hm.resolve_right hmc, hmn⟩
    · intro m hm hmn
      rw [hframe m ⟨Or.inl hm, hmn⟩ (h.not_child hm)]
      exact hsibling m hmn
  · refine ⟨_, children, .kept hzero .nil, ?_, h.settle hn fun h => absurd h hzero, fun m _ hm => hsibling m hm⟩
    refine Settles.succ ((Settles.const _).congr fun fuel => ?_)
    rw [release]
    simp only [setParent, setSibling, setRetainCount, Function.update_self, hcount, hzero, if_false]

/-- A loop over a chain, when the children of each of its nodes are released
as they should be. -/
theorem loopSpec_of {below : Node → Node → Prop} {l : List Node}
    (hdown : ∀ n ∈ l, ∀ l' : List Node, (∀ m ∈ l', below m n) → LoopSpec below held l') : LoopSpec below held l := by
  induction l with
  | nil =>
    intro trees children pending first _ h hchain _
    refine ⟨trees, children, .nil, ?_, ?_, fun _ _ _ => rfl⟩
    · refine Settles.succ ((Settles.const _).congr fun fuel => ?_)
      rw [show first = none from hchain, removeLoop]
    · simpa using h
  | cons n l ih =>
    intro trees children pending first hbelow h hchain hpend
    obtain ⟨hfirst, htail⟩ := hchain
    have hnl : n ∉ l := (List.nodup_cons.mp (Chain.nodup (p := some n) ⟨rfl, htail⟩)).1
    have hn := hpend n List.mem_cons_self
    obtain ⟨trees₁, children₁, hrel₁, hsettles₁, hlinked₁, hframe₁⟩ :=
      release_spec hbelow h hn (hdown n List.mem_cons_self _ (hbelow n))
    have hpend₁ : ∀ m ∈ l, m ∈ pending \ {n} :=
      fun m hm => ⟨hpend m (List.mem_cons_of_mem n hm), ne_of_mem_of_not_mem hm hnl⟩
    have htail₁ : Chain trees₁.sibling (trees.sibling n) l :=
      htail.congr fun m hm => hframe₁ m (hpend₁ m hm).1 (hpend₁ m hm).2
    obtain ⟨trees', children', hrel, hsettles, hlinked, hframe⟩ :=
      ih (fun m hm => hdown m (List.mem_cons_of_mem n hm)) trees₁ children₁ _ _
        (fun p m hm => hbelow p m (hrel₁.givenUp.subset p hm)) hlinked₁ htail₁ hpend₁
    refine ⟨trees', children', hrel₁.cons hrel, ?_, ?_, ?_⟩
    · refine Settles.succ ((hsettles₁.bind (g := fun trees₁ fuel => removeLoop fuel trees₁ (trees.sibling n)) hsettles).congr
        fun fuel => ?_)
      rw [hfirst, removeLoop]
      rfl
    · convert hlinked using 1
      ext m
      simp only [Set.mem_sdiff, Set.mem_singleton_iff, Set.mem_ofPred_eq, List.mem_cons, not_or, and_assoc]
    · intro m hm hml
      rw [List.mem_cons, not_or] at hml
      rw [hframe m ⟨hm, hml.1⟩ hml.2]
      exact hframe₁ m hm hml.1

/-- In a forest every chain of pending nodes can be released. -/
theorem loopSpec {below : Node → Node → Prop} (hwf : WellFounded below) (l : List Node) : LoopSpec below held l := by
  have hdown : ∀ n, ∀ l' : List Node, (∀ m ∈ l', below m n) → LoopSpec below held l' := by
    intro n
    induction n using hwf.induction with
    | _ n ih => exact fun l' hl' => loopSpec_of fun m hm => ih m (hl' m hm)
  exact loopSpec_of fun n _ => hdown n

/-! ## Detaching -/

theorem removeAllChildren_linked (h : Linked trees children held ∅) (hwf : WellFounded fun n p => n ∈ children p)
    (tree : Node) :
    ∃ trees' children', Settles (fun fuel => removeAllChildren fuel trees tree) trees' ∧
      GivenUp (Function.update children tree []) held (children tree) children' ∧ Linked trees' children' held ∅ := by
  have hstart := h.removeChildren tree
  rw [Set.empty_union] at hstart
  obtain ⟨trees', children', hrel, hsettles, hlinked, -⟩ :=
    loopSpec hwf (children tree) _ _ _ (trees.child tree) (fun p _ => mem_of_mem_update_nil p) hstart (h.chain tree) fun _ hn => hn
  refine ⟨trees', children', Settles.succ (hsettles.congr fun fuel => ?_), hrel.givenUp, ?_⟩
  · rw [removeAllChildren]
  · rwa [Set.sdiff_self] at hlinked

theorem previousLoop_settles {first : Option Node} {tree prevSibling : Node} {l l' : List Node}
    (h : Chain trees.sibling first (l ++ prevSibling :: tree :: l')) :
    Settles (fun fuel => trees.previousLoop tree fuel first) (some prevSibling) := by
  induction l generalizing first with
  | nil =>
    obtain ⟨hfirst, hnext, -⟩ := h
    refine Settles.succ ((Settles.const _).congr fun fuel => ?_)
    rw [hfirst, previousLoop, if_pos hnext]
  | cons n l ih =>
    obtain ⟨hfirst, htail⟩ := h
    refine Settles.succ ((ih htail).congr fun fuel => ?_)
    have hnext : trees.sibling n ≠ some tree := by
      cases l with
      | nil => exact Chain.ne_later htail List.mem_cons_self
      | cons m l =>
        exact Chain.ne_later htail (List.mem_append_right l (List.mem_cons_of_mem prevSibling List.mem_cons_self))
    rw [hfirst, previousLoop, if_neg hnext]

/-- The node is taken out of the list of its parent, and is pending. -/
theorem unlink_linked (h : Linked trees children held ∅) {parent tree : Node} {l l' : List Node}
    (hchildren : children parent = l ++ tree :: l') :
    ∃ trees', Settles (fun fuel => trees.unlink fuel parent tree) trees' ∧
      Linked trees' (Function.update children parent (l ++ l')) held {tree} := by
  have hpend : (∅ : Set Node) ∪ {n | n ∈ [tree]} = {tree} := by simp
  have hperm : ([tree] ++ (l ++ l')).Perm (children parent) := by
    rw [hchildren, List.singleton_append]
    exact List.perm_middle.symm
  have hchain := h.chain parent
  have hright := h.rightmost parent
  rw [hchildren] at hchain hright
  rw [← hpend]
  unfold unlink
  rcases l.eq_nil_or_concat' with rfl | ⟨l, prevSibling, rfl⟩
  · obtain ⟨hfirst, htail⟩ := hchain
    refine ⟨_, (Settles.const _).congr fun fuel => if_pos hfirst, h.detach hperm ?_ ?_ ?_ ?_ ?_ ?_ ?_⟩
    · split <;> rfl
    · split <;> rfl
    · intro n _
      split <;> rfl
    · intro q hq
      split <;> exact Function.update_of_ne hq _ _
    · intro q hq
      split
      · exact Function.update_of_ne hq _ _
      · rfl
    · split <;>
      · simp only [setChild, setRightmostChild, Function.update_self]
        exact htail
    · split
      · rename_i hnone
        cases l' with
        | nil => exact Function.update_self ..
        | cons m l' => exact absurd (htail.1.symm.trans hnone) (Option.some_ne_none m)
      · rename_i hsome
        cases l' with
        | nil => exact absurd htail hsome
        | cons m l' => exact hright
  · have hprev : prevSibling ∈ children parent := by
      rw [hchildren]
      simp
    have hassoc : l ++ [prevSibling] ++ tree :: l' = l ++ prevSibling :: tree :: l' := by simp
    rw [hassoc] at hchain hright
    have hfirst : ¬ trees.child parent = some tree := by
      cases l with
      | nil => exact Chain.ne_later hchain List.mem_cons_self
      | cons m l =>
        exact Chain.ne_later hchain (List.mem_append_right l (List.mem_cons_of_mem prevSibling List.mem_cons_self))
    have hnext : trees.sibling prevSibling = some tree := (Segment.cons_iff.mp hchain).2.1
    refine ⟨_, ((previousLoop_settles hchain).bind (Settles.const _)).congr fun fuel => if_neg hfirst, h.detach hperm ?_ ?_ ?_ ?_ ?_ ?_ ?_⟩
    · split <;> rfl
    · split <;> rfl
    · intro n hn
      split <;> exact Function.update_of_ne (ne_of_mem_of_not_mem hprev hn).symm _ _
    · intro q _
      split <;> rfl
    · intro q hq
      split
      · exact Function.update_of_ne hq _ _
      · rfl
    · have hremove := Chain.removeAfter hchain
      rw [List.append_assoc]
      split <;> exact hremove
    · rw [← hassoc] at hchain hright
      have hright' : (trees.setSibling prevSibling (trees.sibling tree)).rightmostChild parent = _ := hright
      rw [List.append_assoc]
      split
      · rename_i hlast
        rw [hright', hchain.last_iff] at hlast
        rw [hlast, List.append_nil, List.getLast?_concat]
        exact Function.update_self ..
      · rename_i hlast
        rw [hright', hchain.last_iff] at hlast
        rw [hright', getLast?_append_cons hlast, List.singleton_append, getLast?_append_cons hlast]

/-- A child is taken out of the list of its parent and released. -/
theorem remove_linked (h : Linked trees children held ∅) (hwf : WellFounded fun n p => n ∈ children p) {parent tree : Node}
    {l l' : List Node} (hchildren : children parent = l ++ tree :: l') :
    ∃ trees' children', Settles (fun fuel => trees.remove fuel tree) trees' ∧
      GivenUp (Function.update children parent (l ++ l')) held [tree] children' ∧
      (∀ p, ∀ n ∈ children' p, n ∈ children p) ∧ Linked trees' children' held ∅ := by
  have htree : tree ∈ children parent := hchildren ▸ List.mem_append_right l List.mem_cons_self
  have hparent : trees.parent tree = some parent := (h.parent (Set.notMem_empty tree)).mpr htree
  have hmem : ∀ n ∈ l ++ l', n ∈ children parent := by
    intro n hn
    rw [hchildren]
    exact List.mem_append.mpr ((List.mem_append.mp hn).imp_right (List.mem_cons_of_mem tree))
  obtain ⟨trees₁, hsettles₁, hlinked₁⟩ := unlink_linked h hchildren
  obtain ⟨trees', children', hrel, hsettles, hlinked, -⟩ :=
    release_spec (fun p _ => mem_of_mem_update hmem p) hlinked₁ (Set.mem_singleton tree) (loopSpec hwf _)
  refine ⟨trees', children', (hsettles₁.bind
    (g := fun trees fuel => release fuel ((trees.setParent tree none).setSibling tree none) tree) hsettles).congr
      fun fuel => ?_, hrel.givenUp, fun p n hn => mem_of_mem_update hmem p (hrel.givenUp.subset p hn), ?_⟩
  · rw [remove, hparent]
    rfl
  · rwa [Set.sdiff_self] at hlinked

/-! ## Sorting -/

omit [DecidableEq Node] in
theorem countLoop_settles {first : Option Node} {l : List Node} (h : Chain trees.sibling first l) (cnt : Nat) :
    Settles (fun fuel => trees.countLoop fuel cnt first) (cnt + l.length) := by
  induction l generalizing first cnt with
  | nil =>
    refine Settles.succ ((Settles.const _).congr fun fuel => ?_)
    rw [show first = none from h]
    rfl
  | cons n l ih =>
    obtain ⟨hfirst, htail⟩ := h
    have hnext := ih htail (cnt + 1)
    rw [Nat.add_assoc, Nat.add_comm 1] at hnext
    refine Settles.succ (hnext.congr fun fuel => ?_)
    rw [hfirst]
    rfl

omit [DecidableEq Node] in
theorem getChildCount_settles (h : Links trees children) (tree : Node) :
    Settles (fun fuel => trees.getChildCount fuel tree) (children tree).length := by
  have hcount := countLoop_settles (h.chain tree) 0
  rwa [Nat.zero_add] at hcount

omit [DecidableEq Node] in
theorem listLoop_settles {first : Option Node} {l : List Node} (h : Chain trees.sibling first l) :
    Settles (fun fuel => trees.listLoop fuel first) l := by
  induction l generalizing first with
  | nil =>
    refine Settles.succ ((Settles.const _).congr fun fuel => ?_)
    rw [show first = none from h]
    rfl
  | cons n l ih =>
    obtain ⟨hfirst, htail⟩ := h
    have hcons := (ih htail).bind (g := fun list _ => some (n :: list)) (Settles.const _)
    refine Settles.succ (hcons.congr fun fuel => ?_)
    rw [hfirst]
    rfl

theorem linkLoop_eq (list : List Node) : trees.linkLoop list = { trees with sibling := linked trees.sibling list } := by
  induction list generalizing trees with
  | nil => rfl
  | cons n l ih =>
    cases l with
    | nil => rfl
    | cons m l =>
      rw [linkLoop, ih]
      rfl

/-- The children come in another order, for a total preorder in the stable
one. -/
theorem sortChildren_linked (h : Linked trees children held ∅) (tree : Node)
    (comparator : Node → Node → CFComparisonResult) :
    ∃ trees' list, Settles (fun fuel => trees.sortChildren fuel tree comparator) trees' ∧ list.Perm (children tree) ∧
      (TotalPreorder comparator → IsStableSort (NotAfter comparator) (children tree) list) ∧
      Linked trees' (Function.update children tree list) held ∅ := by
  obtain ⟨list, hsort, hperm, hstable⟩ :=
    sortArray_spec 0 (children tree) (fun h : sizeOfTreeRef < 1 => absurd h (by decide)) comparator
  have hcount := getChildCount_settles h.toLinks tree
  obtain ⟨m, hm⟩ := getChildCount_settles h.toLinks tree
  dsimp only at hm
  by_cases hfew : 1 < (children tree).length
  · have hne : list ≠ [] := fun hnil => by
      rw [← hperm.length_eq, hnil] at hfew
      exact absurd hfew (Nat.not_lt_zero 1)
    obtain ⟨n, hn⟩ := listLoop_settles (h.chain tree)
    dsimp only at hn
    refine ⟨{ trees with
        sibling := linked trees.sibling list
        child := Function.update trees.child tree list.head?
        rightmostChild := Function.update trees.rightmostChild tree list.getLast? }, list,
      ⟨max m n, fun fuel hfuel => ?_⟩, hperm, hstable, h.rearrange hperm rfl rfl ?_ ?_ ?_ ?_ ?_⟩
    · dsimp only
      rw [sortChildren, hm fuel (le_trans (le_max_left m n) hfuel)]
      simp only [Option.bind_eq_bind, Option.bind_some, if_pos hfew, hn fuel (le_trans (le_max_right m n) hfuel)]
      rw [qSortArray, hsort, Option.bind_some, linkLoop_eq]
      rfl
    · exact fun n hn => linked_of_notMem fun hl => hn (hperm.mem_iff.mp hl)
    · exact fun q hq => Function.update_of_ne hq _ _
    · exact fun q hq => Function.update_of_ne hq _ _
    · dsimp only
      rw [Function.update_self]
      exact linked_chain (hperm.nodup_iff.mpr (h.chain tree).nodup)
    · exact Function.update_self ..
  · -- at most one child: nothing moves, and the sorted list is the same
    have hsame : list = children tree := by
      cases hl : children tree with
      | nil => exact List.perm_nil.mp (hl ▸ hperm)
      | cons n l =>
        cases l with
        | nil => exact List.perm_singleton.mp (hl ▸ hperm)
        | cons m l =>
          rw [hl] at hfew
          exact absurd (Nat.lt_add_of_pos_left (Nat.succ_pos l.length)) hfew
    refine ⟨trees, list, ⟨m, fun fuel hfuel => ?_⟩, hperm, hstable, ?_⟩
    · dsimp only
      rw [sortChildren, hm fuel hfuel]
      simp only [Option.bind_eq_bind, Option.bind_some, if_neg hfew]
      rfl
    · rwa [hsame, Function.update_eq_self]

end CFLite.Tree
