import Mathlib.Algebra.Order.BigOperators.Group.Finset
import Mathlib.Data.Multiset.AddSub
import CFLite.Storage.Rules

/-!
# Reference counts

`Counted roots h held rank`: in the heap `h` the reference count of every node
but the roots is the number of child slots that point at it, plus the
references that the running function holds; no slot points at a deallocated
node, and no node was deallocated twice; and the tree has no cycle, since `rank` decreases from a node to its
children.

* `Counted.retain`, `Counted.release`, `Counted.remove`, `Counted.setChildren`,
  `Counted.create`: the changes of one node;
* `releaseNode_releases`: releasing a node keeps the counts, whatever is
  deallocated on the way;
* `Step`: what a piece of code does to a counted heap, and the `ensures_`
  lemmas of the pieces.
-/

namespace CFLite.Storage

open Framework Run

/-! ## Child slots -/

def CFStorageNode.children (value : CFStorageNode) : List NodeId := value.info.children

def Heap.children (h : Heap) (node : NodeId) : List NodeId :=
  match h.nodes node with
  | some value => value.children
  | none => []

/-- The number of child slots that point at the node. -/
def Heap.slots (h : Heap) (node : NodeId) : Nat :=
  ∑ parent ∈ Finset.range h.nextNode, (h.children parent).count node

theorem Heap.children_of_some {h : Heap} {n : NodeId} {v : CFStorageNode} (hv : h.nodes n = some v) :
    h.children n = v.children := by
  simp [Heap.children, hv]

theorem Heap.children_congr {h h' : Heap} {n : NodeId} (hn : h'.nodes n = h.nodes n) :
    h'.children n = h.children n := by
  simp [Heap.children, hn]

theorem Heap.count_le_slots {h : Heap} {n m : NodeId} (hn : n < h.nextNode) :
    (h.children n).count m ≤ h.slots m :=
  Finset.single_le_sum (f := fun p => (h.children p).count m) (fun _ _ => Nat.zero_le _) (Finset.mem_range.mpr hn)

/-- What a change of one node does to the number of slots. -/
theorem Heap.slots_change {h h' : Heap} {n : NodeId} (hnext : h'.nextNode = h.nextNode) (hn : n < h.nextNode)
    (hother : ∀ m, m ≠ n → h'.children m = h.children m) (m : NodeId) :
    h'.slots m + (h.children n).count m = h.slots m + (h'.children n).count m := by
  have hmem : n ∈ Finset.range h.nextNode := Finset.mem_range.mpr hn
  have hrest : ∑ p ∈ (Finset.range h.nextNode).erase n, (h'.children p).count m =
      ∑ p ∈ (Finset.range h.nextNode).erase n, (h.children p).count m :=
    Finset.sum_congr rfl fun p hp => by rw [hother p (Finset.ne_of_mem_erase hp)]
  have h₁ := Finset.add_sum_erase _ (fun p => (h'.children p).count m) hmem
  have h₂ := Finset.add_sum_erase _ (fun p => (h.children p).count m) hmem
  unfold Heap.slots
  rw [hnext, ← h₁, ← h₂, hrest]
  ac_rfl

/-- The number of slots depends on the children only. -/
theorem Heap.slots_congr {h h' : Heap} (hnext : h'.nextNode = h.nextNode)
    (hchildren : ∀ m, h'.children m = h.children m) (m : NodeId) : h'.slots m = h.slots m := by
  simp only [Heap.slots, hnext, hchildren]

/-! ## The invariant -/

/-- Nodes that were not allocated yet do not exist, and a node was deallocated
once if it does not exist any more, and not at all otherwise. -/
structure Allocated (h : Heap) : Prop where
  fresh : ∀ n, h.nextNode ≤ n → h.nodes n = none ∧ h.deallocations n = 0
  once : ∀ n, n < h.nextNode → h.deallocations n = if h.nodes n = none then 1 else 0

namespace Allocated

variable {h h' : Heap} {n : NodeId} {v : CFStorageNode}

theorem lt_nextNode (ha : Allocated h) (hv : h.nodes n = some v) : n < h.nextNode := by
  by_contra hlt
  rw [(ha.fresh n (Nat.le_of_not_lt hlt)).1] at hv
  cases hv

theorem deallocations_of_some (ha : Allocated h) (hv : h.nodes n = some v) : h.deallocations n = 0 := by
  rw [ha.once n (ha.lt_nextNode hv), hv]
  rfl

theorem congr (ha : Allocated h) (hnext : h'.nextNode = h.nextNode) (hdealloc : h'.deallocations = h.deallocations)
    (hnone : ∀ m, h'.nodes m = none ↔ h.nodes m = none) : Allocated h' := by
  refine ⟨fun m hm => ?_, fun m hm => ?_⟩
  · rw [hnone, hdealloc]
    exact ha.fresh m (hnext ▸ hm)
  · simp only [hnone, hdealloc]
    exact ha.once m (hnext ▸ hm)

theorem set (ha : Allocated h) (hv : h.nodes n = some v) (v' : CFStorageNode) : Allocated (h.set n (some v')) := by
  refine ha.congr rfl rfl fun m => ?_
  by_cases hm : m = n
  · subst hm
    simp [hv]
  · rw [Heap.set_nodes_of_ne hm]

theorem free (ha : Allocated h) (hv : h.nodes n = some v) : Allocated (h.free n) := by
  have hlt := ha.lt_nextNode hv
  refine ⟨fun m hm => ?_, fun m hm => ?_⟩
  · have hmn : m ≠ n := by
      rintro rfl
      exact absurd hlt (Nat.not_lt.mpr hm)
    rw [Heap.free_nodes_of_ne hmn, Heap.free_deallocations_of_ne hmn]
    exact ha.fresh m hm
  · by_cases hmn : m = n
    · subst hmn
      simp [ha.once m hlt, hv]
    · rw [Heap.free_nodes_of_ne hmn, Heap.free_deallocations_of_ne hmn]
      exact ha.once m hm

theorem create (ha : Allocated h) : Allocated (h.create v) := by
  refine ⟨fun m hm => ?_, fun m hm => ?_⟩
  · have hlt : h.nextNode < m := hm
    rw [Heap.create_nodes_of_ne (Nat.ne_of_gt hlt)]
    exact ha.fresh m (Nat.le_of_lt hlt)
  · rw [Heap.create_deallocations]
    by_cases hmn : m = h.nextNode
    · subst hmn
      rw [Heap.create_nodes_self, if_neg (by simp)]
      exact (ha.fresh _ le_rfl).2
    · rw [Heap.create_nodes_of_ne hmn]
      exact ha.once m (Nat.lt_of_le_of_ne (Nat.le_of_lt_succ hm) hmn)

end Allocated

structure Counted (roots : List NodeId) (h : Heap) (held : Multiset NodeId) (rank : NodeId → Nat) : Prop where
  allocated : Allocated h
  dead : ∀ n, h.nodes n = none → n ∉ roots ∧ h.slots n = 0 ∧ n ∉ held
  root : ∀ n v, h.nodes n = some v → n ∈ roots → v.refCount = 0 ∧ h.slots n = 0 ∧ n ∉ held
  count : ∀ n v, h.nodes n = some v → n ∉ roots → 0 < v.refCount ∧ v.refCount = h.slots n + held.count n
  ranked : ∀ p, ∀ c ∈ h.children p, rank c < rank p

variable {roots : List NodeId} {h h' : Heap} {held held' : Multiset NodeId} {rank rank' : NodeId → Nat}
  {n m : NodeId} {v : CFStorageNode}

namespace Counted

theorem lt_nextNode (hc : Counted roots h held rank) (hv : h.nodes n = some v) : n < h.nextNode :=
  hc.allocated.lt_nextNode hv

theorem fresh (hc : Counted roots h held rank) (hn : h.nextNode ≤ n) : h.nodes n = none :=
  (hc.allocated.fresh n hn).1

theorem exists_of_mem (hc : Counted roots h held rank) (hn : n ∈ held) : ∃ v, h.nodes n = some v := by
  cases hv : h.nodes n with
  | some v => exact ⟨v, rfl⟩
  | none => exact absurd hn (hc.dead n hv).2.2

theorem exists_root (hc : Counted roots h held rank) (hn : n ∈ roots) : ∃ v, h.nodes n = some v := by
  cases hv : h.nodes n with
  | some v => exact ⟨v, rfl⟩
  | none => exact absurd hn (hc.dead n hv).1

theorem not_mem_roots (hc : Counted roots h held rank) (hn : n ∈ held) : n ∉ roots := by
  obtain ⟨v, hv⟩ := hc.exists_of_mem hn
  exact fun hr => (hc.root n v hv hr).2.2 hn

theorem slots_pos (hc : Counted roots h held rank) {c : NodeId} (hch : c ∈ h.children n) : 0 < h.slots c := by
  have hn : n < h.nextNode := by
    by_contra hlt
    simp [Heap.children, hc.fresh (Nat.le_of_not_lt hlt)] at hch
  have hle := Heap.count_le_slots (m := c) hn
  have hpos := List.count_pos_iff.mpr hch
  omega

/-- A child is a node, and not a root. -/
theorem child (hc : Counted roots h held rank) {c : NodeId} (hch : c ∈ h.children n) :
    c ∉ roots ∧ ∃ v, h.nodes c = some v := by
  have hpos := hc.slots_pos hch
  cases hv : h.nodes c with
  | none =>
    have := (hc.dead c hv).2.1
    omega
  | some v =>
    refine ⟨fun hr => ?_, v, rfl⟩
    have := (hc.root c v hv hr).2.1
    omega

/-- The references may be listed in any order. -/
theorem congr (hc : Counted roots h held rank) (hheld : held' = held) : Counted roots h held' rank := by
  rwa [hheld]

/-- A change that keeps reference counts and children. -/
theorem of_skeleton (hc : Counted roots h held rank) (hnext : h'.nextNode = h.nextNode)
    (hdealloc : h'.deallocations = h.deallocations)
    (hskel : ∀ m, (h'.nodes m).map (fun v => (v.refCount, v.children)) =
      (h.nodes m).map fun v => (v.refCount, v.children)) : Counted roots h' held rank := by
  have hchildren : ∀ m, h'.children m = h.children m := by
    intro m
    have := hskel m
    unfold Heap.children
    cases h₁ : h'.nodes m <;> cases h₂ : h.nodes m <;> simp_all
  have hslots := Heap.slots_congr hnext hchildren
  have hnone : ∀ m, h'.nodes m = none → h.nodes m = none := by
    intro m hm
    simpa [hm] using hskel m
  have hsome : ∀ m v', h'.nodes m = some v' → ∃ v, h.nodes m = some v ∧ v.refCount = v'.refCount := by
    intro m v' hm
    have := hskel m
    cases h₂ : h.nodes m with
    | none => simp [hm, h₂] at this
    | some v =>
      simp only [hm, h₂, Option.map_some, Option.some.injEq, Prod.mk.injEq] at this
      exact ⟨v, rfl, this.1.symm⟩
  refine ⟨hc.allocated.congr hnext hdealloc fun m => ?_, fun m hm => ?_, fun m v' hm hr => ?_, fun m v' hm hr => ?_,
    fun p c hch => ?_⟩
  · have := hskel m
    cases h₁ : h'.nodes m <;> cases h₂ : h.nodes m <;> simp_all
  · rw [hslots]
    exact hc.dead m (hnone m hm)
  · obtain ⟨v, hv, hcount⟩ := hsome m v' hm
    rw [hslots, ← hcount]
    exact hc.root m v hv hr
  · obtain ⟨v, hv, hcount⟩ := hsome m v' hm
    rw [hslots, ← hcount]
    exact hc.count m v hv hr
  · rw [hchildren] at hch
    exact hc.ranked p c hch

/-- A node gets other children: the references to them are given up, and those
to the old children are held. -/
theorem setChildren (hc : Counted roots h held rank) {v' : CFStorageNode} (hv : h.nodes n = some v)
    (hcount : v'.refCount = v.refCount) (hheld : held + v.children = held' + v'.children)
    (hrank : ∀ c ∈ v'.children, rank c < rank n) : Counted roots (h.set n (some v')) held' rank := by
  have hn := hc.lt_nextNode hv
  have hother : ∀ m, m ≠ n → (h.set n (some v')).children m = h.children m := fun m hm =>
    Heap.children_congr (Heap.set_nodes_of_ne hm)
  have hself : (h.set n (some v')).children n = v'.children := Heap.children_of_some Heap.set_nodes_self
  have hold : h.children n = v.children := Heap.children_of_some hv
  have hslots : ∀ m, (h.set n (some v')).slots m + v.children.count m = h.slots m + v'.children.count m := by
    intro m
    have hchange := @Heap.slots_change h (h.set n (some v')) n rfl hn hother m
    rwa [hself, hold] at hchange
  have hcounts : ∀ m, held.count m + v.children.count m = held'.count m + v'.children.count m := by
    intro m
    have := congrArg (Multiset.count m) hheld
    simpa [Multiset.count_add] using this
  have hnew : ∀ c ∈ v'.children, c ∉ roots := by
    intro c hcm
    have hmem : c ∈ held + (v.children : Multiset NodeId) := by
      rw [hheld]
      exact Multiset.mem_add.mpr (.inr hcm)
    rcases Multiset.mem_add.mp hmem with hh | hch
    · exact hc.not_mem_roots hh
    · exact (hc.child (n := n) (by rw [hold]; exact hch)).1
  have hrootOld : ∀ m ∈ roots, v.children.count m = 0 := by
    intro m hm
    refine List.count_eq_zero.mpr fun hch => ?_
    exact (hc.child (n := n) (by rw [hold]; exact hch)).1 hm
  have hrootNew : ∀ m ∈ roots, v'.children.count m = 0 := fun m hm =>
    List.count_eq_zero.mpr fun hch => hnew m hch hm
  refine ⟨hc.allocated.set hv v', fun m hm => ?_, fun m w hm hr => ?_, fun m w hm hr => ?_, fun p c hch => ?_⟩
  · have hne : m ≠ n := by
      rintro rfl
      simp at hm
    rw [Heap.set_nodes_of_ne hne] at hm
    obtain ⟨hr, hs, hh⟩ := hc.dead m hm
    have h₁ := hslots m
    have h₂ := hcounts m
    have h₃ : held.count m = 0 := Multiset.count_eq_zero.mpr hh
    have h₄ : v.children.count m = 0 := by
      refine List.count_eq_zero.mpr fun hch => ?_
      obtain ⟨-, w, hw⟩ := hc.child (n := n) (c := m) (by rw [hold]; exact hch)
      rw [hm] at hw
      cases hw
    exact ⟨hr, by omega, Multiset.count_eq_zero.mp (by omega)⟩
  · have h₁ := hslots m
    have h₂ := hcounts m
    have h₃ := hrootOld m hr
    have h₄ := hrootNew m hr
    have hroot : ∃ w', h.nodes m = some w' ∧ w.refCount = w'.refCount := by
      by_cases hmn : m = n
      · subst hmn
        rw [Heap.set_nodes_self, Option.some.injEq] at hm
        exact ⟨v, hv, hm ▸ hcount⟩
      · rw [Heap.set_nodes_of_ne hmn] at hm
        exact ⟨w, hm, rfl⟩
    obtain ⟨w', hw', hcw⟩ := hroot
    obtain ⟨hz, hs, hh⟩ := hc.root m w' hw' hr
    have h₅ : held.count m = 0 := Multiset.count_eq_zero.mpr hh
    exact ⟨by omega, by omega, Multiset.count_eq_zero.mp (by omega)⟩
  · have h₁ := hslots m
    have h₂ := hcounts m
    have hnode : ∃ w', h.nodes m = some w' ∧ w.refCount = w'.refCount := by
      by_cases hmn : m = n
      · subst hmn
        rw [Heap.set_nodes_self, Option.some.injEq] at hm
        exact ⟨v, hv, hm ▸ hcount⟩
      · rw [Heap.set_nodes_of_ne hmn] at hm
        exact ⟨w, hm, rfl⟩
    obtain ⟨w', hw', hcw⟩ := hnode
    obtain ⟨hp, he⟩ := hc.count m w' hw' hr
    exact ⟨by omega, by omega⟩
  · by_cases hpn : p = n
    · subst hpn
      rw [hself] at hch
      exact hrank c hch
    · rw [hother p hpn] at hch
      exact hc.ranked p c hch

/-- A node gets another reference count. -/
theorem setCount (hc : Counted roots h held rank) {v' : CFStorageNode} (hv : h.nodes n = some v)
    (hn : n ∉ roots) (hchild : v'.children = v.children) (hpos : 0 < v'.refCount)
    (hcount : v'.refCount = h.slots n + held'.count n) (hheld : ∀ m, m ≠ n → held'.count m = held.count m) :
    Counted roots (h.set n (some v')) held' rank := by
  have hlt := hc.lt_nextNode hv
  have hchildren : ∀ m, (h.set n (some v')).children m = h.children m := by
    intro m
    by_cases hm : m = n
    · subst hm
      rw [Heap.children_of_some Heap.set_nodes_self, Heap.children_of_some hv, hchild]
    · exact Heap.children_congr (Heap.set_nodes_of_ne hm)
  have hslots : ∀ m, (h.set n (some v')).slots m = h.slots m := Heap.slots_congr rfl hchildren
  have hmem : ∀ m, m ≠ n → m ∉ held → m ∉ held' := by
    intro m hm hh
    rw [← Multiset.count_eq_zero] at hh ⊢
    rw [hheld m hm, hh]
  refine ⟨hc.allocated.set hv v', fun m hm => ?_, fun m w hm hr => ?_, fun m w hm hr => ?_, fun p c hch => ?_⟩
  · have hne : m ≠ n := by
      rintro rfl
      simp at hm
    rw [Heap.set_nodes_of_ne hne] at hm
    obtain ⟨h₁, h₂, h₃⟩ := hc.dead m hm
    exact ⟨h₁, (hslots m).trans h₂, hmem m hne h₃⟩
  · have hne : m ≠ n := by
      rintro rfl
      exact hn hr
    rw [Heap.set_nodes_of_ne hne] at hm
    obtain ⟨h₁, h₂, h₃⟩ := hc.root m w hm hr
    exact ⟨h₁, (hslots m).trans h₂, hmem m hne h₃⟩
  · rw [hslots]
    by_cases hne : m = n
    · subst hne
      rw [Heap.set_nodes_self, Option.some.injEq] at hm
      exact hm ▸ ⟨hpos, hcount⟩
    · rw [Heap.set_nodes_of_ne hne] at hm
      rw [hheld m hne]
      exact hc.count m w hm hr
  · rw [hchildren] at hch
    exact hc.ranked p c hch

theorem retain (hc : Counted roots h held rank) (hv : h.nodes n = some v) (hn : n ∉ roots) :
    Counted roots (h.set n (some { v with refCount := v.refCount + 1 })) (n ::ₘ held) rank := by
  have hcount := hc.count n v hv hn
  refine hc.setCount hv hn rfl (Nat.succ_pos _) ?_ fun m hm => Multiset.count_cons_of_ne hm held
  rw [Multiset.count_cons_self]
  show v.refCount + 1 = _
  omega

/-- A reference is given up, and others remain. -/
theorem release (hc : Counted roots h (n ::ₘ held) rank) (hv : h.nodes n = some v) (hone : v.refCount ≠ 1) :
    Counted roots (h.set n (some { v with refCount := v.refCount - 1 })) held rank := by
  have hn := hc.not_mem_roots (Multiset.mem_cons_self n held)
  have hcount := hc.count n v hv hn
  rw [Multiset.count_cons_self] at hcount
  refine hc.setCount hv hn rfl ?_ ?_ fun m hm => (Multiset.count_cons_of_ne hm held).symm
  · show 0 < v.refCount - 1
    omega
  · show v.refCount - 1 = _
    omega

/-- The last reference is given up: the node goes, and its children are held. -/
theorem remove (hc : Counted roots h (n ::ₘ held) rank) (hv : h.nodes n = some v) (hone : v.refCount = 1) :
    Counted roots (h.free n) ((v.children : Multiset NodeId) + held) rank := by
  have hn := hc.not_mem_roots (Multiset.mem_cons_self n held)
  have hlt := hc.lt_nextNode hv
  have hcount := hc.count n v hv hn
  rw [Multiset.count_cons_self, hone] at hcount
  have hother : ∀ m, m ≠ n → (h.free n).children m = h.children m := fun m hm =>
    Heap.children_congr (Heap.free_nodes_of_ne hm)
  have hself : (h.free n).children n = [] := by
    simp [Heap.children]
  have hold : h.children n = v.children := Heap.children_of_some hv
  have hslots : ∀ m, (h.free n).slots m + v.children.count m = h.slots m := by
    intro m
    have hchange := @Heap.slots_change h (h.free n) n rfl hlt hother m
    rwa [hself, hold, List.count_nil, Nat.add_zero] at hchange
  have hheld : ∀ m, m ≠ n → (n ::ₘ held).count m = held.count m := fun m hm => Multiset.count_cons_of_ne hm held
  have hadd : ∀ m, Multiset.count m ((v.children : Multiset NodeId) + held) = v.children.count m + held.count m := fun m => by
    rw [Multiset.count_add, Multiset.coe_count]
  have hchild : ∀ m, m ∈ roots ∨ h.nodes m = none → v.children.count m = 0 := by
    intro m hm
    refine List.count_eq_zero.mpr fun hch => ?_
    obtain ⟨hr, w, hw⟩ := hc.child (n := n) (by rw [hold]; exact hch)
    rcases hm with hm | hm
    · exact hr hm
    · rw [hm] at hw
      cases hw
  have hloop : v.children.count n = 0 := by
    refine List.count_eq_zero.mpr fun hch => ?_
    exact Nat.lt_irrefl _ (hc.ranked n n (by rw [hold]; exact hch))
  refine ⟨hc.allocated.free hv, fun m hm => ?_, fun m w hm hr => ?_, fun m w hm hr => ?_, fun p c hch => ?_⟩
  · have h₁ := hslots m
    have h₂ := hadd m
    by_cases hmn : m = n
    · subst hmn
      exact ⟨hn, by omega, Multiset.count_eq_zero.mp (by omega)⟩
    · rw [Heap.free_nodes_of_ne hmn] at hm
      obtain ⟨hr, hs, hh⟩ := hc.dead m hm
      have h₃ := hchild m (.inr hm)
      rw [← Multiset.count_eq_zero, hheld m hmn] at hh
      exact ⟨hr, by omega, Multiset.count_eq_zero.mp (by omega)⟩
  · have hmn : m ≠ n := by
      rintro rfl
      exact hn hr
    rw [Heap.free_nodes_of_ne hmn] at hm
    obtain ⟨hz, hs, hh⟩ := hc.root m w hm hr
    have h₁ := hslots m
    have h₂ := hadd m
    have h₃ := hchild m (.inl hr)
    rw [← Multiset.count_eq_zero, hheld m hmn] at hh
    exact ⟨hz, by omega, Multiset.count_eq_zero.mp (by omega)⟩
  · have hmn : m ≠ n := by
      rintro rfl
      simp at hm
    rw [Heap.free_nodes_of_ne hmn] at hm
    have h₁ := hslots m
    have h₂ := hadd m
    have h₃ := hc.count m w hm hr
    rw [hheld m hmn] at h₃
    exact ⟨h₃.1, by omega⟩
  · by_cases hpn : p = n
    · subst hpn
      rw [hself] at hch
      cases hch
    · rw [hother p hpn] at hch
      exact hc.ranked p c hch

end Counted

/-! ## Releasing -/

/-- What a release leaves of a heap: nodes of rank at most `r` have lost
references, or are deallocated. -/
structure Released (rank : NodeId → Nat) (r : Nat) (h h' : Heap) : Prop where
  next : h'.nextNode = h.nextNode
  cache : h'.cacheNode = h.cacheNode
  node : ∀ m, h'.nodes m = none ∨
    ∃ v c, h.nodes m = some v ∧ h'.nodes m = some { v with refCount := c } ∧ c ≤ v.refCount
  above : ∀ m, r < rank m → h'.nodes m = h.nodes m

theorem Released.refl {r : Nat} : Released rank r h h where
  next := rfl
  cache := rfl
  node m := by
    cases hv : h.nodes m with
    | none => exact .inl rfl
    | some v => exact .inr ⟨v, v.refCount, rfl, rfl, le_rfl⟩
  above _ _ := rfl

theorem Released.trans {r : Nat} {h₁ h₂ : Heap} (ha : Released rank r h h₁) (hb : Released rank r h₁ h₂) :
    Released rank r h h₂ where
  next := hb.next.trans ha.next
  cache := hb.cache.trans ha.cache
  node m := by
    rcases hb.node m with hd | ⟨v₁, c, hv₁, hv₂, hle⟩
    · exact .inl hd
    · rcases ha.node m with hd | ⟨v, c', hv, hv', hle'⟩
      · rw [hd] at hv₁
        cases hv₁
      · rw [hv', Option.some.injEq] at hv₁
        subst hv₁
        exact .inr ⟨v, c, hv, hv₂, hle.trans hle'⟩
  above m hm := (hb.above m hm).trans (ha.above m hm)

theorem Released.mono {r r' : Nat} (hrel : Released rank r h h') (hr : r ≤ r') : Released rank r' h h' :=
  { hrel with above := fun m hm => hrel.above m (hr.trans_lt hm) }

theorem Released.none {r : Nat} (hrel : Released rank r h h') (hn : h.nodes n = none) : h'.nodes n = none := by
  rcases hrel.node n with hd | ⟨v, c, hv, -⟩
  · exact hd
  · rw [hn] at hv
    cases hv

/-- The heaps agree in all nodes but those in `S`. -/
structure AgreeOff (S : NodeId → Prop) (h k : Heap) : Prop where
  next : k.nextNode = h.nextNode
  cache : k.cacheNode = h.cacheNode
  record : ∀ m, ¬S m → k.record m = h.record m

/-- A release works on a heap `k` as on a heap `h` that differs from it in
nodes that the release does not come to: nodes that `h` does not have, as the
ones that are being deallocated, and nodes above the released one. -/
def ReleasesAs (t : Prop) (E : Event → Prop) (roots : List NodeId) (rank : NodeId → Nat) (r : Nat) (x : Op PUnit)
    (given : Multiset NodeId) : Prop :=
  ∀ (S : NodeId → Prop) (h k : Heap) (held : Multiset NodeId), Counted roots h (given + held) rank →
    AgreeOff S h k → (∀ m, S m → h.nodes m = none ∨ r < rank m) →
    Wp t E x k fun _ k' => ∃ h', AgreeOff S h' k' ∧
      (∀ m, S m → k'.record m = k.record m) ∧
      Counted roots h' held rank ∧ Released rank r h h'

theorem ReleasesAs.forM {t : Prop} {E : Event → Prop} {r : Nat} {release : NodeId → Op PUnit}
    {child : List NodeId} (hrelease : ∀ c ∈ child, ReleasesAs t E roots rank r (release c) {c}) :
    ReleasesAs t E roots rank r (child.forM release) child := by
  intro S h k held hc hk hS
  induction child generalizing h k with
  | nil =>
    refine wp_forM_nil.mpr ⟨h, hk, fun _ _ => rfl, ?_, .refl⟩
    simpa using hc
  | cons c child ih =>
    rw [wp_forM_cons]
    have hc' : Counted roots h ({c} + ((child : Multiset NodeId) + held)) rank := by
      refine hc.congr ?_
      rw [← Multiset.cons_coe, Multiset.singleton_add, Multiset.cons_add]
    refine (hrelease c List.mem_cons_self S h k _ hc' hk hS).mono ?_
    rintro - k₁ ⟨h₁, hk₁, hkeep₁, hc₁, hrel₁⟩
    have hS₁ : ∀ m, S m → h₁.nodes m = none ∨ r < rank m := fun m hm => (hS m hm).imp_left hrel₁.none
    refine (ih (fun c' hc' => hrelease c' (List.mem_cons_of_mem _ hc')) h₁ k₁ hc₁ hk₁ hS₁).mono ?_
    rintro - k₂ ⟨h₂, hk₂, hkeep₂, hc₂, hrel₂⟩
    exact ⟨h₂, hk₂, fun m hm => (hkeep₂ m hm).trans (hkeep₁ m hm), hc₂, hrel₁.trans hrel₂⟩

theorem ReleasesAs.mono {t : Prop} {E : Event → Prop} {r r' : Nat} {x : Op PUnit} {given : Multiset NodeId}
    (hx : ReleasesAs t E roots rank r x given) (hr : r ≤ r') : ReleasesAs t E roots rank r' x given := by
  intro S h k held hc hk hS
  refine (hx S h k held hc hk fun m hm => (hS m hm).imp_right hr.trans_lt).mono ?_
  rintro - k' ⟨h', hk', hkeep, hc', hrel⟩
  exact ⟨h', hk', hkeep, hc', hrel.mono hr⟩

theorem releaseNode_releases {t : Prop} {E : Event → Prop} {depth : Nat} (hdepth : t → rank n < depth) : ReleasesAs t E roots rank (rank n) (releaseNode depth n) {n} := by
  induction depth generalizing n with
  | zero =>
    intro S h k held hc hk hS
    simp only [releaseNode, wp_outOfFuel]
    exact fun ht => Nat.not_lt_zero _ (hdepth ht)
  | succ depth ih =>
    intro S h k held hc hk hS
    rw [Multiset.singleton_add] at hc
    obtain ⟨v, hv⟩ := hc.exists_of_mem (Multiset.mem_cons_self n held)
    have hnS : ¬S n := by
      intro hSn
      rcases hS n hSn with hd | hlt
      · rw [hd] at hv
        cases hv
      · exact Nat.lt_irrefl _ hlt
    have hkv : k.nodes n = some v := (Heap.nodes_of_record (hk.record n hnS)).trans hv
    have hpos := (hc.count n v hv (hc.not_mem_roots (Multiset.mem_cons_self n held))).1
    rw [releaseNode, wp_bind, wp_deref_of hkv, if_pos hpos, wp_bind, wp_assign]
    split
    · rename_i hlast
      have hone : v.refCount = 1 := by omega
      have hc₁ := hc.remove hv hone
      set k₁ := k.set n (some { v with refCount := v.refCount - 1 }) with hk₁
      have hkv₁ : k₁.nodes n = some { v with refCount := v.refCount - 1 } := Heap.set_nodes_self
      -- the children are released while the node still has its slots
      have hagree : AgreeOff (fun m => S m ∨ m = n) (h.free n) k₁ := by
        refine ⟨hk.next, hk.cache, fun m hm => ?_⟩
        rw [not_or] at hm
        rw [Heap.set_record_of_ne hm.2, Heap.free_record_of_ne hm.2, hk.record m hm.1]
      have hhidden : ∀ m, S m ∨ m = n → (h.free n).nodes m = none ∨ rank n < rank m := by
        rintro m (hm | rfl)
        · by_cases hmn : m = n
          · exact absurd (hmn ▸ hm) hnS
          · rw [Heap.free_nodes_of_ne hmn]
            exact hS m hm
        · exact .inl Heap.free_nodes_self
      have hchildren : ReleasesAs t E roots rank (rank n) (v.children.forM (releaseNode depth)) v.children :=
        ReleasesAs.forM fun c hcm => by
          have hlt : rank c < rank n := hc.ranked n c (by rw [Heap.children_of_some hv]; exact hcm)
          exact (ih fun ht => by have := hdepth ht; omega).mono hlt.le
      have hrel := hchildren _ _ _ _ hc₁ hagree hhidden
      rw [deallocateNode, wp_bind, wp_deref_of hkv₁, wp_bind]
      refine hrel.mono ?_
      rintro - k₂ ⟨h₂, hk₂, hkeep, hc₂, hrel₂⟩
      rw [wp_modify]
      have hdead : h₂.nodes n = none := hrel₂.none Heap.free_nodes_self
      have hcount : k₂.deallocations n = h.deallocations n := by
        have h₁ := congrArg Prod.snd (hkeep n (.inr rfl))
        have h₂ := congrArg Prod.snd (hk.record n hnS)
        exact h₁.trans h₂
      have hdone : h₂.deallocations n = h.deallocations n + 1 := by
        rw [hc₂.allocated.once n (hrel₂.next ▸ hc.lt_nextNode hv), hc.allocated.once n (hc.lt_nextNode hv), hdead, hv]
        rfl
      refine ⟨h₂, ⟨hk₂.next, hk₂.cache, fun m hm => ?_⟩, fun m hm => ?_, hc₂, ?_⟩
      · by_cases hmn : m = n
        · subst hmn
          rw [Heap.record, Heap.record, Heap.free_nodes_self, Heap.free_deallocations_self, hcount, hdead, hdone]
        · rw [Heap.free_record_of_ne hmn]
          exact hk₂.record m (by rw [not_or]; exact ⟨hm, hmn⟩)
      · have hmn : m ≠ n := by
          rintro rfl
          exact hnS hm
        rw [Heap.free_record_of_ne hmn, hkeep m (.inl hm), Heap.set_record_of_ne hmn]
      · refine ⟨hrel₂.next, hrel₂.cache, fun m => ?_, fun m hm => ?_⟩
        · by_cases hmn : m = n
          · subst hmn
            exact .inl hdead
          · have := hrel₂.node m
            rwa [Heap.free_nodes_of_ne hmn] at this
        · rw [hrel₂.above m hm, Heap.free_nodes_of_ne (by rintro rfl; exact Nat.lt_irrefl _ hm)]
    · rename_i hmore
      rw [wp_pure]
      have hone : v.refCount ≠ 1 := by omega
      refine ⟨h.set n (some { v with refCount := v.refCount - 1 }), ⟨hk.next, hk.cache, fun m hm => ?_⟩,
        fun m hm => ?_, hc.release hv hone, rfl, rfl, fun m => ?_, fun m hm => ?_⟩
      · by_cases hmn : m = n
        · subst hmn
          have hcount := congrArg Prod.snd (hk.record m hm)
          rw [Heap.record, Heap.record, Heap.set_nodes_self, Heap.set_nodes_self]
          exact Prod.ext rfl hcount
        · rw [Heap.set_record_of_ne hmn, Heap.set_record_of_ne hmn, hk.record m hm]
      · rw [Heap.set_record_of_ne (by rintro rfl; exact hnS hm)]
      · by_cases hmn : m = n
        · subst hmn
          exact .inr ⟨v, v.refCount - 1, hv, Heap.set_nodes_self, Nat.sub_le _ _⟩
        · rw [Heap.set_nodes_of_ne hmn]
          exact (Released.refl : Released rank 0 h h).node m
      · rw [Heap.set_nodes_of_ne (by rintro rfl; exact Nat.lt_irrefl _ hm)]

/-! ## Steps -/

/-- What a step on nodes of rank at most `r` does: new nodes get a rank, and
nodes of a higher rank are as before. -/
structure Step (roots : List NodeId) (r : Nat) (rank : NodeId → Nat) (h : Heap) (rank' : NodeId → Nat) (h' : Heap)
    (held' : Multiset NodeId) : Prop where
  counted : Counted roots h' held' rank'
  next : h.nextNode ≤ h'.nextNode
  rank_eq : ∀ m, m < h.nextNode → rank' m = rank m
  above : ∀ m, m < h.nextNode → r < rank m → h'.nodes m = h.nodes m

/-- Only data of nodes in `P` changed, no reference count and no child. -/
structure DataStep (P : NodeId → Prop) (h h' : Heap) : Prop where
  next : h'.nextNode = h.nextNode
  dealloc : h'.deallocations = h.deallocations
  node : ∀ m, ¬P m → h'.nodes m = h.nodes m
  skeleton : ∀ m, (h'.nodes m).map (fun v => (v.refCount, v.children)) =
    (h.nodes m).map fun v => (v.refCount, v.children)

variable {r r' : Nat} {h₁ h₂ : Heap} {rank₁ rank₂ : NodeId → Nat} {held₁ held₂ : Multiset NodeId}
  {P : NodeId → Prop}

theorem Step.trans (ha : Step roots r rank h rank₁ h₁ held₁) (hb : Step roots r rank₁ h₁ rank₂ h₂ held₂) :
    Step roots r rank h rank₂ h₂ held₂ where
  counted := hb.counted
  next := ha.next.trans hb.next
  rank_eq m hm := (hb.rank_eq m (hm.trans_le ha.next)).trans (ha.rank_eq m hm)
  above m hm hr := (hb.above m (hm.trans_le ha.next) (by rwa [ha.rank_eq m hm])).trans (ha.above m hm hr)

theorem Step.mono (hs : Step roots r rank h rank₁ h₁ held₁) (hr : r ≤ r') : Step roots r' rank h rank₁ h₁ held₁ :=
  { hs with above := fun m hm hr' => hs.above m hm (hr.trans_lt hr') }

theorem Step.congr (hs : Step roots r rank h rank₁ h₁ held₁) (hheld : held₂ = held₁) :
    Step roots r rank h rank₁ h₁ held₂ := by
  rwa [hheld]

theorem Counted.step (hc : Counted roots h held rank) : Step roots r rank h rank h held :=
  ⟨hc, le_rfl, fun _ _ => rfl, fun _ _ _ => rfl⟩

theorem DataStep.refl : DataStep P h h := ⟨rfl, rfl, fun _ _ => rfl, fun _ => rfl⟩

theorem DataStep.trans (ha : DataStep P h h₁) (hb : DataStep P h₁ h₂) : DataStep P h h₂ where
  next := hb.next.trans ha.next
  dealloc := hb.dealloc.trans ha.dealloc
  node m hm := (hb.node m hm).trans (ha.node m hm)
  skeleton m := (hb.skeleton m).trans (ha.skeleton m)

theorem DataStep.mono {P' : NodeId → Prop} (hd : DataStep P h h') (hP : ∀ m, P m → P' m) : DataStep P' h h' :=
  { hd with node := fun m hm => hd.node m fun hp => hm (hP m hp) }

theorem DataStep.set {v' : CFStorageNode} (hv : h.nodes n = some v) (hcount : v'.refCount = v.refCount)
    (hchild : v'.children = v.children) (hn : P n) : DataStep P h (h.set n (some v')) where
  next := rfl
  dealloc := rfl
  node m hm := Heap.set_nodes_of_ne (by rintro rfl; exact hm hn)
  skeleton m := by
    by_cases hm : m = n
    · subst hm
      simp [hv, hcount, hchild]
    · rw [Heap.set_nodes_of_ne hm]

theorem Counted.data (hc : Counted roots h held rank) (hd : DataStep P h h') (hP : ∀ m, P m → rank m ≤ r) :
    Step roots r rank h rank h' held where
  counted := hc.of_skeleton hd.next hd.dealloc hd.skeleton
  next := hd.next.ge
  rank_eq _ _ := rfl
  above m _ hr := hd.node m fun hp => Nat.not_lt.mpr (hP m hp) hr

theorem Counted.released (hc : Counted roots h' held' rank) (hrel : Released rank r h h') :
    Step roots r rank h rank h' held' :=
  ⟨hc, hrel.next.ge, fun _ _ => rfl, fun m _ hr => hrel.above m hr⟩

/-- A new node is held. It gets any rank. -/
theorem Counted.create (hc : Counted roots h held rank) (hv : v.refCount = 1) (hchild : v.children = [])
    (r : Nat) : Step roots r rank h (Function.update rank h.nextNode r) (h.create v) (h.nextNode ::ₘ held) := by
  have hdead := hc.dead h.nextNode (hc.fresh le_rfl)
  have hne : ∀ m, m < h.nextNode → m ≠ h.nextNode := fun m hm => by
    rintro rfl
    exact Nat.lt_irrefl _ hm
  have hchildren : ∀ m, (h.create v).children m = h.children m := by
    intro m
    by_cases hm : m = h.nextNode
    · subst hm
      rw [Heap.children_of_some Heap.create_nodes_self, hchild]
      simp [Heap.children, hc.fresh le_rfl]
    · exact Heap.children_congr (Heap.create_nodes_of_ne hm)
  have hslots : ∀ m, (h.create v).slots m = h.slots m := by
    intro m
    have hnone : h.children h.nextNode = [] := by simp [Heap.children, hc.fresh le_rfl]
    simp only [Heap.slots, Heap.create_nextNode, hchildren]
    rw [Finset.sum_range_succ, hnone, List.count_nil, Nat.add_zero]
  have hlt : ∀ p, ∀ c ∈ h.children p, p < h.nextNode ∧ c < h.nextNode := by
    intro p c hch
    obtain ⟨-, w, hw⟩ := hc.child hch
    refine ⟨?_, hc.lt_nextNode hw⟩
    by_contra hlt
    simp [Heap.children, hc.fresh (Nat.le_of_not_lt hlt)] at hch
  refine ⟨⟨hc.allocated.create, fun m hm => ?_, fun m w hm hr => ?_, fun m w hm hr => ?_, fun p c hch => ?_⟩,
    Nat.le_succ _, fun m hm => Function.update_of_ne (hne m hm) _ _, fun m hm _ =>
      Heap.create_nodes_of_ne (hne m hm)⟩
  · have hmn : m ≠ h.nextNode := by
      rintro rfl
      simp at hm
    rw [Heap.create_nodes_of_ne hmn] at hm
    obtain ⟨h₁, h₂, h₃⟩ := hc.dead m hm
    exact ⟨h₁, (hslots m).trans h₂, by simp [hmn, h₃]⟩
  · have hmn : m ≠ h.nextNode := by
      rintro rfl
      exact hdead.1 hr
    rw [Heap.create_nodes_of_ne hmn] at hm
    obtain ⟨h₁, h₂, h₃⟩ := hc.root m w hm hr
    exact ⟨h₁, (hslots m).trans h₂, by simp [hmn, h₃]⟩
  · rw [hslots]
    by_cases hmn : m = h.nextNode
    · subst hmn
      rw [Heap.create_nodes_self, Option.some.injEq] at hm
      subst hm
      rw [hv, hdead.2.1, Multiset.count_cons_self, Multiset.count_eq_zero_of_notMem hdead.2.2]
      exact ⟨Nat.one_pos, rfl⟩
    · rw [Heap.create_nodes_of_ne hmn] at hm
      rw [Multiset.count_cons_of_ne hmn]
      exact hc.count m w hm hr
  · rw [hchildren] at hch
    obtain ⟨hp, hcl⟩ := hlt p c hch
    rw [Function.update_of_ne (hne p hp), Function.update_of_ne (hne c hcl)]
    exact hc.ranked p c hch

/-! ## The steps of the code -/

theorem ensures_deref {Q : CFStorageNode → Heap → Prop} (hQ : ∀ v, h.nodes n = some v → Q v h) :
    Ensures (deref n) h Q :=
  wp_deref.mpr ⟨hQ, False.elim⟩

theorem ensures_derefLeaf {Q : Leaf → Heap → Prop}
    (hQ : ∀ v leaf, h.nodes n = some v → v.info = .leaf leaf → Q leaf h) : Ensures (derefLeaf n) h Q :=
  wp_derefLeaf.mpr ⟨hQ, False.elim⟩

theorem ensures_derefChildren {Q : List NodeId → Heap → Prop}
    (hQ : ∀ v child, h.nodes n = some v → v.info = .notLeaf child → Q child h) :
    Ensures (derefChildren n) h Q := by
  rw [derefChildren, Ensures, wp_bind]
  refine ensures_deref fun v hv => ?_
  cases hi : v.info with
  | leaf leaf => simp
  | notLeaf child => simpa using hQ v child hv hi

theorem ensures_numBytes {Q : Nat → Heap → Prop} (hQ : ∀ v, h.nodes n = some v → Q v.numBytes h) :
    Ensures (numBytes n) h Q := by
  rw [numBytes, Ensures, wp_bind]
  exact ensures_deref fun v hv => wp_pure.mpr (hQ v hv)

theorem ensures_assignNumBytes {bytes : Nat} (hn : P n) :
    Ensures (assignNumBytes n bytes) h fun _ h' => DataStep P h h' := by
  rw [assignNumBytes, Ensures, wp_bind]
  exact ensures_deref fun v hv => wp_assign.mpr (DataStep.set hv rfl rfl hn)

theorem ensures_allocLeafNodeMemory {storage : CFStorage} {cap : Nat} {compact : Bool} (hn : P n) :
    Ensures (allocLeafNodeMemory storage n cap compact) h fun _ h' => DataStep P h h' := by
  rw [allocLeafNodeMemory, Ensures, wp_bind]
  refine ensures_derefLeaf fun v leaf hv hl => ?_
  rw [wp_assignLeaf_of hv]
  exact DataStep.set hv rfl (by simp [CFStorageNode.children, Info.children, hl]) hn

theorem ensures_copyMem {source : NodeId} {i j k : Nat} (hn : P n) :
    Ensures (copyMem source i n j k) h fun _ h' => DataStep P h h' := by
  rw [copyMem, Ensures, wp_bind]
  refine ensures_derefLeaf fun _ _ _ _ => ?_
  rw [wp_bind]
  refine ensures_derefLeaf fun v leaf hv hl => ?_
  rw [wp_bind, wp_emit, wp_assignLeaf_of hv]
  exact ⟨trivial, DataStep.set hv rfl (by simp [CFStorageNode.children, Info.children, hl]) hn⟩

theorem ensures_setCache {storage : CFStorage} {loc : Nat} (hn : P n) :
    Ensures (setCache storage n loc) h fun _ h' => DataStep P h h' := by
  rw [setCache, Ensures, wp_bind]
  refine ensures_derefLeaf fun v leaf hv hl => ?_
  rw [wp_bind, wp_numBytes_of hv, wp_bind, wp_assignLeaf_of hv, wp_modify]
  have hd : DataStep P h (h.set n (some { v with info := .leaf { leaf with
      cachedRange := convertBytesToValueRange storage loc v.numBytes } })) :=
    DataStep.set hv rfl (by simp [CFStorageNode.children, Info.children, hl]) hn
  exact ⟨hd.next, hd.dealloc, hd.node, hd.skeleton⟩

/-- Two data steps one after the other. -/
theorem ensures_data_bind {α : Type} {x : Op Unit} {f : Unit → Op α} {Q : α → Heap → Prop}
    (hx : Ensures x h fun _ h' => DataStep P h h')
    (hf : ∀ h', DataStep P h h' → Ensures (f ()) h' Q) : Ensures (x >>= f) h Q :=
  wp_bind.mpr (hx.mono fun _ h' hd => hf h' hd)

theorem ensures_when {c : Prop} [Decidable c] {x : Op Unit} (hx : c → Ensures x h fun _ h' => DataStep P h h') :
    Ensures (when c x) h fun _ h' => DataStep P h h' :=
  wp_when.mpr ⟨hx, fun _ => .refl⟩

theorem DataStep.children (hd : DataStep P h h') : h'.children n = h.children n := by
  have := hd.skeleton n
  unfold Heap.children
  cases h₁ : h'.nodes n <;> cases h₂ : h.nodes n <;> simp_all

theorem Heap.children_of_leaf {leaf : Leaf} (hv : h.nodes n = some v) (hl : v.info = .leaf leaf) :
    h.children n = [] := by
  rw [Heap.children_of_some hv, CFStorageNode.children, hl, Info.children]

theorem ensures_assignLeaf {leaf : Leaf} (hnil : h.children n = []) (hn : P n) :
    Ensures (assignLeaf n leaf) h fun _ h' => DataStep P h h' := by
  rw [assignLeaf, Ensures, wp_bind]
  refine ensures_deref fun v hv => wp_assign.mpr (DataStep.set hv rfl ?_ hn)
  rw [← Heap.children_of_some hv, hnil]
  rfl

theorem ensures_retainNode (hc : Counted roots h held rank) (hn : n ∉ roots) (hr : rank n ≤ r) :
    Ensures (retainNode n) h fun _ h' => Step roots r rank h rank h' (n ::ₘ held) := by
  rw [retainNode, Ensures, wp_bind]
  refine ensures_deref fun v hv => ?_
  rw [if_pos (hc.count n v hv hn).1, wp_assign]
  refine ⟨hc.retain hv hn, le_rfl, fun _ _ => rfl, fun m _ hm => Heap.set_nodes_of_ne ?_⟩
  rintro rfl
  exact Nat.not_lt.mpr hr hm

theorem ensures_retainAll {child : List NodeId} (hc : Counted roots h held rank)
    (hchild : ∀ c ∈ child, c ∉ roots ∧ rank c ≤ r) :
    Ensures (child.forM retainNode) h fun _ h' => Step roots r rank h rank h' ((child : Multiset NodeId) + held) := by
  induction child generalizing h held with
  | nil => exact wp_forM_nil.mpr (hc.step.congr (by simp))
  | cons c child ih =>
    obtain ⟨hroot, hr⟩ := hchild c List.mem_cons_self
    rw [Ensures, wp_forM_cons]
    refine (ensures_retainNode hc hroot hr).mono fun _ h₁ hs₁ => ?_
    refine (ih hs₁.counted fun c' hc' => hchild c' (List.mem_cons_of_mem _ hc')).mono fun _ h₂ hs₂ => ?_
    refine (hs₁.trans hs₂).congr ?_
    rw [← Multiset.cons_coe, Multiset.cons_add, Multiset.add_cons]

/-- Only the nodes that are retained change. -/
theorem ensures_retainAll_others {child : List NodeId} :
    Ensures (child.forM retainNode) h fun _ h' => ∀ m, m ∉ child → h'.nodes m = h.nodes m := by
  induction child generalizing h with
  | nil => exact wp_forM_nil.mpr fun _ _ => rfl
  | cons c child ih =>
    rw [Ensures, wp_forM_cons, retainNode, wp_bind]
    refine ensures_deref fun v hv => wp_ite.mpr ⟨fun _ => ?_, fun _ => ?_⟩
    · refine wp_assign.mpr (ih.mono fun _ h₂ hkeep m hm => ?_)
      rw [List.mem_cons, not_or] at hm
      rw [hkeep m hm.2, Heap.set_nodes_of_ne hm.1]
    · exact wp_pure.mpr (ih.mono fun _ h₂ hkeep m hm => hkeep m fun hc => hm (List.mem_cons_of_mem _ hc))

theorem ensures_freezeNode (hn : P n) : Ensures (freezeNode n) h fun _ h' => DataStep P h h' := by
  rw [freezeNode, Ensures, wp_bind]
  exact ensures_deref fun v hv => wp_assign.mpr (DataStep.set hv rfl rfl hn)

theorem ensures_freezeAll {child : List NodeId} (hchild : ∀ c ∈ child, P c) :
    Ensures (child.forM freezeNode) h fun _ h' => DataStep P h h' := by
  induction child generalizing h with
  | nil => exact wp_forM_nil.mpr .refl
  | cons c child ih =>
    rw [Ensures, wp_forM_cons]
    refine (ensures_freezeNode (hchild c List.mem_cons_self)).mono fun _ h₁ hd₁ => ?_
    exact (ih fun c' hc' => hchild c' (List.mem_cons_of_mem _ hc')).mono fun _ h₂ hd₂ => hd₁.trans hd₂

/-- A node that stays frozen is as before; only the flag of another one changed. -/
theorem ensures_staysFrozen (hn : P n) : Ensures (staysFrozen n) h fun _ h' => DataStep P h h' := by
  rw [staysFrozen, Ensures, wp_bind]
  refine ensures_deref fun v hv => wp_ite.mpr ⟨fun _ => ?_, fun _ => wp_pure.mpr .refl⟩
  rw [thawNodeDuringMutation, wp_bind, wp_bind, wp_deref_of hv]
  split
  · rw [wp_bind, wp_assign, wp_pure, wp_pure]
    exact DataStep.set hv rfl rfl hn
  · rw [wp_pure, wp_pure]
    exact .refl

theorem ensures_release {depth : Nat} (hc : Counted roots h (n ::ₘ held) rank) (hr : rank n ≤ r) :
    Ensures (releaseNode depth n) h fun _ h' => Step roots r rank h rank h' held := by
  have hrel : ReleasesAs False (fun _ => True) roots rank (rank n) (releaseNode depth n) {n} :=
    releaseNode_releases False.elim
  refine (hrel (fun _ => False) h h held (by simpa using hc) ⟨rfl, rfl, fun _ _ => rfl⟩ fun _ => False.elim).mono ?_
  rintro - k ⟨h', hk, -, hc', hrel'⟩
  have : k = h' := Heap.ext_record hk.next hk.cache fun m => hk.record m not_false
  subst this
  exact (hc'.released hrel').mono hr

theorem ensures_childAt {child : List NodeId} {i : Nat} {Q : NodeId → Heap → Prop}
    (hQ : ∀ c, child[i]? = some c → Q c h) : Ensures (childAt child i) h Q := by
  unfold childAt
  cases hi : child[i]? with
  | none => exact wp_halt.mpr not_false
  | some c => exact wp_pure.mpr (hQ c hi)

/-- The child that is found is the one with the number that is returned. -/
theorem ensures_findChild {byteNum : Nat} {flag : Bool} :
    Ensures (findChild n byteNum flag) h fun found h' => h' = h ∧
      ∃ v child, h.nodes n = some v ∧ v.info = .notLeaf child ∧ child[found.2.1]? = some found.1 := by
  rw [findChild, Ensures, wp_bind]
  refine ensures_derefChildren fun v child hv hi => ?_
  rw [wp_bind]
  refine ensures_childAt fun c₀ h₀ => ?_
  rw [wp_bind]
  refine ensures_numBytes fun v₀ _ => wp_ite.mpr ⟨fun _ => wp_pure.mpr ⟨rfl, v, child, hv, hi, h₀⟩, fun _ => ?_⟩
  rw [wp_bind]
  refine ensures_childAt fun c₁ h₁ => ?_
  rw [wp_bind]
  refine ensures_numBytes fun v₁ _ => wp_ite.mpr ⟨fun _ => wp_pure.mpr ⟨rfl, v, child, hv, hi, h₁⟩, fun _ => ?_⟩
  rw [wp_bind]
  exact ensures_childAt fun c₂ h₂ => wp_pure.mpr ⟨rfl, v, child, hv, hi, h₂⟩

theorem ensures_assignChildren {child child' : List NodeId} (hc : Counted roots h held rank)
    (hchild : h.children n = child)
    (hheld : held + (child : Multiset NodeId) = held' + (child' : Multiset NodeId))
    (hrank : ∀ c ∈ child', rank c < rank n) (hr : rank n ≤ r) :
    Ensures (assignChildren n child') h fun _ h' => Step roots r rank h rank h' held' ∧
      h'.children n = child' ∧ ∀ m, m ≠ n → h'.nodes m = h.nodes m := by
  rw [assignChildren, Ensures, wp_bind]
  refine ensures_deref fun v hv => wp_assign.mpr ?_
  have hv' : v.children = child := (Heap.children_of_some hv).symm.trans hchild
  refine ⟨?_, Heap.children_of_some Heap.set_nodes_self, fun m hm => Heap.set_nodes_of_ne hm⟩
  refine ⟨hc.setChildren hv rfl (by rw [hv']; exact hheld) hrank, le_rfl, fun _ _ => rfl,
    fun m _ hm => Heap.set_nodes_of_ne ?_⟩
  rintro rfl
  exact Nat.not_lt.mpr hr hm

end CFLite.Storage
