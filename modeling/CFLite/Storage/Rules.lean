import CFLite.Framework.Wp
import CFLite.Storage.Interface

/-!
# Rules for the steps of the storage code

The weakest precondition of each access to a node. `wp_deref` and `wp_derefLeaf`
are for a node that is not known; the rules that end in `_of` are for a node
whose value is known, and rewrite the precondition. `Heap.set_set`,
`Heap.set_comm` and `Heap.create_set` bring a sequence of assignments into the
order in which the proofs look at it.
-/

namespace CFLite.Storage

open Framework Run

variable {t : Prop} {E : Event → Prop} {h : Heap} {n m : NodeId} {v : CFStorageNode}

/-! ## Heaps -/

@[simp] theorem Heap.set_nodes_self {w : Option CFStorageNode} : (h.set n w).nodes n = w := by
  simp [Heap.set]

theorem Heap.set_nodes_of_ne {w : Option CFStorageNode} (hm : m ≠ n) : (h.set n w).nodes m = h.nodes m := by
  simp [Heap.set, hm]

@[simp] theorem Heap.set_nextNode {w : Option CFStorageNode} : (h.set n w).nextNode = h.nextNode := rfl
@[simp] theorem Heap.set_cacheNode {w : Option CFStorageNode} : (h.set n w).cacheNode = h.cacheNode := rfl
@[simp] theorem Heap.set_deallocations {w : Option CFStorageNode} : (h.set n w).deallocations = h.deallocations := rfl

@[simp] theorem Heap.free_nodes_self : (h.free n).nodes n = none := Heap.set_nodes_self

theorem Heap.free_nodes_of_ne (hm : m ≠ n) : (h.free n).nodes m = h.nodes m := Heap.set_nodes_of_ne hm

@[simp] theorem Heap.free_nextNode : (h.free n).nextNode = h.nextNode := rfl
@[simp] theorem Heap.free_cacheNode : (h.free n).cacheNode = h.cacheNode := rfl

@[simp] theorem Heap.free_deallocations_self : (h.free n).deallocations n = h.deallocations n + 1 := by
  simp [Heap.free]

theorem Heap.free_deallocations_of_ne (hm : m ≠ n) : (h.free n).deallocations m = h.deallocations m := by
  simp [Heap.free, hm]

/-- A node, and how often it was deallocated. -/
def Heap.record (h : Heap) (n : NodeId) : Option CFStorageNode × Nat := (h.nodes n, h.deallocations n)

theorem Heap.nodes_of_record {h h' : Heap} (hn : h'.record n = h.record n) : h'.nodes n = h.nodes n :=
  congrArg Prod.fst hn

theorem Heap.set_record_of_ne {w : Option CFStorageNode} (hm : m ≠ n) : (h.set n w).record m = h.record m := by
  rw [record, record, set_nodes_of_ne hm, set_deallocations]

theorem Heap.free_record_of_ne (hm : m ≠ n) : (h.free n).record m = h.record m := by
  rw [record, record, free_nodes_of_ne hm, free_deallocations_of_ne hm]

/-- Two heaps are the same if they agree in every node. -/
theorem Heap.ext_record {h h' : Heap} (hnext : h.nextNode = h'.nextNode) (hcache : h.cacheNode = h'.cacheNode)
    (hrecord : ∀ m, h.record m = h'.record m) : h = h' := by
  obtain ⟨nodes, next, deallocations, cache⟩ := h
  obtain ⟨nodes', next', deallocations', cache'⟩ := h'
  have hnodes : nodes = nodes' := funext fun m => congrArg Prod.fst (hrecord m)
  have hdealloc : deallocations = deallocations' := funext fun m => congrArg Prod.snd (hrecord m)
  cases hnodes
  cases hdealloc
  cases hnext
  cases hcache
  rfl

/-- The node that is created. -/
def CFStorageNode.new (storage : CFStorage) (isLeaf : Bool) (bytes : Nat) : CFStorageNode :=
  ⟨bytes, 1, storage.alwaysFrozen, if isLeaf then .leaf ⟨0, none, ⟨0, 0⟩⟩ else .notLeaf []⟩

def Heap.create (h : Heap) (value : CFStorageNode) : Heap :=
  { h.set h.nextNode (some value) with nextNode := h.nextNode + 1 }

@[simp] theorem Heap.create_nodes_self : (h.create v).nodes h.nextNode = some v := Heap.set_nodes_self

theorem Heap.create_nodes_of_ne (hm : m ≠ h.nextNode) : (h.create v).nodes m = h.nodes m :=
  Heap.set_nodes_of_ne hm

@[simp] theorem Heap.create_nextNode : (h.create v).nextNode = h.nextNode + 1 := rfl
@[simp] theorem Heap.create_cacheNode : (h.create v).cacheNode = h.cacheNode := rfl
@[simp] theorem Heap.create_deallocations : (h.create v).deallocations = h.deallocations := rfl

/-! ## A node that is not known -/

theorem wp_deref {Q : CFStorageNode → Heap → Prop} :
    Wp t E (deref n) h Q ↔ (∀ v, h.nodes n = some v → Q v h) ∧ (t → ∃ v, h.nodes n = some v) := by
  unfold Wp deref
  cases h.nodes n <;> simp

theorem wp_derefLeaf {Q : Leaf → Heap → Prop} :
    Wp t E (derefLeaf n) h Q ↔
      (∀ v leaf, h.nodes n = some v → v.info = .leaf leaf → Q leaf h) ∧
      (t → ∃ v leaf, h.nodes n = some v ∧ v.info = .leaf leaf) := by
  rw [derefLeaf, wp_bind, wp_deref]
  constructor
  · rintro ⟨h₁, h₂⟩
    refine ⟨fun v leaf hv hl => by simpa [hl] using h₁ v hv, fun ht => ?_⟩
    obtain ⟨v, hv⟩ := h₂ ht
    have := h₁ v hv
    cases hl : v.info with
    | leaf leaf => exact ⟨v, leaf, hv, hl⟩
    | notLeaf child => simp [hl, ht] at this
  · rintro ⟨h₁, h₂⟩
    refine ⟨fun v hv => ?_, fun ht => ?_⟩
    · cases hl : v.info with
      | leaf leaf => simpa using h₁ v leaf hv hl
      | notLeaf child =>
        rw [wp_halt]
        intro ht
        obtain ⟨v', leaf, hv', hl'⟩ := h₂ ht
        cases hv.symm.trans hv'
        cases hl.symm.trans hl'
    · obtain ⟨v, leaf, hv, -⟩ := h₂ ht
      exact ⟨v, hv⟩

/-! ## A node that is known -/

theorem wp_deref_of {Q : CFStorageNode → Heap → Prop} (hv : h.nodes n = some v) :
    Wp t E (deref n) h Q ↔ Q v h := by
  simp [wp_deref, hv]

theorem wp_derefLeaf_of {Q : Leaf → Heap → Prop} {leaf : Leaf} (hv : h.nodes n = some v)
    (hl : v.info = .leaf leaf) : Wp t E (derefLeaf n) h Q ↔ Q leaf h := by
  simp [derefLeaf, wp_deref_of hv, hl]

theorem wp_derefChildren_of {Q : List NodeId → Heap → Prop} {child : List NodeId} (hv : h.nodes n = some v)
    (hi : v.info = .notLeaf child) : Wp t E (derefChildren n) h Q ↔ Q child h := by
  simp [derefChildren, wp_deref_of hv, hi]

theorem wp_numBytes_of {Q : Nat → Heap → Prop} (hv : h.nodes n = some v) :
    Wp t E (numBytes n) h Q ↔ Q v.numBytes h := by
  simp [numBytes, wp_deref_of hv]

@[simp] theorem wp_assign {Q : Unit → Heap → Prop} :
    Wp t E (assign n v) h Q ↔ Q () (h.set n (some v)) := by
  simp [assign]

theorem wp_assignLeaf_of {Q : Unit → Heap → Prop} {leaf : Leaf} (hv : h.nodes n = some v) :
    Wp t E (assignLeaf n leaf) h Q ↔ Q () (h.set n (some { v with info := .leaf leaf })) := by
  simp [assignLeaf, wp_deref_of hv]

theorem wp_assignChildren_of {Q : Unit → Heap → Prop} {child : List NodeId} (hv : h.nodes n = some v) :
    Wp t E (assignChildren n child) h Q ↔ Q () (h.set n (some { v with info := .notLeaf child })) := by
  simp [assignChildren, wp_deref_of hv]

theorem wp_assignNumBytes_of {Q : Unit → Heap → Prop} {bytes : Nat} (hv : h.nodes n = some v) :
    Wp t E (assignNumBytes n bytes) h Q ↔ Q () (h.set n (some { v with numBytes := bytes })) := by
  simp [assignNumBytes, wp_deref_of hv]

theorem wp_childAt_of {Q : NodeId → Heap → Prop} {child : List NodeId} {i : Nat} {c : NodeId}
    (hc : child[i]? = some c) : Wp t E (childAt child i) h Q ↔ Q c h := by
  simp [childAt, hc]

theorem wp_allocLeafNodeMemory_of {storage : CFStorage} {Q : Unit → Heap → Prop} {leaf : Leaf} {cap : Nat}
    {compact : Bool} (hv : h.nodes n = some v) (hl : v.info = .leaf leaf) :
    Wp t E (allocLeafNodeMemory storage n cap compact) h Q ↔
      Q () (h.set n (some { v with info := .leaf (leaf.allocMemory storage cap compact) })) := by
  simp [allocLeafNodeMemory, wp_derefLeaf_of hv hl, wp_assignLeaf_of hv]

theorem wp_copyMem_of {Q : Unit → Heap → Prop} {s d : NodeId} {w : CFStorageNode} {source leaf : Leaf}
    {i j k : Nat} (hs : h.nodes s = some v) (hsl : v.info = .leaf source) (hd : h.nodes d = some w)
    (hdl : w.info = .leaf leaf) :
    Wp t E (copyMem s i d j k) h Q ↔ E (.copyMem (source.copyEnd (i + k)) (leaf.copyEnd (j + k))) ∧
      Q () (h.set d (some { w with info := .leaf (leaf.write j k fun b => source.cell (i + b)) })) := by
  simp [copyMem, wp_derefLeaf_of hs hsl, wp_derefLeaf_of hd hdl, wp_assignLeaf_of hd]

@[simp] theorem wp_createNode {storage : CFStorage} {Q : NodeId → Heap → Prop} {isLeaf : Bool} {bytes : Nat} :
    Wp t E (createNode storage isLeaf bytes) h Q ↔
      Q h.nextNode (h.create (CFStorageNode.new storage isLeaf bytes)) := by
  simp [createNode, Heap.create, CFStorageNode.new]

/-- The cache of a storage points at the node. -/
def Heap.setCacheNode (h : Heap) (storage : CFStorage) (node : Option NodeId) : Heap :=
  { h with cacheNode := Function.update h.cacheNode storage.rootNode node }

@[simp] theorem Heap.setCacheNode_nodes {storage : CFStorage} {node : Option NodeId} :
    (h.setCacheNode storage node).nodes = h.nodes := rfl
@[simp] theorem Heap.setCacheNode_nextNode {storage : CFStorage} {node : Option NodeId} :
    (h.setCacheNode storage node).nextNode = h.nextNode := rfl
@[simp] theorem Heap.setCacheNode_deallocations {storage : CFStorage} {node : Option NodeId} :
    (h.setCacheNode storage node).deallocations = h.deallocations := rfl

theorem wp_setCache_of {storage : CFStorage} {Q : Unit → Heap → Prop} {leaf : Leaf} {loc : Nat}
    (hv : h.nodes n = some v) (hl : v.info = .leaf leaf) :
    Wp t E (setCache storage n loc) h Q ↔
      Q () ((h.set n (some { v with info := .leaf { leaf with
        cachedRange := convertBytesToValueRange storage loc v.numBytes } })).setCacheNode storage (some n)) := by
  simp [setCache, wp_derefLeaf_of hv hl, wp_numBytes_of hv, wp_assignLeaf_of hv, Heap.setCacheNode]

@[simp] theorem wp_clearCache {storage : CFStorage} {Q : Unit → Heap → Prop} :
    Wp t E (clearCache storage) h Q ↔ Q () (h.setCacheNode storage none) := by
  simp [clearCache, Heap.setCacheNode]

theorem wp_retainNode_of {Q : Unit → Heap → Prop} (hv : h.nodes n = some v) :
    Wp t E (retainNode n) h Q ↔
      if 0 < v.refCount then Q () (h.set n (some { v with refCount := v.refCount + 1 })) else Q () h := by
  rw [retainNode, wp_bind, wp_deref_of hv]
  split <;> simp

theorem wp_freezeNode_of {Q : Unit → Heap → Prop} (hv : h.nodes n = some v) :
    Wp t E (freezeNode n) h Q ↔ Q () (h.set n (some { v with isFrozen := true })) := by
  simp [freezeNode, wp_deref_of hv]

/-- A node stays frozen if it is frozen and has other references; otherwise it
is not frozen from then on. -/
theorem wp_staysFrozen_of {Q : Bool → Heap → Prop} (hv : h.nodes n = some v) :
    Wp t E (staysFrozen n) h Q ↔
      if v.isFrozen = true ∧ v.refCount ≠ 1 then Q true h
      else if v.isFrozen = true then Q false (h.set n (some { v with isFrozen := false })) else Q false h := by
  by_cases hf : v.isFrozen = true
  · by_cases hone : v.refCount = 1
    · simp [staysFrozen, thawNodeDuringMutation, wp_deref_of hv, hf, hone]
    · simp [staysFrozen, thawNodeDuringMutation, wp_deref_of hv, hf, hone]
  · simp [staysFrozen, wp_deref_of hv, hf]

/-! ## Assignments one after the other -/

namespace Heap

variable {v' w : CFStorageNode} {storage : CFStorage} {x y : Option CFStorageNode}

theorem set_set : (h.set n x).set n y = h.set n y := by
  simp [set]

theorem set_self (hv : h.nodes n = x) : h.set n x = h := by
  simp only [set, ← hv, Function.update_eq_self]

theorem set_comm (hne : m ≠ n) : (h.set n x).set m y = (h.set m y).set n x := by
  simp only [set, Function.update_comm hne]

/-- A new node is assigned. -/
theorem create_set : (h.create v).set h.nextNode (some v') = h.create v' := by
  simp [create, set]

theorem set_create (hne : n ≠ h.nextNode) : (h.set n x).create v = (h.create v).set n x := by
  simp only [create, set, Function.update_comm hne]

/-- The first of two new nodes is assigned. -/
theorem create_create_set : ((h.create w).create v).set h.nextNode (some v') = (h.create v').create v := by
  have hne : h.nextNode ≠ (h.create w).nextNode := Nat.ne_of_lt (Nat.lt_succ_self _)
  rw [← set_create hne, create_set]

theorem setCacheNode_set {node : Option NodeId} :
    (h.setCacheNode storage node).set n x = (h.set n x).setCacheNode storage node := rfl

end Heap

end CFLite.Storage
