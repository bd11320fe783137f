import Mathlib.Algebra.Group.Nat.Defs
import Mathlib.Algebra.Group.Int.Defs
import CFLite.Framework.Run
import Mathlib.Logic.Function.Basic
import Mathlib.Data.Int.Init

/-!
# The nodes of a `CFStorage`

A `CFStorage` is a 2-3 tree of nodes whose leaves hold bytes. Nodes other than
the root are reference counted and may be shared with other storages. `Heap`
holds the nodes of all storages, the root node of a storage too, which in C is
a field of the storage; no node gets the address of an earlier one. The memory
of a leaf is allocated when it is first needed, and a cell that nothing was
written to since its allocation is `none`.

A `COPYMEM` is an event of the run, and the heap counts how often each node was
deallocated. A step that dereferences NULL or a deallocated node, or takes a
branch for a leaf, stops the process. Reference counts and byte counts are natural numbers, except that
`convertValueToByte` computes in a signed 64-bit `CFIndex`.
-/

namespace CFLite.Storage

open Framework

/-! ## Data -/

/-- The address of a node. -/
abbrev NodeId := Nat

/-- A byte of memory, if something has been written to it. -/
abbrev Cell := Option UInt8

structure CFRange where
  location : Nat
  length : Nat
  deriving DecidableEq, Repr

/-- `intersectionRange` -/
def intersectionRange (a b : CFRange) : CFRange :=
  let start := max a.location b.location
  let stop := min (a.location + a.length) (b.location + b.length)
  if stop ≤ start then ⟨0, 0⟩ else ⟨start, stop - start⟩

/-- An allocated block of memory. -/
structure Block where
  size : Nat
  cell : Nat → Cell

/-- `info.leaf` -/
structure Leaf where
  capacityInBytes : Nat
  memory : Option Block
  cachedRange : CFRange

/-- `info` and `isLeaf`. The non-NULL entries of `child[3]`, which come first. -/
inductive Info where
  | leaf (leaf : Leaf)
  | notLeaf (child : List NodeId)

def Info.isLeaf : Info → Bool
  | .leaf _ => true
  | .notLeaf _ => false

/-- The children of a branch, none for a leaf. -/
def Info.children : Info → List NodeId
  | .leaf _ => []
  | .notLeaf child => child

/-- `struct __CFStorageNode` -/
structure CFStorageNode where
  numBytes : Nat
  refCount : Nat
  isFrozen : Bool
  info : Info

/-- The fields of `struct __CFStorage` that stay as `CFStorageCreate` set
them, and the address of `rootNode`. -/
structure CFStorage where
  valueSize : Nat
  byteToValueShifter : Option Nat
  alwaysFrozen : Bool
  maxLeafCapacity : Nat
  rootNode : NodeId
  deriving DecidableEq, Repr

/-- The nodes of all storages, how often each of them was given back to the
allocator, and the `cacheNode` of each storage, by the address of its root. -/
structure Heap where
  nodes : NodeId → Option CFStorageNode
  nextNode : NodeId
  deallocations : NodeId → Nat
  cacheNode : NodeId → Option NodeId

/-- One end of a `COPYMEM`: the memory of a leaf, with its size unless it is
NULL and the offset up to which it is used, or a buffer of the caller. -/
inductive CopyEnd where
  | leaf (allocated : Option Nat) (upTo : Nat)
  | caller
  deriving DecidableEq, Repr

inductive Event where
  | copyMem (source destination : CopyEnd)
  deriving DecidableEq, Repr

/-- A piece of the code. -/
abbrev Op (α : Type) := Run Event Heap α

/-! ## Byte and value conversions -/

/-- The value of an expression of type `CFIndex`, for the sizes it is used as:
a negative one asks for nothing. -/
def cfIndex (value : Nat) : Nat := (Int.bmod value (2 ^ 64)).toNat

def convertByteToValue (storage : CFStorage) (byte : Nat) : Nat :=
  match storage.byteToValueShifter with
  | some shifter => byte >>> shifter
  | none => byte / storage.valueSize

def convertBytesToValueRange (storage : CFStorage) (offset length : Nat) : CFRange :=
  ⟨convertByteToValue storage offset, convertByteToValue storage length⟩

def convertValueToByte (storage : CFStorage) (value : Nat) : Nat :=
  match storage.byteToValueShifter with
  | some shifter => cfIndex (value <<< shifter)
  | none => cfIndex (value * storage.valueSize)

def convertValuesToByteRange (storage : CFStorage) (offset length : Nat) : CFRange :=
  ⟨convertValueToByte storage offset, convertValueToByte storage length⟩

/-! ## Memory -/

def pageSize : Nat := 4096

/-- `__CFStorageMaxLeafCapacity` -/
def storageMaxLeafCapacity : Nat := 4096 * 3

def pageLimit : Nat := pageSize / 2

def roundToPage (num : Nat) : Nat := (num + pageSize - 1) / pageSize * pageSize

/-- `_CFAllocatorReallocateGC` -/
def reallocate (memory : Option Block) (cap : Nat) : Option Block :=
  if cap = 0 then none
  else some {
    size := cap
    cell := fun i => match memory with
      | some block => if i < min block.size cap then block.cell i else none
      | none => none }

/-- The capacity that is allocated for `cap` bytes. -/
def roundCapacity (storage : CFStorage) (cap : Nat) : Nat :=
  if pageLimit < cap then min (roundToPage cap) storage.maxLeafCapacity else (cap + 63) / 64 * 64

/-- What `__CFStorageAllocLeafNodeMemory` does to a leaf. -/
def Leaf.allocMemory (storage : CFStorage) (leaf : Leaf) (cap : Nat) (compact : Bool) : Leaf :=
  let cap := roundCapacity storage cap
  if (if compact then cap ≠ leaf.capacityInBytes else leaf.capacityInBytes < cap) then
    { leaf with memory := reallocate leaf.memory cap, capacityInBytes := cap }
  else leaf

/-- The cell at an offset into the memory of a leaf. -/
def Leaf.cell (leaf : Leaf) (i : Nat) : Cell := leaf.memory.bind (·.cell i)

/-- The cells of `n` bytes are written at `offset`. -/
def Leaf.write (leaf : Leaf) (offset n : Nat) (cell : Nat → Cell) : Leaf :=
  { leaf with memory := leaf.memory.map fun block => { block with
      cell := fun i => if offset ≤ i ∧ i < offset + n then cell (i - offset) else block.cell i } }

def Leaf.copyEnd (leaf : Leaf) (upTo : Nat) : CopyEnd := .leaf (leaf.memory.map (·.size)) upTo

/-! ## Access to nodes -/

/-- `*node` -/
def deref (node : NodeId) : Op CFStorageNode := fun heap =>
  match heap.nodes node with
  | some value => ⟨[], .ok (value, heap)⟩
  | none => ⟨[], .error .halt⟩

def Heap.set (heap : Heap) (node : NodeId) (value : Option CFStorageNode) : Heap :=
  { heap with nodes := Function.update heap.nodes node value }

/-- The node is given back to the allocator. -/
def Heap.free (heap : Heap) (node : NodeId) : Heap :=
  { heap.set node none with
    deallocations := Function.update heap.deallocations node (heap.deallocations node + 1) }

/-- `*node = value` -/
def assign (node : NodeId) (value : CFStorageNode) : Op Unit := Run.modify (·.set node (some value))

def derefLeaf (node : NodeId) : Op Leaf := do
  match (← deref node).info with
  | .leaf leaf => return leaf
  | .notLeaf _ => Run.halt

def derefChildren (node : NodeId) : Op (List NodeId) := do
  match (← deref node).info with
  | .leaf _ => Run.halt
  | .notLeaf child => return child

def numBytes (node : NodeId) : Op Nat := return (← deref node).numBytes

def assignLeaf (node : NodeId) (leaf : Leaf) : Op Unit := do
  assign node { ← deref node with info := .leaf leaf }

def assignChildren (node : NodeId) (child : List NodeId) : Op Unit := do
  assign node { ← deref node with info := .notLeaf child }

def assignNumBytes (node : NodeId) (bytes : Nat) : Op Unit := do
  assign node { ← deref node with numBytes := bytes }

/-- A child that is about to be dereferenced. -/
def childAt (child : List NodeId) (i : Nat) : Op NodeId :=
  match child[i]? with
  | some node => return node
  | none => Run.halt

def allocLeafNodeMemory (storage : CFStorage) (node : NodeId) (cap : Nat) (compact : Bool) : Op Unit := do
  assignLeaf node ((← derefLeaf node).allocMemory storage cap compact)

/-- `COPYMEM(source memory + sourceOffset, destination memory + offset, n)` -/
def copyMem (source : NodeId) (sourceOffset : Nat) (destination : NodeId) (offset n : Nat) : Op Unit := do
  let sourceLeaf ← derefLeaf source
  let leaf ← derefLeaf destination
  Run.emit (.copyMem (sourceLeaf.copyEnd (sourceOffset + n)) (leaf.copyEnd (offset + n)))
  assignLeaf destination (leaf.write offset n fun i => sourceLeaf.cell (sourceOffset + i))

/-! ## Reference counts and freezing -/

/-- `__CFStorageRetainNode`, and `__CFStorageRetainNodeThreadUnsafe` -/
def retainNode (node : NodeId) : Op Unit := do
  let value ← deref node
  if 0 < value.refCount then assign node { value with refCount := value.refCount + 1 }

def deallocateNode (releaseNode : NodeId → Op Unit) (node : NodeId) : Op Unit := do
  (← deref node).info.children.forM releaseNode
  Run.modify (·.free node)

/-- `depth` bounds the depth of the recursion. -/
def releaseNode : (depth : Nat) → NodeId → Op Unit
  | 0, _ => Run.outOfFuel
  | depth + 1, node => do
    let value ← deref node
    if 0 < value.refCount then
      assign node { value with refCount := value.refCount - 1 }
      if value.refCount - 1 = 0 then deallocateNode (releaseNode depth) node

def freezeNode (node : NodeId) : Op Unit := do
  assign node { ← deref node with isFrozen := true }

def thawNodeDuringMutation (node : NodeId) : Op Bool := do
  let value ← deref node
  if value.refCount = 1 then
    assign node { value with isFrozen := false }
    return true
  return false

def setChild (parentNode : NodeId) (childIndex : Nat) (newChild : NodeId) : Op Unit := do
  assignChildren parentNode ((← derefChildren parentNode).set childIndex newChild)

/-! ## The cache -/

/-- `__CFStorageSetCache(storage, NULL, 0)` -/
def clearCache (storage : CFStorage) : Op Unit :=
  Run.modify fun heap => { heap with cacheNode := Function.update heap.cacheNode storage.rootNode none }

def setCache (storage : CFStorage) (node : NodeId) (locInBytes : Nat) : Op Unit := do
  let leaf ← derefLeaf node
  assignLeaf node { leaf with cachedRange := convertBytesToValueRange storage locInBytes (← numBytes node) }
  Run.modify fun heap => { heap with cacheNode := Function.update heap.cacheNode storage.rootNode (some node) }

/-! ## Creation and copying -/

/-- The new node has a reference count of 1. -/
def createNode (storage : CFStorage) (isLeaf : Bool) (bytes : Nat) : Op NodeId := do
  let node := (← Run.get).nextNode
  let info := if isLeaf then Info.leaf ⟨0, none, ⟨0, 0⟩⟩ else .notLeaf []
  Run.modify fun heap => { heap.set node (some ⟨bytes, 1, storage.alwaysFrozen, info⟩) with nextNode := node + 1 }
  return node

def copyNode (storage : CFStorage) (node : NodeId) : Op NodeId := do
  let value ← deref node
  match value.info with
  | .leaf leaf =>
    let result ← createNode storage true value.numBytes
    Run.when leaf.memory.isSome do
      allocLeafNodeMemory storage result value.numBytes false
      copyMem node 0 result 0 value.numBytes
    return result
  | .notLeaf child =>
    let result ← createNode storage false value.numBytes
    child.forM retainNode
    assignChildren result child
    -- children of a frozen node become children of an unfrozen one
    Run.when value.isFrozen (child.forM freezeNode)
    return result

end CFLite.Storage
