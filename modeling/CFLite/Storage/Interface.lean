import CFLite.Storage.Tree

/-!
# The functions of `CFStorage.h`

Each function takes the storage it works on, and a bound `depth` on the depth
of its tree. `Call` collects the calls a client can make on a family of
storages, and `call` makes one. A pointer to a value is the leaf it points
into and an offset into that leaf's memory.
-/

namespace CFLite.Storage

open Framework

/-- `CFStorageGetCount` -/
def getCount (storage : CFStorage) : Op Nat := return convertByteToValue storage (← numBytes storage.rootNode)

/-! ## Access to values -/

/-- A pointer into the memory of a leaf. -/
structure Pointer where
  leaf : NodeId
  offset : Nat

/-- The pointer to value `loc` and the range of values around it, unless the
cache cannot serve it. -/
def getFromCache (storage : CFStorage) (loc : Nat) (requireUnfrozenNode : Bool) :
    Op (Option (Pointer × CFRange)) := do
  match (← Run.get).cacheNode storage.rootNode with
  | none => return none
  | some cachedNode =>
    let value ← deref cachedNode
    if requireUnfrozenNode ∧ value.isFrozen then return none
    else
      let leaf ← derefLeaf cachedNode
      Run.when leaf.memory.isNone (allocLeafNodeMemory storage cachedNode value.numBytes false)
      let range := leaf.cachedRange
      if loc < range.location ∨ range.location + range.length ≤ loc then return none
      else return some (⟨cachedNode, convertValueToByte storage (loc - range.location)⟩, range)

/-- The pointer to byte `byteNum` of the node, and the range of bytes of its
leaf. -/
def findByte (storage : CFStorage) (requireUnfreezing : Bool) :
    (depth : Nat) → NodeId → (byteNum absoluteByteOffsetOfNode : Nat) → Op (Pointer × CFRange)
  | 0, _, _, _ => Run.outOfFuel
  | depth + 1, node, byteNum, absoluteByteOffsetOfNode => do
    let value ← deref node
    match value.info with
    | .leaf _ =>
      allocLeafNodeMemory storage node value.numBytes false
      return (⟨node, byteNum⟩, ⟨absoluteByteOffsetOfNode, value.numBytes⟩)
    | .notLeaf _ =>
      let (child, childNum, relativeByteNum) ← findChild node byteNum false
      let offset := absoluteByteOffsetOfNode + (byteNum - relativeByteNum)
      if requireUnfreezing then
        if ← staysFrozen child then
          let unfrozenReplacement ← copyNode storage child
          setChild node childNum unfrozenReplacement
          releaseNode depth child
          findByte storage requireUnfreezing depth unfrozenReplacement relativeByteNum offset
        else findByte storage requireUnfreezing depth child relativeByteNum offset
      else findByte storage requireUnfreezing depth child relativeByteNum offset

def getValueAtIndex (depth : Nat) (storage : CFStorage) (idx : Nat) (requireUnfreezing : Bool) :
    Op (Pointer × CFRange) := do
  match ← getFromCache storage idx requireUnfreezing with
  | some result => return result
  | none =>
    let (result, rangeInBytes) ← findByte storage requireUnfreezing depth storage.rootNode
      (convertValueToByte storage idx) 0
    setCache storage result.leaf rangeInBytes.location
    return (result, convertBytesToValueRange storage rangeInBytes.location rangeInBytes.length)

/-- The number of values from `location` on that are consecutive, at most `length`. -/
def cntThisTime (location length : Nat) (leafRange : CFRange) : Nat :=
  min length (leafRange.length - (location - leafRange.location))

/-- The cells of `n` bytes are copied from the storage to a buffer of the caller. -/
def copyFrom (source : Pointer) (n : Nat) : Op (List Cell) := do
  let leaf ← derefLeaf source.leaf
  Run.emit (.copyMem (leaf.copyEnd (source.offset + n)) .caller)
  return (List.range n).map fun i => leaf.cell (source.offset + i)

/-- The bytes are copied from a buffer of the caller to the storage. -/
def copyTo (destination : Pointer) (n : Nat) (source : Nat → Cell) : Op Unit := do
  let leaf ← derefLeaf destination.leaf
  Run.emit (.copyMem .caller (leaf.copyEnd (destination.offset + n)))
  assignLeaf destination.leaf (leaf.write destination.offset n source)

/-- `CFStorageGetValues` -/
def getValues (depth : Nat) (storage : CFStorage) (range : CFRange) : Op (List Cell) :=
  Run.loop (fun (range, values) => do
    if range.length = 0 then return .inr values
    else
      let (storagePtr, leafRange) ← getValueAtIndex depth storage range.location false
      let n := cntThisTime range.location range.length leafRange
      let copied ← copyFrom storagePtr (convertValueToByte storage n)
      return .inl (⟨range.location + n, range.length - n⟩, values ++ copied))
    (range.length + 1) (range, [])

/-- `CFStorageReplaceValues`. The cells of the buffer `values` are given by
their offsets. -/
def replaceValues (depth : Nat) (storage : CFStorage) (range : CFRange) (values : Nat → Cell) : Op Unit :=
  Run.loop (fun (range, values) => do
    if range.length = 0 then return .inr ()
    else
      let (storagePtr, leafRange) ← getValueAtIndex depth storage range.location true
      let n := cntThisTime range.location range.length leafRange
      let bytes := convertValueToByte storage n
      copyTo storagePtr bytes values
      return .inl (⟨range.location + n, range.length - n⟩, fun i => values (bytes + i)))
    (range.length + 1) (range, values)

/-! ## Insertion and deletion -/

/-- The insertion split the root node: it becomes a branch with its old
contents and the new node as children. -/
def deepen (storage : CFStorage) (newNode : NodeId) : Op Unit := do
  let root ← deref storage.rootNode
  let heapRoot ← createNode storage root.info.isLeaf root.numBytes
  assign heapRoot { ← deref heapRoot with info := root.info }
  Run.when root.info.isLeaf (clearCache storage)
  assignChildren storage.rootNode [heapRoot, newNode]
  assignNumBytes storage.rootNode ((← numBytes heapRoot) + (← numBytes newNode))

def insertValues (depth : Nat) (storage : CFStorage) (range : CFRange) : Op Unit :=
  Run.loop (fun (numBytesToInsert, byteNum) => do
    if numBytesToInsert = 0 then return .inr ()
    else
      let insertThisTime := min numBytesToInsert storage.maxLeafCapacity
      let newNodes ← insertUnfrozen (insert storage depth) (releaseNode depth) storage storage.rootNode
        byteNum insertThisTime byteNum
      newNodes.sibling.toList.forM (deepen storage)
      return .inl (numBytesToInsert - insertThisTime, byteNum + insertThisTime))
    (convertValueToByte storage range.length + 1)
    (convertValueToByte storage range.length, convertValueToByte storage range.location)

/-- `__CFStorageClearRootNode` -/
def clearRootNode (depth : Nat) (storage : CFStorage) : Op Unit := do
  (← deref storage.rootNode).info.children.forM (releaseNode depth)
  let root ← deref storage.rootNode
  assign storage.rootNode { root with numBytes := 0, info := .leaf ⟨0, none, ⟨0, 0⟩⟩ }

/-- The root takes over the contents of `newRoot`. -/
def collapse (storage : CFStorage) (newRoot : NodeId) : Op Unit := do
  let value ← deref newRoot
  match value.info with
  | .leaf leaf =>
    let root ← deref storage.rootNode
    if value.isFrozen then
      assign storage.rootNode { root with numBytes := value.numBytes, info := .leaf ⟨0, none, ⟨0, 0⟩⟩ }
      Run.when leaf.memory.isSome do
        allocLeafNodeMemory storage storage.rootNode value.numBytes false
        copyMem newRoot 0 storage.rootNode 0 value.numBytes
    else
      assign storage.rootNode { root with numBytes := value.numBytes, info := .leaf ⟨0, leaf.memory, ⟨0, 0⟩⟩ }
      assignLeaf newRoot ⟨0, none, ⟨0, 0⟩⟩
  | .notLeaf child =>
    let root ← deref storage.rootNode
    -- the children are not frozen
    child.forM retainNode
    assign storage.rootNode { root with numBytes := value.numBytes, info := .notLeaf child }

def deleteValues (depth : Nat) (storage : CFStorage) (range : CFRange) : Op Unit := do
  let byteRange := convertValuesToByteRange storage range.location range.length
  clearCache storage
  match ← deleteUnfrozen (delete storage true depth) (releaseNode depth) storage storage.rootNode byteRange true with
  | none => clearRootNode depth storage
  | some newRoot =>
    Run.when (newRoot ≠ storage.rootNode) (collapse storage newRoot)
    releaseNode depth newRoot

/-! ## Creation and deallocation -/

/-- The fields of a storage for values of `valueSize` bytes. -/
def CFStorage.make (valueSize : Nat) (rootNode : NodeId) : CFStorage where
  valueSize := valueSize
  byteToValueShifter :=
    if 0 < valueSize ∧ valueSize &&& (valueSize - 1) = 0 then some (Nat.log2 valueSize) else none
  alwaysFrozen := false
  maxLeafCapacity :=
    if valueSize ≠ 0 ∧ storageMaxLeafCapacity % valueSize ≠ 0 then storageMaxLeafCapacity / valueSize * valueSize
    else storageMaxLeafCapacity
  rootNode := rootNode

/-- `CFStorageCreate` -/
def storageCreate (valueSize : Nat) : Op CFStorage := do
  let rootNode := (← Run.get).nextNode
  Run.modify fun heap =>
    { heap.set rootNode (some ⟨0, 0, false, .leaf ⟨0, none, ⟨0, 0⟩⟩⟩) with
      nextNode := rootNode + 1, cacheNode := Function.update heap.cacheNode rootNode none }
  return CFStorage.make valueSize rootNode

/-- The children with the offsets at which they start. -/
def childOffsets : (child : List NodeId) → (offset : Nat) → Op (List (NodeId × CFRange))
  | [], _ => return []
  | node :: child, offset => do
    let length ← numBytes node
    return (node, ⟨offset, length⟩) :: (← childOffsets child (offset + length))

/-- `_CFStorageFindNodeContainingByteRange`: the lowest node that contains the
range, and its range. -/
def findNodeContainingByteRange : (depth : Nat) → NodeId → (nodeRange : CFRange) →
    (globalOffsetOfNode : Nat) → Op (NodeId × CFRange)
  | 0, _, _, _ => Run.outOfFuel
  | depth + 1, node, nodeRange, globalOffsetOfNode => do
    let value ← deref node
    match value.info with
    | .leaf _ => return (node, ⟨globalOffsetOfNode, value.numBytes⟩)
    | .notLeaf child =>
      let overlapping := (← childOffsets child 0).filter fun p => (intersectionRange p.2 nodeRange).length ≠ 0
      match overlapping with
      | [(overlappingChild, range)] =>
        findNodeContainingByteRange depth overlappingChild
          ⟨nodeRange.location - range.location, nodeRange.length⟩ (globalOffsetOfNode + range.location)
      | _ => return (node, ⟨globalOffsetOfNode, value.numBytes⟩)

/-- The new storage `result` gets the values of a range that is not empty. -/
def shareSubrange (depth : Nat) (storage result : CFStorage) (range : CFRange) : Op Unit := do
  let byteRange := convertValuesToByteRange storage range.location range.length
  let (containing, containingRange) ← findNodeContainingByteRange depth storage.rootNode byteRange 0
  match (← deref containing).info with
  | .leaf leaf =>
    insertValues depth result ⟨0, range.length⟩
    Run.when leaf.memory.isSome
      (replaceValues depth result ⟨0, range.length⟩
        fun i => leaf.cell (byteRange.location - containingRange.location + i))
  | .notLeaf child =>
    child.forM freezeNode
    child.forM retainNode
    let root ← deref result.rootNode
    assign result.rootNode { root with numBytes := containingRange.length, info := .notLeaf child }
    let containingValues := convertBytesToValueRange result containingRange.location containingRange.length
    let prefixToTrim := range.location - containingValues.location
    let suffixToTrim := containingValues.location + containingValues.length - (range.location + range.length)
    Run.when (0 < suffixToTrim)
      (deleteValues depth result ⟨containingValues.length - suffixToTrim, suffixToTrim⟩)
    Run.when (0 < prefixToTrim) (deleteValues depth result ⟨0, prefixToTrim⟩)

/-- `CFStorageCreateWithSubrange` -/
def createWithSubrange (depth : Nat) (storage : CFStorage) (range : CFRange) : Op CFStorage := do
  let result ← storageCreate storage.valueSize
  Run.when (0 < range.length) (shareSubrange depth storage result range)
  return result

/-- `__CFStorageDeallocate`, and the deallocation of the storage with its root. -/
def storageDeallocate (depth : Nat) (storage : CFStorage) : Op Unit := do
  clearRootNode depth storage
  Run.modify (·.free storage.rootNode)

/-! ## Families of storages -/

/-- A call of a client. -/
inductive Call where
  | create (valueSize : Nat)
  | createWithSubrange (storage : CFStorage) (range : CFRange)
  | deallocate (storage : CFStorage)
  | insertValues (storage : CFStorage) (range : CFRange)
  | deleteValues (storage : CFStorage) (range : CFRange)
  | replaceValues (storage : CFStorage) (range : CFRange) (values : Nat → Cell)
  /-- `CFStorageGetValueAtIndex`, and values written through the pointer as
  far as they are consecutive. -/
  | setValueAtIndex (storage : CFStorage) (range : CFRange) (values : Nat → Cell)
  | getValues (storage : CFStorage) (range : CFRange)
  /-- `CFStorageGetConstValueAtIndex`, and the value read through the pointer. -/
  | getConstValueAtIndex (storage : CFStorage) (idx : Nat)

def setValueAtIndex (depth : Nat) (storage : CFStorage) (range : CFRange) (values : Nat → Cell) : Op Unit := do
  let (result, leafRange) ← getValueAtIndex depth storage range.location true
  copyTo result (convertValueToByte storage (cntThisTime range.location range.length leafRange)) values

def getConstValueAtIndex (depth : Nat) (storage : CFStorage) (idx : Nat) : Op (List Cell) := do
  let (result, _) ← getValueAtIndex depth storage idx false
  copyFrom result storage.valueSize

/-- The call, and the members of the family after it. -/
def runCall (depth : Nat) (members : List CFStorage) : Call → Op (List CFStorage)
  | .create valueSize => return members ++ [← storageCreate valueSize]
  | .createWithSubrange storage range => return members ++ [← createWithSubrange depth storage range]
  | .deallocate storage => do
    storageDeallocate depth storage
    return members.filter (·.rootNode ≠ storage.rootNode)
  | .insertValues storage range => do insertValues depth storage range; return members
  | .deleteValues storage range => do deleteValues depth storage range; return members
  | .replaceValues storage range values => do replaceValues depth storage range values; return members
  | .setValueAtIndex storage range values => do setValueAtIndex depth storage range values; return members
  | .getValues storage range => do let _ ← getValues depth storage range; return members
  | .getConstValueAtIndex storage idx => do let _ ← getConstValueAtIndex depth storage idx; return members

/-- The storage a call works on. -/
def Call.storage : Call → Option CFStorage
  | .create _ => none
  | .createWithSubrange storage _ | .deallocate storage | .insertValues storage _ | .deleteValues storage _
  | .replaceValues storage _ _ | .setValueAtIndex storage _ _ | .getValues storage _
  | .getConstValueAtIndex storage _ => some storage

/-- The heap before the first storage is created. -/
def Heap.empty : Heap where
  nodes _ := none
  nextNode := 0
  deallocations _ := 0
  cacheNode _ := none

/-- The families and heaps that sequences of calls lead to, where each call is
`allowed` in the state it is made in. -/
inductive Reachable (allowed : List CFStorage → Heap → Call → Prop) : List CFStorage → Heap → Prop
  | empty : Reachable allowed [] .empty
  | call {members members' : List CFStorage} {heap heap' : Heap} {call : Call} (depth : Nat)
      (hreach : Reachable allowed members heap) (hallowed : allowed members heap call)
      (hrun : (runCall depth members call).Returns heap members' heap') : Reachable allowed members' heap'

/-- The calls one after the other, as long as each is allowed. -/
def runCalls (allowed : List CFStorage → Heap → Call → Bool) (depth : Nat) (members : List CFStorage) (heap : Heap) :
    List Call → Option (List CFStorage × Heap)
  | [] => some (members, heap)
  | call :: calls =>
    if allowed members heap call then
      match (runCall depth members call heap).result with
      | .ok (members', heap') => runCalls allowed depth members' heap' calls
      | .error _ => none
    else none

theorem Reachable.runCalls {allowed : List CFStorage → Heap → Call → Bool} {depth : Nat}
    {members members' : List CFStorage} {heap heap' : Heap} {calls : List Call}
    (hreach : Reachable (allowed · · · = true) members heap)
    (hrun : Storage.runCalls allowed depth members heap calls = some (members', heap')) :
    Reachable (allowed · · · = true) members' heap' := by
  induction calls generalizing members heap with
  | nil =>
    cases hrun
    exact hreach
  | cons call calls ih =>
    rw [Storage.runCalls] at hrun
    split at hrun
    · rename_i hallowed
      split at hrun
      · rename_i members₁ heap₁ hres
        exact ih (hreach.call depth hallowed hres) hrun
      · cases hrun
    · cases hrun

/-- More is allowed. -/
theorem Reachable.mono {allowed allowed' : List CFStorage → Heap → Call → Prop} {members : List CFStorage} {heap : Heap}
    (hreach : Reachable allowed members heap)
    (hallowed : ∀ members heap call, allowed members heap call → allowed' members heap call) :
    Reachable allowed' members heap := by
  induction hreach with
  | empty => exact .empty
  | call depth _ hc hrun ih => exact ih.call depth (hallowed _ _ _ hc) hrun

/-- A call on a member of the family. -/
def Call.OnMember (members : List CFStorage) (_ : Heap) (call : Call) : Prop :=
  ∀ storage ∈ call.storage, storage ∈ members

instance {members : List CFStorage} {heap : Heap} {call : Call} : Decidable (call.OnMember members heap) :=
  inferInstanceAs (Decidable (∀ storage ∈ call.storage, storage ∈ members))

end CFLite.Storage
