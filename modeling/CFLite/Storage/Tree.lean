import CFLite.Storage.Node

/-!
# Insertion and deletion in the tree of a storage

A frozen node may be shared: insertion and deletion below it make new nodes
and leave it as it is. An unfrozen node is changed in place. `insert` and
`delete` choose between the two, and unfreeze a node that has one reference.

An insertion returns the node that replaces the one inserted into, and a new
sibling if there is one; a node that differs from the argument is retained for
the caller. A deletion returns the node that is left, retained for the caller,
or NULL. The recursion on children is a parameter of the functions on
branches; `depth` bounds it.
-/

namespace CFLite.Storage

open Framework

/-- `node->isFrozen && !__CFStorageThawNodeDuringMutation(storage, node)` -/
def staysFrozen (node : NodeId) : Op Bool := do
  if (← deref node).isFrozen then return !(← thawNodeDuringMutation node)
  else return false

/-! ## Finding a child -/

/-- A position is in a child if it is before the child's end, and for an
insertion or a deletion also at its end: there `byteNum` is decremented first. -/
def isInChild (byteNum childBytes : Nat) (forInsertionOrDeletion : Bool) : Bool :=
  if forInsertionOrDeletion then byteNum ≤ childBytes else byteNum < childBytes

/-- The child, its number and the position relative to it. -/
def findChild (node : NodeId) (byteNum : Nat) (forInsertionOrDeletion : Bool) : Op (NodeId × Nat × Nat) := do
  let child ← derefChildren node
  let first ← childAt child 0
  let firstBytes ← numBytes first
  if isInChild byteNum firstBytes forInsertionOrDeletion then return (first, 0, byteNum)
  else
    let second ← childAt child 1
    let secondBytes ← numBytes second
    if isInChild (byteNum - firstBytes) secondBytes forInsertionOrDeletion then
      return (second, 1, byteNum - firstBytes)
    else
      let third ← childAt child 2
      return (third, 2, byteNum - firstBytes - secondBytes)

/-! ## Deletion below a frozen node -/

def leafCopyRangeToOffset (srcLeaf : NodeId) (srcRange : CFRange) (dstLeaf : NodeId) (dstLocation : Nat) :
    Op Unit := do
  Run.when (0 < srcRange.length) (copyMem srcLeaf srcRange.location dstLeaf dstLocation srcRange.length)

def deleteLeafFrozen (storage : CFStorage) (node : NodeId) (range : CFRange) : Op (Option NodeId) := do
  let value ← deref node
  let leaf ← derefLeaf node
  let rangeToDeleteEnd := range.location + range.length
  let remainingBytes := value.numBytes - range.length
  if remainingBytes = 0 then return none
  else
    let newNode ← createNode storage true remainingBytes
    Run.when leaf.memory.isSome do
      allocLeafNodeMemory storage newNode remainingBytes false
      leafCopyRangeToOffset node ⟨0, range.location⟩ newNode 0
      leafCopyRangeToOffset node ⟨rangeToDeleteEnd, value.numBytes - rangeToDeleteEnd⟩ newNode range.location
    return some newNode

/-- The children that are left when `range` is deleted, each retained. The
first child starts at `childByteOffset`. -/
def populateBranchChildrenAfterDeletion (delete : NodeId → CFRange → Op (Option NodeId)) (range : CFRange)
    (childrenAreDefinitelyFrozen : Bool) : (child : List NodeId) → (childByteOffset : Nat) → Op (List NodeId)
  | [], _ => return []
  | existingChild :: child, childByteOffset => do
    let existingChildLength ← numBytes existingChild
    let deleted := intersectionRange range ⟨childByteOffset, existingChildLength⟩
    if deleted.length = 0 then
      retainNode existingChild
      Run.when childrenAreDefinitelyFrozen (freezeNode existingChild)
      let rest ← populateBranchChildrenAfterDeletion delete range childrenAreDefinitelyFrozen child
        (childByteOffset + existingChildLength)
      return existingChild :: rest
    else
      let newChild ← delete existingChild ⟨deleted.location - childByteOffset, deleted.length⟩
      let rest ← populateBranchChildrenAfterDeletion delete range childrenAreDefinitelyFrozen child
        (childByteOffset + existingChildLength)
      return newChild.toList ++ rest

def deleteBranchFrozen (deleteFrozen : NodeId → CFRange → Op (Option NodeId)) (storage : CFStorage)
    (node : NodeId) (range : CFRange) : Op (Option NodeId) := do
  let value ← deref node
  if range.length = value.numBytes then return none
  else
    match ← populateBranchChildrenAfterDeletion deleteFrozen range true (← derefChildren node) 0 with
    | [newChild] => return some newChild
    | newChildren =>
      let result ← createNode storage false 0
      assignChildren result newChildren
      assignNumBytes result (value.numBytes - range.length)
      return some result

def deleteFrozen (storage : CFStorage) : (depth : Nat) → NodeId → CFRange → Op (Option NodeId)
  | 0, _, _ => Run.outOfFuel
  | depth + 1, node, range => do
    match (← deref node).info with
    | .leaf _ => deleteLeafFrozen storage node range
    | .notLeaf _ => deleteBranchFrozen (deleteFrozen storage depth) storage node range

/-! ## Deletion below an unfrozen node -/

/-- The children of a node are released; the first one is not tested for NULL. -/
def releaseChildren (release : NodeId → Op Unit) (child : List NodeId) : Op Unit := do
  release (← childAt child 0)
  child.tail.forM release

def deleteUnfrozen (delete : NodeId → CFRange → Op (Option NodeId)) (release : NodeId → Op Unit)
    (storage : CFStorage) (node : NodeId) (range : CFRange) (compact : Bool) : Op (Option NodeId) := do
  let value ← deref node
  if range.length = value.numBytes then return none
  else
    match value.info with
    | .leaf leaf =>
      assignNumBytes node (value.numBytes - range.length)
      Run.when leaf.memory.isSome do
        copyMem node (range.location + range.length) node range.location
          (value.numBytes - range.length - range.location)
        Run.when compact (allocLeafNodeMemory storage node (value.numBytes - range.length) true)
      retainNode node
      return some node
    | .notLeaf child =>
      let newChildren ← populateBranchChildrenAfterDeletion delete range false child 0
      assignNumBytes node (value.numBytes - range.length)
      releaseChildren release child
      match newChildren with
      | [newChild] =>
        assignChildren node []
        return some newChild
      | newChildren =>
        assignChildren node newChildren
        retainNode node
        return some node

def delete (storage : CFStorage) (compact : Bool) : (depth : Nat) → NodeId → CFRange → Op (Option NodeId)
  | 0, _, _ => Run.outOfFuel
  | depth + 1, node, range => do
    if ← staysFrozen node then deleteFrozen storage (depth + 1) node range
    else deleteUnfrozen (delete storage compact depth) (releaseNode depth) storage node range compact

/-! ## Insertion below a frozen node -/

/-- `CFStorageDoubleNodeReturn` -/
structure DoubleNodeReturn where
  child : NodeId
  sibling : Option NodeId

def insertLeafFrozen (storage : CFStorage) (node : NodeId) (byteNum size absoluteByteNum : Nat) :
    Op DoubleNodeReturn := do
  let value ← deref node
  let leaf ← derefLeaf node
  let newTotalSize := size + value.numBytes
  if newTotalSize ≤ storage.maxLeafCapacity then
    let leftResult ← createNode storage true newTotalSize
    Run.when leaf.memory.isSome do
      allocLeafNodeMemory storage leftResult newTotalSize false
      copyMem node 0 leftResult 0 byteNum
      copyMem node byteNum leftResult (byteNum + size) (value.numBytes - byteNum)
    setCache storage leftResult (absoluteByteNum - byteNum)
    return ⟨leftResult, none⟩
  else if byteNum = value.numBytes then
    let rightResult ← createNode storage true size
    setCache storage rightResult absoluteByteNum
    return ⟨node, some rightResult⟩
  else if byteNum = 0 then
    retainNode node
    let leftResult ← createNode storage true size
    setCache storage leftResult absoluteByteNum
    return ⟨leftResult, some node⟩
  else
    -- the memory of `node` is not tested for NULL here
    let leftAmount := storage.maxLeafCapacity
    let rightAmount := newTotalSize - storage.maxLeafCapacity
    let leftResult ← createNode storage true leftAmount
    let rightResult ← createNode storage true rightAmount
    allocLeafNodeMemory storage leftResult leftAmount false
    allocLeafNodeMemory storage rightResult rightAmount false
    copyMem node 0 leftResult 0 byteNum
    let preservedData : CFRange := ⟨byteNum + size, value.numBytes - byteNum⟩
    let left := intersectionRange ⟨0, leftAmount⟩ preservedData
    Run.when (0 < left.length) (copyMem node (left.location - size) leftResult left.location left.length)
    let right := intersectionRange ⟨leftAmount, rightAmount⟩ preservedData
    Run.when (0 < right.length)
      (copyMem node (right.location - size) rightResult (right.location - leftAmount) right.length)
    setCache storage leftResult (absoluteByteNum - byteNum)
    return ⟨leftResult, some rightResult⟩

/-- The children with the results of the insertion into child `childNum`. -/
def DoubleNodeReturn.newChildren (childReturn : DoubleNodeReturn) (child : List NodeId) (childNum : Nat) :
    List NodeId :=
  match childReturn.sibling with
  | none => child.set childNum childReturn.child
  | some sibling => (child.set childNum childReturn.child).insertIdx (childNum + 1) sibling

/-- Four children are distributed to two branches. -/
def distribute (left first second right third fourth : NodeId) : Op Unit := do
  assignChildren left [first, second]
  assignChildren right [third, fourth]
  assignNumBytes left ((← numBytes first) + (← numBytes second))
  assignNumBytes right ((← numBytes third) + (← numBytes fourth))

def insertBranchFrozen (insertFrozen : NodeId → Nat → Nat → Nat → Op DoubleNodeReturn)
    (release : NodeId → Op Unit) (storage : CFStorage) (node : NodeId) (byteNum size absoluteByteNum : Nat) :
    Op DoubleNodeReturn := do
  let copyOfMe ← createNode storage false 0
  let (childNode, childNum, relativeByteNum) ← findChild node byteNum true
  let childReturn ← insertFrozen childNode relativeByteNum size absoluteByteNum
  let child ← derefChildren node
  child.forM retainNode
  child.forM freezeNode
  Run.when (childReturn.child ≠ childNode) (release childNode)
  match childReturn.newChildren child childNum with
  | [first, second, third, fourth] =>
    let siblingOfMe ← createNode storage false 0
    distribute copyOfMe first second siblingOfMe third fourth
    return ⟨copyOfMe, some siblingOfMe⟩
  | newChildren =>
    assignChildren copyOfMe newChildren
    assignNumBytes copyOfMe ((← numBytes node) + size)
    return ⟨copyOfMe, none⟩

def insertFrozen (storage : CFStorage) : (depth : Nat) → NodeId → (byteNum size absoluteByteNum : Nat) →
    Op DoubleNodeReturn
  | 0, _, _, _, _ => Run.outOfFuel
  | depth + 1, node, byteNum, size, absoluteByteNum => do
    match (← deref node).info with
    | .leaf _ => insertLeafFrozen storage node byteNum size absoluteByteNum
    | .notLeaf _ =>
      insertBranchFrozen (insertFrozen storage depth) (releaseNode depth) storage node byteNum size
        absoluteByteNum

/-! ## Insertion below an unfrozen node -/

def insertLeafUnfrozen (storage : CFStorage) (node : NodeId) (byteNum size absoluteByteNum : Nat) :
    Op DoubleNodeReturn := do
  let value ← deref node
  let leaf ← derefLeaf node
  if storage.maxLeafCapacity < size + value.numBytes then
    if byteNum = value.numBytes then
      let newNode ← createNode storage true size
      setCache storage newNode absoluteByteNum
      return ⟨node, some newNode⟩
    else if byteNum = 0 then
      let newNode ← createNode storage true 0
      assignNumBytes newNode value.numBytes
      assignLeaf newNode { ← derefLeaf newNode with
        capacityInBytes := leaf.capacityInBytes, memory := leaf.memory }
      assignNumBytes node size
      assignLeaf node { leaf with capacityInBytes := 0, memory := none }
      setCache storage node absoluteByteNum
      return ⟨node, some newNode⟩
    else if byteNum + size ≤ storage.maxLeafCapacity then
      let newNode ← createNode storage true (value.numBytes - byteNum)
      Run.when leaf.memory.isSome do
        allocLeafNodeMemory storage newNode (value.numBytes - byteNum) false
        copyMem node byteNum newNode 0 (value.numBytes - byteNum)
        allocLeafNodeMemory storage node (byteNum + size) false
      assignNumBytes node (byteNum + size)
      setCache storage node (absoluteByteNum - byteNum)
      return ⟨node, some newNode⟩
    else
      let newNode ← createNode storage true (value.numBytes + size - storage.maxLeafCapacity)
      Run.when leaf.memory.isSome do
        allocLeafNodeMemory storage newNode (value.numBytes + size - storage.maxLeafCapacity) false
        copyMem node byteNum newNode (byteNum + size - storage.maxLeafCapacity) (value.numBytes - byteNum)
        allocLeafNodeMemory storage node storage.maxLeafCapacity false
      setCache storage node (absoluteByteNum - byteNum)
      assignNumBytes node storage.maxLeafCapacity
      return ⟨node, some newNode⟩
  else
    Run.when leaf.memory.isSome do
      allocLeafNodeMemory storage node (value.numBytes + size) false
      copyMem node byteNum node (byteNum + size) (value.numBytes - byteNum)
    assignNumBytes node (value.numBytes + size)
    setCache storage node (absoluteByteNum - byteNum)
    return ⟨node, none⟩

/-- A branch with three children gets a new child after child `childNum`: the
second child that stays, and the two children that go to the new branch. -/
def splitPlacement (childNum : Nat) (second third newChild : NodeId) : NodeId × NodeId × NodeId :=
  match childNum with
  | 0 => (newChild, second, third)
  | 1 => (second, newChild, third)
  | _ => (second, third, newChild)

def insertBranchUnfrozen (insert : NodeId → Nat → Nat → Nat → Op DoubleNodeReturn)
    (release : NodeId → Op Unit) (storage : CFStorage) (node : NodeId) (byteNum size absoluteByteNum : Nat) :
    Op DoubleNodeReturn := do
  let (childNode, childNum, relativeByteNum) ← findChild node byteNum true
  let newNodes ← insert childNode relativeByteNum size absoluteByteNum
  Run.when (newNodes.child ≠ childNode) do
    release childNode
    setChild node childNum newNodes.child
  match newNodes.sibling with
  | none =>
    assignNumBytes node ((← numBytes node) + size)
    return ⟨node, none⟩
  | some newChild =>
    match ← derefChildren node with
    | [first, second, third] =>
      let anotherNode ← createNode storage false 0
      let (last, (moved₀, moved₁)) := splitPlacement childNum second third newChild
      distribute node first last anotherNode moved₀ moved₁
      return ⟨node, some anotherNode⟩
    | child =>
      assignChildren node (child.insertIdx (childNum + 1) newChild)
      assignNumBytes node ((← numBytes node) + size)
      return ⟨node, none⟩

def insertUnfrozen (insert : NodeId → Nat → Nat → Nat → Op DoubleNodeReturn) (release : NodeId → Op Unit)
    (storage : CFStorage) (node : NodeId) (byteNum size absoluteByteNum : Nat) : Op DoubleNodeReturn := do
  match (← deref node).info with
  | .leaf _ => insertLeafUnfrozen storage node byteNum size absoluteByteNum
  | .notLeaf _ => insertBranchUnfrozen insert release storage node byteNum size absoluteByteNum

def insert (storage : CFStorage) : (depth : Nat) → NodeId → (byteNum size absoluteByteNum : Nat) →
    Op DoubleNodeReturn
  | 0, _, _, _, _ => Run.outOfFuel
  | depth + 1, node, byteNum, size, absoluteByteNum => do
    if ← staysFrozen node then insertFrozen storage (depth + 1) node byteNum size absoluteByteNum
    else insertUnfrozen (insert storage depth) (releaseNode depth) storage node byteNum size absoluteByteNum

end CFLite.Storage
