import CFLite.Framework.LinkedList
import CFLite.Sorting.MergeSort

/-!
# Trees

The nodes of all trees in memory, each with its four links and its reference
count, and the operations that link them. Loops over siblings get a budget.
-/

namespace CFLite.Tree

open Framework

/-- The fields of every node. -/
structure CFTrees (Node : Type) where
  parent : Node → Option Node
  sibling : Node → Option Node
  child : Node → Option Node
  rightmostChild : Node → Option Node
  retainCount : Node → Nat

namespace CFTrees

variable {Node : Type} [DecidableEq Node]

/-! ## Links and counts -/

def setParent (trees : CFTrees Node) (node : Node) (parent : Option Node) : CFTrees Node :=
  { trees with parent := Function.update trees.parent node parent }

def setSibling (trees : CFTrees Node) (node : Node) (sibling : Option Node) : CFTrees Node :=
  { trees with sibling := Function.update trees.sibling node sibling }

def setChild (trees : CFTrees Node) (node : Node) (child : Option Node) : CFTrees Node :=
  { trees with child := Function.update trees.child node child }

def setRightmostChild (trees : CFTrees Node) (node : Node) (rightmostChild : Option Node) : CFTrees Node :=
  { trees with rightmostChild := Function.update trees.rightmostChild node rightmostChild }

def setRetainCount (trees : CFTrees Node) (node : Node) (count : Nat) : CFTrees Node :=
  { trees with retainCount := Function.update trees.retainCount node count }

/-- `CFRetain` -/
def retain (trees : CFTrees Node) (node : Node) : CFTrees Node :=
  trees.setRetainCount node (trees.retainCount node + 1)

/-! ## Reading -/

/-- The loop of `CFTreeGetChildCount`. -/
def countLoop (trees : CFTrees Node) : Nat → Nat → Option Node → Option Nat
  | 0, _, _ => none
  | _ + 1, cnt, none => some cnt
  | fuel + 1, cnt, some tree => trees.countLoop fuel (cnt + 1) (trees.sibling tree)

def getChildCount (fuel : Nat) (trees : CFTrees Node) (tree : Node) : Option Nat :=
  trees.countLoop fuel 0 (trees.child tree)

def getParent (trees : CFTrees Node) (tree : Node) : Option Node := trees.parent tree

def getNextSibling (trees : CFTrees Node) (tree : Node) : Option Node := trees.sibling tree

def getFirstChild (trees : CFTrees Node) (tree : Node) : Option Node := trees.child tree

def findRoot : Nat → CFTrees Node → Node → Option Node
  | 0, _, _ => none
  | fuel + 1, trees, tree =>
    match trees.parent tree with
    | none => some tree
    | some parent => findRoot fuel trees parent

/-! ## Attaching -/

def prependChild (trees : CFTrees Node) (tree newChild : Node) : CFTrees Node :=
  let trees := trees.retain newChild
  let trees := trees.setParent newChild (some tree)
  let trees := trees.setSibling newChild (trees.child tree)
  let trees := if trees.child tree = none then trees.setRightmostChild tree (some newChild) else trees
  trees.setChild tree (some newChild)

/-- There is no result where the process halts, or follows a null pointer. -/
def appendChild (trees : CFTrees Node) (tree newChild : Node) : Option (CFTrees Node) :=
  if (trees.parent newChild).isSome then none else
  let trees := trees.retain newChild
  let trees := trees.setParent newChild (some tree)
  let trees := trees.setSibling newChild none
  match trees.child tree with
  | none => some ((trees.setChild tree (some newChild)).setRightmostChild tree (some newChild))
  | some _ => do
    let rightmostChild ← trees.rightmostChild tree
    return (trees.setSibling rightmostChild (some newChild)).setRightmostChild tree (some newChild)

def insertSibling (trees : CFTrees Node) (tree newSibling : Node) : CFTrees Node :=
  let trees := trees.retain newSibling
  let trees := trees.setParent newSibling (trees.parent tree)
  let trees := trees.setSibling newSibling (trees.sibling tree)
  let trees := trees.setSibling tree (some newSibling)
  match trees.parent tree with
  | none => trees
  | some parent =>
    if trees.rightmostChild parent = some tree then trees.setRightmostChild parent (some newSibling) else trees

/-! ## Detaching -/

mutual

/-- `CFRelease`. The last reference deallocates the node, and
`__CFTreeDeallocate` removes its children. -/
def release (fuel : Nat) (trees : CFTrees Node) (tree : Node) : Option (CFTrees Node) :=
  match fuel with
  | 0 => none
  | fuel + 1 =>
    let trees := trees.setRetainCount tree (trees.retainCount tree - 1)
    if trees.retainCount tree = 0 then removeAllChildren fuel trees tree else some trees

def removeAllChildren (fuel : Nat) (trees : CFTrees Node) (tree : Node) : Option (CFTrees Node) :=
  match fuel with
  | 0 => none
  | fuel + 1 =>
    let nextChild := trees.child tree
    removeLoop fuel ((trees.setChild tree none).setRightmostChild tree none) nextChild

/-- The loop of `CFTreeRemoveAllChildren`. -/
def removeLoop (fuel : Nat) (trees : CFTrees Node) (nextChild : Option Node) : Option (CFTrees Node) :=
  match fuel with
  | 0 => none
  | fuel + 1 =>
    match nextChild with
    | none => some trees
    | some nextChild => do
      let nextSibling := trees.sibling nextChild
      let trees ← release fuel ((trees.setParent nextChild none).setSibling nextChild none) nextChild
      removeLoop fuel trees nextSibling

end

/-- The loop of `CFTreeRemove`. It stops at the node before `tree`, if there is
one. -/
def previousLoop (trees : CFTrees Node) (tree : Node) : Nat → Option Node → Option (Option Node)
  | 0, _ => none
  | _ + 1, none => some none
  | fuel + 1, some prevSibling =>
    if trees.sibling prevSibling = some tree then some (some prevSibling)
    else trees.previousLoop tree fuel (trees.sibling prevSibling)

/-- The part of `CFTreeRemove` that changes the links around `tree`. -/
def unlink (fuel : Nat) (trees : CFTrees Node) (parent tree : Node) : Option (CFTrees Node) :=
  if trees.child parent = some tree then
    let trees := trees.setChild parent (trees.sibling tree)
    some (if trees.sibling tree = none then trees.setRightmostChild parent none else trees)
  else do
    match ← trees.previousLoop tree fuel (trees.child parent) with
    | none => return trees
    | some prevSibling =>
      let trees := trees.setSibling prevSibling (trees.sibling tree)
      return if trees.rightmostChild parent = some tree then trees.setRightmostChild parent (some prevSibling) else trees

def remove (fuel : Nat) (trees : CFTrees Node) (tree : Node) : Option (CFTrees Node) :=
  match trees.parent tree with
  | none => some trees
  | some parent => do
    let trees ← trees.unlink fuel parent tree
    release fuel ((trees.setParent tree none).setSibling tree none) tree

/-! ## Sorting -/

/-- The loop that lists the children. -/
def listLoop (trees : CFTrees Node) : Nat → Option Node → Option (List Node)
  | 0, _ => none
  | _ + 1, none => some []
  | fuel + 1, some nextChild => do return nextChild :: (← trees.listLoop fuel (trees.sibling nextChild))

/-- The loop that links the children in the order of the list. -/
def linkLoop (trees : CFTrees Node) : List Node → CFTrees Node
  | [] => trees
  | [last] => trees.setSibling last none
  | node :: next :: list => linkLoop (trees.setSibling node (some next)) (next :: list)

/-- The size of a pointer. -/
def sizeOfTreeRef : Nat := 8

def sortChildren (fuel : Nat) (trees : CFTrees Node) (tree : Node) (comparator : Node → Node → CFComparisonResult) :
    Option (CFTrees Node) := do
  let children ← trees.getChildCount fuel tree
  if 1 < children then
    let list ← trees.listLoop fuel (trees.child tree)
    let list ← Sorting.qSortArray list sizeOfTreeRef comparator
    let trees := trees.setChild tree list.head?
    let trees := trees.linkLoop list
    return trees.setRightmostChild tree list.getLast?
  else
    return trees

end CFTrees

/-! ## Sequences of operations -/

inductive Operation (Node : Type) where
  | prependChild (tree newChild : Node)
  | appendChild (tree newChild : Node)
  | insertSibling (tree newSibling : Node)
  | remove (tree : Node)
  | removeAllChildren (tree : Node)
  | sortChildren (tree : Node) (comparator : Node → Node → CFComparisonResult)

variable {Node : Type} [DecidableEq Node]

def Operation.apply (fuel : Nat) (trees : CFTrees Node) : Operation Node → Option (CFTrees Node)
  | prependChild tree newChild => some (trees.prependChild tree newChild)
  | appendChild tree newChild => trees.appendChild tree newChild
  | insertSibling tree newSibling => some (trees.insertSibling tree newSibling)
  | remove tree => trees.remove fuel tree
  | removeAllChildren tree => trees.removeAllChildren fuel tree
  | sortChildren tree comparator => trees.sortChildren fuel tree comparator

end CFLite.Tree
