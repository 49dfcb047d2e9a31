import Covenant.Code.Contract
import Covenant.Code.Reach

/-!
The graph of the blocks of a function. One block dominates another if every path from the entry to
the other passes through it; loops are found by the edges that lead back to a dominating block.

The closest dominators of all blocks are found together: going through the blocks in reverse
postorder again and again, each is given the closest common dominator of its predecessors, as far as
those have one, until nothing changes.
-/

namespace Covenant

structure FlowGraph where
  entry : BlockId
  edges : List (List BlockId)
deriving DecidableEq, Repr

structure DominatorTree where
  order : List BlockId
  parents : List (Option BlockId)
deriving DecidableEq, Repr

namespace DominatorTree

def parent? (tree : DominatorTree) (block : BlockId) : Option BlockId :=
  tree.parents.getD block none

def place (tree : DominatorTree) (block : BlockId) : Nat := tree.order.idxOf block

def give (tree : DominatorTree) (block upper : BlockId) : DominatorTree :=
  { tree with parents := tree.parents.set block (some upper) }

/-- The closest common dominator of two blocks: the one that comes later goes up to its parent until
they are the same. One that cannot go up leaves the other as the answer. -/
def meet? (tree : DominatorTree) : Nat → BlockId → BlockId → Option BlockId
  | 0, _, _ => none
  | fuel + 1, left, right =>
    if left == right then some left
    else if tree.place right < tree.place left then
      match tree.parent? left with
      | some upper => if upper == left then some right else tree.meet? fuel upper right
      | none => some right
    else if tree.place left < tree.place right then
      match tree.parent? right with
      | some upper => if upper == right then some left else tree.meet? fuel left upper
      | none => some left
    else tree.meet? fuel left right

def meetAll? (tree : DominatorTree) (fuel : Nat) (found : Option BlockId) :
    List BlockId → Option (Option BlockId)
  | [] => some found
  | block :: rest =>
    match tree.parent? block, found with
    | none, _ => tree.meetAll? fuel found rest
    | some _, none => tree.meetAll? fuel (some block) rest
    | some _, some other => do
      let common ← tree.meet? fuel block other
      tree.meetAll? fuel (some common) rest

def immediate? (tree : DominatorTree) (block : BlockId) : Option BlockId :=
  (tree.parent? block).filter fun upper => upper != block

def climbs? (tree : DominatorTree) (block : BlockId) : Nat → BlockId → Option Bool
  | 0, _ => none
  | fuel + 1, other =>
    if other == block then some true
    else
      match tree.immediate? other with
      | some upper => tree.climbs? block fuel upper
      | none => some false

def dominates (tree : DominatorTree) (block other : BlockId) : Bool :=
  tree.order.contains other && (tree.climbs? block (tree.order.length + 1) other).getD false

end DominatorTree

namespace FlowGraph

def ofSuccessors (entry : BlockId) (successors : List (List BlockId)) : FlowGraph :=
  { entry, edges := successors.map fun targets => targets.filter fun target =>
    target < successors.length }

def ofFunction (function : Function) : FlowGraph :=
  ofSuccessors function.entry (function.blocks.map fun block => block.terminator.node.successors)

def size (graph : FlowGraph) : Nat := graph.edges.length

def blocks (graph : FlowGraph) : List BlockId := List.range graph.size

def successors (graph : FlowGraph) (block : BlockId) : List BlockId := graph.edges.getD block []

def predecessors (graph : FlowGraph) (block : BlockId) : List BlockId :=
  graph.blocks.filter fun other => (graph.successors other).contains block

def patience (graph : FlowGraph) : Nat :=
  (graph.size + 1) * (graph.size + 1) + 2 * graph.edges.flatten.length

def reversePostorder? (graph : FlowGraph) (fuel : Nat) : Option (List BlockId) :=
  if graph.entry < graph.size then Reach.descend? graph.successors fuel ⟨[graph.entry], []⟩
    [(graph.entry, 0)]
  else some []

def reversePostorder (graph : FlowGraph) : List BlockId :=
  (graph.reversePostorder? graph.patience).getD []

def isReachable (graph : FlowGraph) (block : BlockId) : Bool :=
  graph.reversePostorder.contains block

def startTree (graph : FlowGraph) (order : List BlockId) : DominatorTree :=
  ⟨order, (List.replicate graph.size none).set graph.entry (some graph.entry)⟩

def revise? (graph : FlowGraph) (fuel : Nat) (tree : DominatorTree) (block : BlockId) :
    Option DominatorTree := do
  match ← tree.meetAll? fuel none (graph.predecessors block) with
  | some upper => return tree.give block upper
  | none => return tree

def round? (graph : FlowGraph) (fuel : Nat) (tree : DominatorTree) : Option DominatorTree :=
  tree.order.tail.foldlM (graph.revise? fuel) tree

def settle? (graph : FlowGraph) (fuel : Nat) : Nat → DominatorTree → Option DominatorTree
  | 0, _ => none
  | rounds + 1, tree => do
    let revised ← graph.round? fuel tree
    if revised == tree then return tree else graph.settle? fuel rounds revised

def dominators? (graph : FlowGraph) (fuel : Nat) : Option DominatorTree := do
  let order ← graph.reversePostorder? fuel
  graph.settle? fuel fuel (graph.startTree order)

def dominators (graph : FlowGraph) : DominatorTree :=
  (graph.dominators? graph.patience).getD ⟨[], []⟩

def dominates (graph : FlowGraph) (block other : BlockId) : Bool :=
  graph.dominators.dominates block other

def immediateDominator? (graph : FlowGraph) (block : BlockId) : Option BlockId :=
  graph.dominators.immediate? block

def backEdges (graph : FlowGraph) : List (BlockId × BlockId) :=
  let tree := graph.dominators
  graph.reversePostorder.flatMap fun source =>
    ((graph.successors source).filter fun target => tree.dominates target source).map fun target =>
      (source, target)

def naturalLoop (graph : FlowGraph) (source header : BlockId) : List BlockId :=
  ((Reach.gather? graph.predecessors graph.patience [header] [source]).getD []).mergeSort
    fun left right => left ≤ right

def reachableFrom (graph : FlowGraph) (block : BlockId) : List BlockId :=
  (Reach.gather? graph.successors graph.patience [] (graph.successors block).reverse).getD []

end FlowGraph

end Covenant
