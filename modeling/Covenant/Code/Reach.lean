/-!
Searches in a graph that is given by the successors of each node: depth-first search, by recursion
and with a stack of its own, and the search that keeps a stack of nodes still to be looked at.
-/

namespace Covenant

namespace Reach

structure Visit (α : Type) where
  seen : List α
  order : List α

def visit {α : Type} [BEq α] (next : α → List α) : Nat → Visit α → α → Visit α
  | 0, found, _ => found
  | fuel + 1, found, node =>
    if found.seen.contains node then found
    else
      let inner := (next node).foldl (visit next fuel) { found with seen := node :: found.seen }
      { inner with order := node :: inner.order }

/-- The nodes that can be reached from the given roots without passing through a barred node, in
reverse postorder. A path of distinct nodes must not be longer than `fuel`. -/
def closure {α : Type} [BEq α] (next : α → List α) (fuel : Nat) (barred roots : List α) : List α :=
  (roots.foldl (visit next fuel) ⟨barred, []⟩).order

/-- The nodes that depth-first search finishes with, the last one first, unless it takes more than
`fuel` steps. The stack holds the nodes that it is in, the last one first, each with the number of
its successors that it has tried. -/
def descend? {α : Type} [BEq α] (next : α → List α) :
    Nat → Visit α → List (α × Nat) → Option (List α)
  | _, found, [] => some found.order
  | 0, _, _ :: _ => none
  | fuel + 1, found, (node, tried) :: stack =>
    match (next node)[tried]? with
    | none => descend? next fuel { found with order := node :: found.order } stack
    | some other =>
      if found.seen.contains other then descend? next fuel found ((node, tried + 1) :: stack)
      else
        descend? next fuel { found with seen := other :: found.seen }
          ((other, 0) :: (node, tried + 1) :: stack)

def gather? {α : Type} [BEq α] (next : α → List α) : Nat → List α → List α → Option (List α)
  | _, found, [] => some found
  | 0, _, _ :: _ => none
  | fuel + 1, found, node :: stack =>
    if found.contains node then gather? next fuel found stack
    else gather? next fuel (node :: found) ((next node).reverse ++ stack)

end Reach

end Covenant
