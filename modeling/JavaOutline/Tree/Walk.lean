import JavaOutline.Tree.Basic

/-!
# Walking through a tree

A walk enters a node, visits its children from left to right, and leaves the node. `Tree.visits` is
the list of what happens on the way. Entering a node shows its children; apart from that the visits
only name rules and leaves, and `Tree.events` forgets the children.
-/

namespace JavaOutline

/-- What happens on a walk. -/
inductive Visit (α : Type) where
  | enter (r : Rule) (children : List (Tree α))
  | leave (r : Rule)
  | token (a : α)
  | skipped (a : α)
  | missing (k : Kind)

/-- What happens on a walk, without the children of the nodes. -/
inductive Event (α : Type) where
  | enter (r : Rule)
  | leave (r : Rule)
  | token (a : α)
  | skipped (a : α)
  | missing (k : Kind)
  deriving DecidableEq, Repr, Inhabited

/-- A visit without the children of the node. -/
def Visit.event {α : Type} : Visit α → Event α
  | .enter r _ => .enter r
  | .leave r => .leave r
  | .token a => .token a
  | .skipped a => .skipped a
  | .missing k => .missing k

namespace Tree

variable {α : Type}

mutual

/-- The visits of a walk through a tree. -/
def visits : Tree α → List (Visit α)
  | .token _ a => [.token a]
  | .skipped a => [.skipped a]
  | .missing k => [.missing k]
  | .node _ r children => .enter r children :: visitsAll children ++ [.leave r]

/-- The visits of a walk through several trees. -/
def visitsAll : List (Tree α) → List (Visit α)
  | [] => []
  | t :: ts => t.visits ++ visitsAll ts

end

/-- The events of a walk through a tree. -/
def events (t : Tree α) : List (Event α) := t.visits.map Visit.event

mutual

/-- The nodes of a tree with their rules and children, from the root down and from left to right. -/
def nodes : Tree α → List (Rule × List (Tree α))
  | .node _ r children => (r, children) :: nodesAll children
  | _ => []

/-- The nodes of several trees. -/
def nodesAll : List (Tree α) → List (Rule × List (Tree α))
  | [] => []
  | t :: ts => t.nodes ++ nodesAll ts

end

end Tree

end JavaOutline
