/-
PegGraph.Grammar.Walk — the nodes that can be reached from a node.

  §1 The walk  — depth first, from left to right, every node once.
  §2 Surveys   — counting nodes, and finding unbound references.

References are followed to their targets, compressed or not.
-/
import PegGraph.Grammar.Resolve

namespace PegGraph.Grammar

/-! ## §1 The walk -/

/-- Visits the nodes on a stack, top first, and puts the links of a node that
is new in their order on top. A node counts as seen once it is taken from the
stack, so a stack may hold it several times. -/
def walkFrom (g : Grammar) : Nat → List NodeId → List NodeId → List NodeId
  | 0, _, seen => seen.reverse
  | _ + 1, [], seen => seen.reverse
  | steps + 1, id :: stack, seen =>
    if id ∈ seen then g.walkFrom steps stack seen
    else g.walkFrom steps ((g.links id).filter (· ∉ id :: seen) ++ stack) (id :: seen)

/-- The number of links in the store. -/
def linkCount (g : Grammar) : Nat :=
  g.nodes.toList.foldr (fun node count => node.links.length + count) 0

/-- The nodes that can be reached from a node, in the order of a walk that
goes depth first and from left to right. Every link puts at most one node on
the stack. -/
def walk (g : Grammar) (root : NodeId) : List NodeId := g.walkFrom (g.linkCount + 1) [root] []

/-! ## §2 Surveys -/

/-- The number of nodes that can be reached. -/
def count (g : Grammar) (root : NodeId) : Nat := (g.walk root).length

/-- Whether a node is a reference without a target. -/
def isUnbound (g : Grammar) (id : NodeId) : Bool :=
  match g.node id with
  | .reference _ none => true
  | _ => false

/-- The references without a target that can be reached, in the order of the
walk. -/
def unboundReferences (g : Grammar) (root : NodeId) : List NodeId :=
  (g.walk root).filter g.isUnbound

end PegGraph.Grammar
