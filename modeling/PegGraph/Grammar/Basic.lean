/-
PegGraph.Grammar.Basic — a grammar as a growing store of nodes.

  §1 The store   — nodes by number; links may form cycles and be shared.
  §2 Growing     — adding nodes of each kind.
  §3 Binding     — giving a reference its target, once.

A number that is not in the store reads as the abstract node, so that every
number has a meaning.
-/
import PegGraph.Node

namespace PegGraph

/-! ## §1 The store -/

/-- The nodes of one or several grammars, which may share nodes. A node keeps
its number for good. -/
structure Grammar where
  nodes : Array Node

namespace Grammar

/-- The grammar without nodes. -/
def empty : Grammar := ⟨#[]⟩

instance : Inhabited Grammar := ⟨empty⟩

/-- The number of nodes. -/
def size (g : Grammar) : Nat := g.nodes.size

/-- The node of a number. -/
def node (g : Grammar) (id : NodeId) : Node := g.nodes.getD id .abstract

/-- The nodes that a node leads to. -/
def links (g : Grammar) (id : NodeId) : List NodeId := (g.node id).links

/-- Replaces a node. -/
def set (g : Grammar) (id : NodeId) (node : Node) : Grammar := ⟨g.nodes.setIfInBounds id node⟩

@[simp] theorem size_set (g : Grammar) (id : NodeId) (n : Node) : (g.set id n).size = g.size := by
  simp [size, set]

/-- A replaced node reads as its replacement. -/
theorem node_set_self {g : Grammar} {id : NodeId} (h : id < g.size) (n : Node) :
    (g.set id n).node id = n := by
  have h : id < g.nodes.size := h
  simp [node, set, Array.getD_eq_getD_getElem?, h]

/-- All other nodes stay as they are. -/
theorem node_set_ne {g : Grammar} {id other : NodeId} (h : other ≠ id) (n : Node) :
    (g.set id n).node other = g.node other := by
  simp [node, set, Array.getD_eq_getD_getElem?, Array.getElem?_setIfInBounds_ne (Ne.symm h)]

/-- A number beyond the store reads as the abstract node. -/
theorem node_of_size_le {g : Grammar} {id : NodeId} (h : g.size ≤ id) :
    g.node id = .abstract := by
  have h : g.nodes.size ≤ id := h
  simp [node, Array.getD_eq_getD_getElem?, h]

/-! ## §2 Growing -/

/-- A step that may add nodes and yields a result. -/
abbrev Build := StateM Grammar

/-- Adds a node under the next number. -/
def add (n : Node) : Build NodeId := fun g => (g.size, ⟨g.nodes.push n⟩)

@[simp] theorem add_fst (n : Node) (g : Grammar) : (add n g).1 = g.size := rfl

@[simp] theorem size_add (n : Node) (g : Grammar) : (add n g).2.size = g.size + 1 := by
  simp [add, size]

/-- The added node reads as it was given. -/
theorem node_add_self (n : Node) (g : Grammar) : (add n g).2.node g.size = n := by
  simp [add, node, size, Array.getD_eq_getD_getElem?]

/-- Adding a node leaves all others as they are. -/
theorem node_add_of_lt (n : Node) {g : Grammar} {id : NodeId} (h : id < g.size) :
    (add n g).2.node id = g.node id := by
  have h : id < g.nodes.size := h
  simp [add, node, Array.getD_eq_getD_getElem?, Array.getElem?_push_lt, h]

/-- One character of a range. -/
def range (bounds : CharRange) : Build NodeId := add (.range bounds)

/-- Exactly the given character. -/
def character (c : Char) : Build NodeId := range (.single c)

/-- The given nodes in order. -/
def sequence (children : List NodeId) : Build NodeId := add (.sequence children false)

/-- The first node, or else the second from the same position. -/
def choice (first second : NodeId) : Build NodeId := add (.choice first second false)

/-- The first of two or more nodes that matches, as choices nested to the
right. -/
def oneOf (first second : NodeId) : List NodeId → Build NodeId
  | [] => choice first second
  | third :: rest => do
    let others ← oneOf second third rest
    choice first others

/-- A node as often as it goes. -/
def repetition (child : NodeId) : Build NodeId := add (.repetition child false)

/-- A node, and an action on its value. -/
def action (child : NodeId) (act : Action) : Build NodeId := add (.action child act false)

/-- The end of the source. -/
def endOfInput : Build NodeId := add .endOfInput

/-- A reference without a target. -/
def reference (name : Option String) : Build NodeId := add (.reference name none)

/-- The abstract node. -/
def abstract : Build NodeId := add .abstract

/-- A node and another after it. A sequence is extended: the new sequence has
the children of the old one, and the other node last. -/
def followedBy (id other : NodeId) : Build NodeId := fun g =>
  match g.node id with
  | .sequence children _ => sequence (children ++ [other]) g
  | _ => sequence [id, other] g

/-! ## §3 Binding -/

/-- Gives a reference its target. A reference is bound once, and nothing but a
reference can be bound. -/
def bind (g : Grammar) (id target : NodeId) : Except Fault Grammar :=
  match g.node id with
  | .reference name none => .ok (g.set id (.reference name (some target)))
  | .reference name (some _) => .error (.alreadyBound (Node.labelOf id name))
  | n => .error (.bindUnsupported n.kind)

end Grammar

end PegGraph
