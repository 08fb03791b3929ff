/-
PegGraph.Node — one node of a grammar.

  §1 Ranges — two characters and everything between them.
  §2 Nodes  — the kinds of node with their links, by node number.
  §3 Links  — reading and replacing the links of a node.
  §4 Marks  — the mark that compression leaves on a composite.
  §5 Labels — what references are called in messages; `labelOf_eq_none_iff`: one
              without a name is told apart from all others.
  §6 Words  — kind and description of a node.

The bounds of a range are Unicode scalar values, as the characters of a source
are. A range of the host that begins or ends at a surrogate code point has no
counterpart here.
-/
import PegGraph.Action
import PegGraph.Kind
import PegGraph.Text

namespace PegGraph

/-! ## §1 Ranges -/

/-- The characters between two bounds, both included, by code point. -/
structure CharRange where
  lower : Char
  upper : Char
  lower_le_upper : lower ≤ upper
  deriving DecidableEq

namespace CharRange

/-- The range of one character. -/
def single (c : Char) : CharRange := ⟨c, c, Char.le_refl c⟩

/-- The ASCII digits. -/
def digits : CharRange := ⟨'0', '9', by decide⟩

/-- The range between two texts of one character each, in order. -/
def ofBounds (lower upper : String) : Except Fault CharRange :=
  match lower.toList, upper.toList with
  | [l], [u] => if h : l ≤ u then .ok ⟨l, u, h⟩ else .error (.emptyRange l u)
  | _, _ => .error (.boundNotSingle lower upper)

/-- Whether a character lies in the range. -/
def contains (r : CharRange) (c : Char) : Bool := r.lower ≤ c && c ≤ r.upper

end CharRange

/-! ## §2 Nodes -/

/-- The number of a node in its grammar. Nodes are told apart by number. -/
abbrev NodeId := Nat

/-- A node. The composites, which link to the nodes they are made of, carry a
mark that says whether compression has been there. -/
inductive Node where
  /-- A node without behaviour of its own. -/
  | abstract
  /-- Matches one character of a range. -/
  | range (bounds : CharRange)
  /-- Matches its children one after another. -/
  | sequence (children : List NodeId) (compressed : Bool)
  /-- Matches its first child, or else its second from the same position. -/
  | choice (first second : NodeId) (compressed : Bool)
  /-- Matches its child as often as it goes. -/
  | repetition (child : NodeId) (compressed : Bool)
  /-- Matches its child and acts on the value. -/
  | action (child : NodeId) (action : Action) (compressed : Bool)
  /-- Matches the end of the source. -/
  | endOfInput
  /-- Stands for a node that may be given later. -/
  | reference (name : Option String) (target : Option NodeId)

instance : Inhabited Node := ⟨.abstract⟩

namespace Node

/-! ## §3 Links -/

/-- The nodes that a node leads to, from left to right. A bound reference
leads to its target. -/
def links : Node → List NodeId
  | .sequence children _ => children
  | .choice first second _ => [first, second]
  | .repetition child _ => [child]
  | .action child _ _ => [child]
  | .reference _ (some target) => [target]
  | _ => []

/-- Replaces the link of a composite at an index. -/
def setLink (index : Nat) (link : NodeId) : Node → Node
  | .sequence children compressed => .sequence (children.set index link) compressed
  | .choice first second compressed =>
    match index with
    | 0 => .choice link second compressed
    | 1 => .choice first link compressed
    | _ => .choice first second compressed
  | .repetition child compressed => .repetition (if index = 0 then link else child) compressed
  | .action child act compressed => .action (if index = 0 then link else child) act compressed
  | node => node

/-! ## §4 Marks -/

/-- Whether a node is made of others through links of its own. -/
def isComposite : Node → Bool
  | .sequence _ _ | .choice _ _ _ | .repetition _ _ | .action _ _ _ => true
  | _ => false

/-- Whether a node stands for another. -/
def isReference : Node → Bool
  | .reference _ _ => true
  | _ => false

/-- Whether compression has marked a node. Only composites are marked. -/
def compressed : Node → Bool
  | .sequence _ compressed => compressed
  | .choice _ _ compressed => compressed
  | .repetition _ compressed => compressed
  | .action _ _ compressed => compressed
  | _ => false

/-- Sets or clears the mark of a composite. -/
def setCompressed (mark : Bool) : Node → Node
  | .sequence children _ => .sequence children mark
  | .choice first second _ => .choice first second mark
  | .repetition child _ => .repetition child mark
  | .action child act _ => .action child act mark
  | node => node

/-! ## §5 Labels -/

/-- What a reference without a name is called in messages: by its address, for
which its number stands, so that no two are called the same. -/
def anonymous (id : NodeId) : String := "<anonymous at 0x" ++ Text.hexadecimal id ++ ">"

theorem anonymous_inj {id other : NodeId} : anonymous other = anonymous id ↔ other = id := by
  refine ⟨fun h => ?_, congrArg anonymous⟩
  -- To derive the equation of the definition takes seconds, because of the literals in it.
  change "<anonymous at 0x" ++ Text.hexadecimal other ++ ">" =
    "<anonymous at 0x" ++ Text.hexadecimal id ++ ">" at h
  rw [String.append_left_inj, String.append_right_inj] at h
  exact Text.hexadecimal_inj.1 h

theorem head?_anonymous (id : NodeId) : (anonymous id).toList.head? = some '<' := by
  change ("<anonymous at 0x" ++ Text.hexadecimal id ++ ">").toList.head? = some '<'
  simp

theorem anonymous_ne_empty (id : NodeId) : anonymous id ≠ "" := by
  intro h
  have hhead := head?_anonymous id
  rw [h] at hhead
  cases hhead

/-- A quoted text begins with a quote, and an address does not. -/
theorem quoted_ne_anonymous (name : String) (id : NodeId) : Text.quoted name ≠ anonymous id := by
  intro h
  have hhead := head?_anonymous id
  rw [← h, Text.head?_quoted] at hhead
  rcases Text.quoteFor_eq name.toList with hquote | hquote <;> rw [hquote] at hhead <;>
    exact absurd hhead (by decide)

/-- What the reference with a given number is called in messages: its quoted
name, or its address where it has none. -/
def labelOf (id : NodeId) : Option String → String
  | some name => Text.quoted name
  | none => anonymous id

/-- A reference without a name is called what no other reference is called. -/
theorem labelOf_eq_none_iff {id other : NodeId} {name : Option String} :
    labelOf other name = labelOf id none ↔ name = none ∧ other = id := by
  cases name with
  | none =>
    rw [labelOf, labelOf, anonymous_inj]
    exact (and_iff_right rfl).symm
  | some name =>
    rw [labelOf, labelOf]
    exact ⟨fun h => absurd h (quoted_ne_anonymous name id), fun h => nomatch h.1⟩

/-- The label of the reference with a given number; other nodes have none. -/
def label (id : NodeId) : Node → String
  | .reference name _ => labelOf id name
  | _ => ""

/-! ## §6 Words -/

/-- The kind of a node. -/
def kind : Node → Kind
  | .abstract => .abstract
  | .range _ => .range
  | .sequence _ _ => .sequence
  | .choice _ _ _ => .choice
  | .repetition _ _ => .repetition
  | .action _ _ _ => .action
  | .endOfInput => .endOfInput
  | .reference _ _ => .reference

/-- A node in one line: its kind and, for some kinds, what tells it apart. -/
def describe (node : Node) : String :=
  node.kind.name ++ "(" ++ detail ++ ")"
where
  /-- What stands in the brackets. -/
  detail : String :=
    match node with
    | .range bounds =>
      Text.quoted (String.singleton bounds.lower) ++ ", " ++
        Text.quoted (String.singleton bounds.upper)
    | .sequence children _ => "<" ++ toString children.length ++ " parsers>"
    | .reference name _ => Text.quotedOrNone name
    | _ => ""

end Node

end PegGraph
