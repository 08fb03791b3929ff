/-
PegGraph.Parse.Basic — what a parse yields, and what it carries along.

  §1 Outcomes — a match, no match, or a fault.
  §2 Events   — the steps of a parse that can be observed.
  §3 Progress — position, depth and the events so far.
  §4 Settings — what stays the same during a parse.
-/
import PegGraph.Cursor
import PegGraph.Grammar.Resolve

namespace PegGraph

/-! ## §1 Outcomes -/

/-- How an attempt to match ends. A match has a value, which may be nothing,
and the position after it. No match is an ordinary answer and has neither. -/
inductive Outcome where
  | matched (value : Value) (pos : Int)
  | noMatch
  | failed (fault : Fault)
  deriving Inhabited

namespace Parse

/-! ## §2 Events -/

/-- A step of a parse. Depths are those of the guard. -/
inductive Event where
  /-- A composite was tried at a position and entered its guarded section. -/
  | entered (node : NodeId) (pos depth : Int)
  /-- A composite left its guarded section. -/
  | left (node : NodeId) (pos depth : Int)
  /-- A repetition tried its child once more. -/
  | tried (node : NodeId) (pos depth : Int)
  /-- An action was called, under a label if its calls are recorded. -/
  | applied (node : NodeId) (label : Option String) (value : Value) (depth : Int)
  deriving Inhabited

/-- The entry that a call leaves in the trace. -/
def Event.traceEntry? : Event → Option (String × Value)
  | .applied _ (some label) value _ => some (label, value)
  | _ => none

/-! ## §3 Progress -/

/-- Where a parse stands: the position, the guard, and the events so far, the
latest first. -/
structure Progress where
  pos : Int
  guard : DepthGuard
  events : List Event
  deriving Inhabited

namespace Progress

/-- Records an event. -/
def note (st : Progress) (event : Event) : Progress := { st with events := event :: st.events }

/-- Enters the guarded section of a node. -/
def enter (st : Progress) (id : NodeId) : Except Fault Progress :=
  match st.guard.enter with
  | .error fault => .error fault
  | .ok guard => .ok ({ st with guard }.note (.entered id st.pos guard.currentDepth))

/-- Leaves the guarded section of a node. -/
def leave (st : Progress) (id : NodeId) : Progress :=
  { st with guard := st.guard.leave }.note (.left id st.pos st.guard.leave.currentDepth)

/-- Goes back to a position, which must lie inside the source. -/
def restore (st : Progress) (source : Source) (pos : Int) : Except Fault Progress :=
  match Cursor.checkPosition source pos with
  | .error fault => .error fault
  | .ok () => .ok { st with pos }

/-- Characters left to read. -/
def remaining (st : Progress) (source : Source) : Nat := (source.length - st.pos).toNat

end Progress

/-! ## §4 Settings -/

/-- What a parse does with a reference. -/
inductive ReferenceMode where
  /-- A reference is a fault: the grammar should have been compressed. -/
  | reject
  /-- A bound reference acts as the node that it stands for. -/
  | follow
  deriving DecidableEq, Inhabited

/-- What stays the same during a parse. Guards other than the one that counts
the parse cannot change meanwhile, so `readDepth` is a function of that guard's
depth and the name of the guard to read. A name may stand for no guard. -/
structure Setting where
  grammar : Grammar
  source : Source
  mode : ReferenceMode
  readDepth : Int → String → Option Int

/-- The node that acts when a node is tried. -/
def Setting.actor (cx : Setting) (id : NodeId) : Except Fault NodeId :=
  match cx.grammar.node id with
  | .reference name target =>
    match cx.mode, target with
    | .follow, some _ => cx.grammar.resolve id
    | _, _ => .error (.uncompressedReference (Node.labelOf id name))
  | _ => .ok id

end Parse

end PegGraph
