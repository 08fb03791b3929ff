/-
PegGraph.Notice — what the library reports while it works.
-/

namespace PegGraph

/-- Something worth reporting. Labels and descriptions are those of the nodes
concerned. -/
inductive Notice where
  /-- A reference was bound to a node. -/
  | referenceBound (label target : String)
  /-- A grammar was compressed; its root is now the node described. -/
  | grammarCompressed (root : String)
  /-- A parser is ready for use. -/
  | parserReady (nodeCount : Nat) (maxDepth maxSourceSize : Int)
  /-- A depth limit was lowered to what the host allows. -/
  | depthClamped (requested callDepth safe : Int)
  deriving DecidableEq, Inhabited

namespace Notice

/-- How much a notice matters. -/
inductive Severity where
  | detail
  | warning
  deriving DecidableEq, Inhabited

/-- A lowered limit is a warning, all else is detail. -/
def severity : Notice → Severity
  | .depthClamped _ _ _ => .warning
  | _ => .detail

/-- The text of a notice. -/
def message : Notice → String
  | .referenceBound label target => "Bound forward reference " ++ label ++ " to " ++ target
  | .grammarCompressed root => "Compressed grammar rooted at " ++ root
  | .parserReady nodeCount maxDepth maxSourceSize =>
    "GrammarParser ready: " ++ toString nodeCount ++ " parsers, max_depth=" ++
      toString maxDepth ++ ", max_source_size=" ++ toString maxSourceSize
  | .depthClamped requested callDepth safe =>
    "Requested depth " ++ toString requested ++ " exceeds Python recursion limit (" ++
      toString callDepth ++ "). Clamping to " ++ toString safe ++
      " to prevent RecursionError. Consider increasing sys.setrecursionlimit() if needed."

end Notice

end PegGraph
