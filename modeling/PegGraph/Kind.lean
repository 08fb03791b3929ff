/-
PegGraph.Kind — the closed set of node kinds, and how a kind is named.
-/

namespace PegGraph

/-- The kinds of node that a grammar is made of. The abstract kind stands for
a node without any behaviour of its own. -/
inductive Kind where
  | abstract
  | range
  | sequence
  | choice
  | repetition
  | action
  | endOfInput
  | reference
  deriving DecidableEq, Inhabited

/-- The name of a kind in messages and listings. -/
def Kind.name : Kind → String
  | .abstract => "CombinatorialParser"
  | .range => "CharacterRange"
  | .sequence => "Sequence"
  | .choice => "Alternation"
  | .repetition => "Repetition"
  | .action => "Wrap"
  | .endOfInput => "EndOfInput"
  | .reference => "ForwardReference"

/-- The operations that the abstract kind names without giving them a
meaning. -/
inductive Operation where
  | parse
  | compress
  deriving DecidableEq, Inhabited

/-- The name of an operation in messages. -/
def Operation.name : Operation → String
  | .parse => "parse_with_context"
  | .compress => "compress"

end PegGraph
