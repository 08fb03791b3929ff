/-
PegGraph.NestedList — nested lists of non-negative integers.

    document ::= value EOI
    value    ::= integer | list
    list     ::= '[' (value (',' value)*)? ']'
    integer  ::= digit digit*

  §1 Actions — what the parts of the notation mean.
  §2 Grammar — the nodes, and the parser.
-/
import PegGraph.Session

namespace PegGraph.NestedList

/-! ## §1 Actions -/

/-- The number that a first digit and a tuple of further digits stand for. -/
def integerAction : Action := .pure fun v =>
  match v.part 0, v.part 1 with
  | .ok first, .ok rest => Value.readNumeral (first.join ++ rest.join)
  | .error fault, _ => .error fault
  | _, .error fault => .error fault

/-- The second parts of pairs, in order. -/
def seconds : List Value → Except Fault (List Value)
  | [] => .ok []
  | p :: ps =>
    match p.pair with
    | .error fault => .error fault
    | .ok (_, item) =>
      match seconds ps with
      | .error fault => .error fault
      | .ok items => .ok (item :: items)

/-- The list of a first item and a tuple of further items, each behind a
comma. -/
def itemsAction : Action := .pure fun v =>
  match v.part 0, v.part 1 with
  | .ok first, .ok rest =>
    match rest.items? with
    | none => .error .shapeMismatch
    | some pairs =>
      match seconds pairs with
      | .error fault => .error fault
      | .ok items => .ok (.list (first :: items))
  | .error fault, _ => .error fault
  | _, .error fault => .error fault

/-! ## §2 Grammar -/

/-- Adds the nodes of the notation, and yields the reference for values, the
node that it stands for, and the root. -/
def nodes : Grammar.Build (NodeId × NodeId × NodeId) := do
  let digit ← Grammar.range .digits
  let integer ← Grammar.sequence [digit, ← Grammar.repetition digit]
  let integer ← Grammar.action integer integerAction
  let value ← Grammar.reference (some "value")
  let more ← Grammar.sequence [← Grammar.character ',', value]
  let items ← Grammar.sequence [value, ← Grammar.repetition more]
  let items ← Grammar.action items itemsAction
  let closing ← Grammar.character ']'
  let empty ← Grammar.sequence [← Grammar.character '[', closing]
  let empty ← Grammar.action empty (.const (.list []))
  let filled ← Grammar.sequence [← Grammar.character '[', items, closing]
  let filled ← Grammar.action filled .second
  let list ← Grammar.choice empty filled
  let body ← Grammar.choice integer list
  let document ← Grammar.sequence [value, ← Grammar.endOfInput]
  let document ← Grammar.action document .first
  pure (value, body, document)

/-- Makes a parser of nested lists under the default limits. -/
def parser : Session.Op (Except Fault Parser) := do
  let (value, body, document) ← Session.build nodes
  match ← Session.bind value body with
  | .error fault => pure (.error fault)
  | .ok () => Session.prepareParser document .default

end PegGraph.NestedList
