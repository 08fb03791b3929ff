/-
PegGraph.Arithmetic.Grammar — sums and products of single digits.

    start     ::= exp EOI
    exp       ::= e1 (plus e1)*
    e1        ::= e2 (times e2)*
    e2        ::= number | paren_exp
    paren_exp ::= lparen exp rparen
    number    ::= digit

  §1 Productions — their names, and the node of each.
  §2 Rules       — the nodes that the productions stand for.
  §3 Parsing     — the parser of arithmetic expressions, and evaluation.

Operators associate to the left, and every operation is reduced modulo a fixed
number. Every production is a reference, so the grammar is cyclic and is
compressed before use.
-/
import PegGraph.Session

namespace PegGraph.Arithmetic

/-! ## §1 Productions -/

/-- The productions of the grammar: the non-terminals from the start down to a
single digit, and the terminals. -/
inductive Production where
  | start
  | sum
  | product
  | factor
  | parenthesised
  | number
  | plus
  | times
  | digit
  | leftParen
  | rightParen
  deriving DecidableEq, Inhabited

/-- The productions in the order of their definition. -/
def Production.all : List Production :=
  [.start, .sum, .product, .factor, .parenthesised, .number, .plus, .times, .digit, .leftParen,
   .rightParen]

/-- The name of a production, as its reference carries it. -/
def Production.name : Production → String
  | .start => "start"
  | .sum => "exp"
  | .product => "e1"
  | .factor => "e2"
  | .parenthesised => "paren_exp"
  | .number => "number"
  | .plus => "plus"
  | .times => "times"
  | .digit => "digit"
  | .leftParen => "lparen"
  | .rightParen => "rparen"

/-- Every production is listed. -/
theorem Production.mem_all (p : Production) : p ∈ Production.all := by cases p <;> decide

/-- The node of each production. -/
abbrev Nodes := Production → NodeId

/-- Adds an unbound reference for each production. -/
def references : List Production → Grammar.Build Nodes
  | [] => pure fun _ => 0
  | p :: rest => do
    let id ← Grammar.reference (some p.name)
    let others ← references rest
    pure fun q => if q = p then id else others q

/-! ## §2 Rules -/

/-- A chain of operands with an operator between them, folded by an action. -/
def chain (operand operator : NodeId) (fold : Action) : Grammar.Build NodeId := do
  let more ← Grammar.followedBy operator operand
  let rest ← Grammar.repetition more
  let whole ← Grammar.followedBy operand rest
  Grammar.action whole fold

/-- Adds the node that a production stands for. -/
def body (nodes : Nodes) : Production → Grammar.Build NodeId
  | .start => do
    let whole ← Grammar.followedBy (nodes .sum) (← Grammar.endOfInput)
    Grammar.action whole .first
  | .sum => chain (nodes .product) (nodes .plus) .foldSum
  | .product => chain (nodes .factor) (nodes .times) .foldProduct
  | .factor => Grammar.choice (nodes .number) (nodes .parenthesised)
  | .parenthesised => do
    let opened ← Grammar.followedBy (nodes .leftParen) (nodes .sum)
    let whole ← Grammar.followedBy opened (nodes .rightParen)
    Grammar.action whole .second
  | .number => Grammar.action (nodes .digit) .digitValue
  | .plus => Grammar.character '+'
  | .times => Grammar.character '*'
  | .digit => Grammar.range .digits
  | .leftParen => Grammar.character '('
  | .rightParen => Grammar.character ')'

/-- Adds the nodes that productions stand for, and yields what to bind to
what. -/
def bodies (nodes : Nodes) : List Production → Grammar.Build (List (NodeId × NodeId))
  | [] => pure []
  | p :: rest => do
    let id ← body nodes p
    let others ← bodies nodes rest
    pure ((nodes p, id) :: others)

/-- Adds the grammar to a session, every production bound. -/
def define : Session.Op (Except Fault Nodes) := do
  let nodes ← Session.build (references Production.all)
  let definitions ← Session.build (bodies nodes Production.all)
  match ← Session.bindAll definitions with
  | .error fault => pure (.error fault)
  | .ok () => pure (.ok nodes)

/-! ## §3 Parsing -/

/-- Makes a parser of arithmetic expressions. -/
def parser (config : Parser.Config) : Session.Op (Except Fault Parser) := do
  match ← define with
  | .error fault => pure (.error fault)
  | .ok nodes => Session.prepareParser (nodes .start) config

/-- The value of an arithmetic expression, with a fresh parser under the
default limits. Its actions read no guards, so none need names. -/
def evaluate (source : Source) : Session.Op (Except Fault Value) := do
  match ← parser .default with
  | .error fault => pure (.error fault)
  | .ok parser => Session.parseWith (fun _ => none) parser source

end PegGraph.Arithmetic
