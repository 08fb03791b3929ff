/-
PegGraph.Action — what a grammar does with a value that it has matched.

  §1 Parts     — taking values apart, and reading numerals.
  §2 Folding   — chains of operators, folded from the left.
  §3 The type  — pure functions, traced calls and calls that read a guard.
  §4 Catalogue — the actions that the grammars of this library use, and the
                 general-purpose ones.

An action keeps nothing from one call to the next: what it makes of a value
depends on the value and, where it reads a guard, on the depth shown. A transform
with a state of its own, such as one that counts its calls, is no action here.
-/
import PegGraph.Fault
import PegGraph.Value

namespace PegGraph

namespace Value

/-! ## §1 Parts -/

/-- The part of a compound value at an index. -/
def part (index : Nat) (v : Value) : Except Fault Value :=
  match v with
  | .tuple items => match items[index]? with
    | some item => .ok item
    | Option.none => .error .tupleIndex
  | .list items => match items[index]? with
    | some item => .ok item
    | Option.none => .error .listIndex
  | .text content => match content.toList[index]? with
    | some c => .ok (.text (String.singleton c))
    | Option.none => .error .textIndex
  | _ => .error .shapeMismatch

/-- The two parts of a value that has exactly two. -/
def pair (v : Value) : Except Fault (Value × Value) :=
  match v.items? with
  | some [a, b] => .ok (a, b)
  | some (_ :: _ :: _ :: _) => .error .tooManyParts
  | some short => .error (.tooFewParts short.length)
  | Option.none => .error .shapeMismatch

@[simp] theorem pair_tuple (a b : Value) : pair (.tuple [a, b]) = .ok (a, b) := rfl

/-- The number written by decimal digits, the most significant first. -/
def readDigits (digits : List Char) : Nat :=
  digits.foldl (fun n d => n * 10 + (d.toNat - '0'.toNat)) 0

/-- Reads a decimal numeral: one or more ASCII digits, and not more than are
read at once. -/
def readNumeral (s : String) : Except Fault Value :=
  if s.toList ≠ [] ∧ s.toList.all Char.isDigit then
    if s.toList.length > Limits.maxNumeralDigits then .error (.numeralTooLong s.toList.length)
    else .ok (.int (readDigits s.toList))
  else .error (.notNumeral s)

/-! ## §2 Folding -/

/-- Combines two numbers and reduces the result modulo the arithmetic
modulus. The remainder is never negative. -/
def combine (op : Int → Int → Int) (a b : Value) : Except Fault Value :=
  match a.number?, b.number? with
  | some x, some y => .ok (.int (op x y % Limits.arithmeticModulus))
  | _, _ => .error .shapeMismatch

/-- Folds `(operator, operand)` pairs onto a first operand, from the left. A
first operand without pairs is passed on as it is. -/
def foldPairs (op : Int → Int → Int) : Value → List Value → Except Fault Value
  | acc, [] => .ok acc
  | acc, p :: ps =>
    match p.pair with
    | .error fault => .error fault
    | .ok (_, operand) =>
      match combine op acc operand with
      | .error fault => .error fault
      | .ok acc => foldPairs op acc ps

/-- Folds a value of the form `(first, ((operator, operand), …))`. -/
def foldChain (op : Int → Int → Int) (v : Value) : Except Fault Value :=
  match v.pair with
  | .error fault => .error fault
  | .ok (first, rest) =>
    match rest.items? with
    | Option.none => .error .shapeMismatch
    | some pairs => foldPairs op first pairs

end Value

/-! ## §3 The type -/

/-- What an action node does with the value of its child. -/
inductive Action where
  /-- A function of the value alone. -/
  | pure (f : Value → Except Fault Value)
  /-- Passes the value on and has the call recorded under a label. -/
  | traced (label : String)
  /-- Pairs the value with the depth that the guard of a given name shows at the
  call. The name is looked up at the call and not before. -/
  | gauged (guard : String)
  deriving Inhabited

namespace Action

/-- The value that an action makes of a value, where guards are read by name as
given. -/
def apply (action : Action) (readDepth : String → Option Int) (v : Value) : Except Fault Value :=
  match action with
  | .pure f => f v
  | .traced _ => .ok v
  | .gauged guard => match readDepth guard with
    | some depth => .ok (.tuple [.int depth, v])
    | none => .error (.unknownName guard)

/-- The label under which the calls of an action are recorded. -/
def label? : Action → Option String
  | .traced label => some label
  | _ => none

/-! ## §4 Catalogue -/

/-- Passes the value on. -/
def identity : Action := .pure .ok

/-- Yields a given value. -/
def const (v : Value) : Action := .pure fun _ => .ok v

/-- Yields nothing. -/
def nothing : Action := const .none

/-- Pairs the value with a label. -/
def tag (label : String) : Action := .pure fun v => .ok (.tuple [.text label, v])

/-- The first part of the value. -/
def first : Action := .pure (Value.part 0)

/-- The second part of the value. -/
def second : Action := .pure (Value.part 1)

/-- The number after the second part of the value. -/
def succSecond : Action := .pure fun v =>
  match v.part 1 with
  | .error fault => .error fault
  | .ok item => match item.number? with
    | some n => .ok (.int (n + 1))
    | none => .error .shapeMismatch

/-- The number of parts of the value. -/
def count : Action := .pure fun v =>
  match v.items? with
  | some items => .ok (.int items.length)
  | none => .error .shapeMismatch

/-- All the text inside the value, where its numbers can be written out. -/
def join : Action := .pure fun v =>
  if v.exceeds Limits.maxNumeralDigits then .error .numberTooLong else .ok (.text v.join)

/-- Folds a chain of sums. -/
def foldSum : Action := .pure (Value.foldChain (· + ·))

/-- Folds a chain of products. -/
def foldProduct : Action := .pure (Value.foldChain (· * ·))

/-- The number that a digit stands for. A number stands for itself. -/
def digitValue : Action := .pure fun v =>
  match v with
  | .text s => Value.readNumeral s
  | v => match v.number? with
    | some n => .ok (.int n)
    | none => .error .shapeMismatch

/-- Stops with a fault. -/
def fail (fault : Fault) : Action := .pure fun _ => .error fault

end Action

end PegGraph
