/-
PegGraph.Value — the values that a parse produces.

  §1 The type    — nothing, truth values, integers, texts, tuples (the values
                   of sequences and repetitions) and lists (built by actions).
  §2 Views       — the parts of a compound value, and the integer that a
                   value counts as in arithmetic.
  §3 Joining     — all the text inside a value, in reading order, and whether
                   its numbers are short enough to be written out.
-/

namespace PegGraph

/-! ## §1 The type -/

/-- A value computed by a grammar. A range yields a one-character text, a
sequence or repetition a tuple, the end of input nothing; an action may yield
any value. -/
inductive Value where
  | none
  | bool (truth : Bool)
  | int (number : Int)
  | text (content : String)
  | tuple (items : List Value)
  | list (items : List Value)
  deriving Inhabited

namespace Value

/-! ## §2 Views -/

/-- The parts of a compound value. A text is made of its characters. -/
def items? : Value → Option (List Value)
  | .tuple items => some items
  | .list items => some items
  | .text content => some (content.toList.map fun c => .text (String.singleton c))
  | _ => Option.none

/-- The number that a value stands for in arithmetic. A truth value counts as
zero or one. -/
def number? : Value → Option Int
  | .int n => some n
  | .bool b => some (if b then 1 else 0)
  | _ => Option.none

@[simp] theorem items?_tuple (items : List Value) : items? (.tuple items) = some items := rfl

@[simp] theorem items?_list (items : List Value) : items? (.list items) = some items := rfl

@[simp] theorem number?_int (n : Int) : number? (.int n) = some n := rfl

/-! ## §3 Joining -/

mutual

/-- The text inside a value: texts as they are, numbers in decimal, nothing
as the empty text, compounds from left to right. -/
def join : Value → String
  | .none => ""
  | .bool b => if b then "True" else "False"
  | .int n => toString n
  | .text content => content
  | .tuple items => joinAll items
  | .list items => joinAll items

/-- The text inside the values of a list, from left to right. -/
def joinAll : List Value → String
  | [] => ""
  | v :: vs => join v ++ joinAll vs

/-- Whether a number inside a value has more digits than given. -/
def exceeds (digits : Nat) : Value → Bool
  | .int n => 10 ^ digits ≤ n.natAbs
  | .tuple items => anyExceeds digits items
  | .list items => anyExceeds digits items
  | _ => false

/-- Whether a number inside the values of a list has more digits than given. -/
def anyExceeds (digits : Nat) : List Value → Bool
  | [] => false
  | v :: vs => exceeds digits v || anyExceeds digits vs

end

@[simp] theorem join_text (s : String) : join (.text s) = s := by simp [join]

@[simp] theorem joinAll_nil : joinAll [] = "" := by simp [joinAll]

@[simp] theorem joinAll_cons (v : Value) (vs : List Value) :
    joinAll (v :: vs) = join v ++ joinAll vs := by simp [joinAll]

end Value

end PegGraph
