/-
PegGraph.Arithmetic.Sample — reproducible arithmetic expressions.

A generator has an integer as its state. Each step multiplies it, adds to it
and keeps the low bits. An expression of depth zero is one digit; a deeper one
is a sum, a product or a pair of parentheses over expressions that are one
level less deep, the left operand first.
-/
import PegGraph.Limits

namespace PegGraph.Arithmetic

/-- The state after a step. The low bits of any integer are its remainder by
the power of two above the mask, and so never negative. -/
def nextRandom (seed : Int) : Int :=
  (seed * Limits.randomMultiplier + Limits.randomIncrement) % (Limits.randomMask + 1)

/-- The digit of a number below ten. -/
def digitChar (n : Nat) : Char := Char.ofNat ('0'.toNat + n)

/-- The characters of the expression that is generated from a state at a
depth, and the state after it. -/
def sampleFrom : Nat → Int → List Char × Int
  | 0, seed =>
    let seed := nextRandom seed
    ([digitChar (seed % 10).toNat], seed)
  | depth + 1, seed =>
    let seed := nextRandom seed
    let pick := seed % 3
    let (left, seed) := sampleFrom depth seed
    if pick = 0 then
      let (right, seed) := sampleFrom depth seed
      (left ++ '+' :: right, seed)
    else if pick = 1 then
      let (right, seed) := sampleFrom depth seed
      (left ++ '*' :: right, seed)
    else ('(' :: left ++ [')'], seed)

/-- The expression of a depth and the state after it. A depth below one gives a
digit. -/
def sample (depth seed : Int) : String × Int :=
  let (chars, seed) := sampleFrom depth.toNat seed
  (String.ofList chars, seed)

end PegGraph.Arithmetic
