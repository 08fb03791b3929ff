/-
PegGraph.Limits — the fixed numbers of the library, by topic.

  §1 Depth       — how deep composites may nest in one parse.
  §2 Input       — how long a source may be.
  §3 Arithmetic  — the modulus of the arithmetic grammar.
  §4 Sampling    — the generator of sample expressions, with a known sample.
-/

namespace PegGraph.Limits

/-! ## §1 Depth -/

/-- Nesting of composites that a parse may reach when nothing else is said. In
the arithmetic grammar a digit inside `n` parentheses with nothing else in them
needs `8 + 7 * n` levels, so this admits seventy of those. Parentheses that are
not the first factor of the first term around them cost nine levels or eleven
instead of seven, and fewer are admitted. -/
def maxParseDepth : Int := 500

/-- Nested calls that the host grants a parse and its caller together. -/
def callDepth : Int := 1000

/-- Nested calls that are kept for the caller of a parse. -/
def reservedCalls : Int := 200

/-! ## §2 Input -/

/-- Longest source, in characters, that a parser accepts when nothing else is
said. -/
def maxSourceSize : Int := 10 * 1024 * 1024

/-- Lowest index that can be looked up in a text: that of a signed 64-bit
integer. -/
def minIndex : Int := -9223372036854775808

/-- Longest run of digits that is read as a number, and longest number that is
written out. -/
def maxNumeralDigits : Nat := 4300

/-! ## §3 Arithmetic -/

/-- Sums and products are reduced modulo this number. -/
def arithmeticModulus : Int := 0xffff

/-! ## §4 Sampling -/

/-- State of a sample generator when nothing else is said. -/
def defaultSeed : Int := 0xcafe

/-- Factor of the generator's step. -/
def randomMultiplier : Int := 0xdead

/-- Summand of the generator's step. -/
def randomIncrement : Int := 0xc0de

/-- The bits of the state that a step keeps. -/
def randomMask : Int := 0x0fff

/-- Depth of the known sample. -/
def sampleDepth : Int := 20

/-- Length of the sample of that depth from the default seed. -/
def sampleLength : Int := 41137

/-- Value of that sample. -/
def sampleValue : Int := 31615

end PegGraph.Limits
