/-
PegGraph.Source — the text that is parsed, as characters with positions.

A character is a Unicode scalar value. A text of the host may also hold single
surrogate code points; no source here stands for such a text.
-/
import PegGraph.Fault

namespace PegGraph

/-- The text of a parse. It never changes while a cursor moves over it. -/
structure Source where
  chars : Array Char
  deriving DecidableEq, Inhabited

namespace Source

/-- The source that holds a text. -/
def ofString (s : String) : Source := ⟨s.toList.toArray⟩

/-- The text of a source. -/
def toString (s : Source) : String := String.ofList s.chars.toList

/-- The number of characters. -/
def length (s : Source) : Nat := s.chars.size

/-- The character at a position. A negative position counts from the end, so
that -1 is the last character. -/
def get? (s : Source) (position : Int) : Option Char :=
  let index := if position < 0 then position + s.length else position
  if index < 0 then none else s.chars[index.toNat]?

/-- Looks up the character at a position. -/
def read (s : Source) (position : Int) : Except Fault Char :=
  if position < Limits.minIndex then .error .indexTooWide
  else match s.get? position with
    | some c => .ok c
    | none => .error .textIndex

/-- The characters from a position on. -/
def drop (s : Source) (count : Nat) : Source := ⟨s.chars.extract count s.chars.size⟩

@[simp] theorem toString_ofString (s : String) : (ofString s).toString = s := by
  simp [ofString, toString]

@[simp] theorem length_ofString (s : String) : (ofString s).length = s.toList.length := by
  simp [ofString, length]

/-- Inside the source a position reads the character that stands there. -/
theorem get?_natCast (s : Source) (i : Nat) : s.get? i = s.chars[i]? := by
  have nonneg : ¬ (i : Int) < 0 := by omega
  simp [get?, nonneg]

/-- A position reads a character exactly from `-length` up to, but not
including, `length`. -/
theorem get?_isSome_iff (s : Source) (position : Int) :
    (s.get? position).isSome ↔ -(s.length : Int) ≤ position ∧ position < s.length := by
  have cast : (s.length : Int) = (s.chars.size : Int) := rfl
  unfold get?
  split <;> simp only [] <;> split <;> simp <;> omega

/-- Between the start and the end of the source a look-up succeeds. -/
theorem read_natCast (s : Source) {i : Nat} (h : i < s.chars.size) :
    s.read i = .ok s.chars[i] := by
  have wide : ¬ (i : Int) < Limits.minIndex := by
    have low : Limits.minIndex < 0 := by decide
    omega
  simp [read, wide, get?_natCast, h]

end Source

end PegGraph
