/-
PegGraph.Cursor — a position that moves over a source.

  §1 The cursor — source, position and the depth guard of its parse.
  §2 Moving     — the checked assignment of a position, and reading on.
  §3 Looking    — reading without moving.
-/
import PegGraph.DepthGuard
import PegGraph.Source

namespace PegGraph

/-! ## §1 The cursor -/

/-- A position in a source, with the guard that counts the depth of the parse.
A cursor that was made and moved by its own operations stays inside
`0 … length`; the field itself may be set to any integer. -/
structure Cursor where
  source : Source
  pos : Int
  guard : DepthGuard
  deriving DecidableEq, Inhabited

namespace Cursor

/-- Accepts the positions from the start to just past the last character. -/
def checkPosition (source : Source) (pos : Int) : Except Fault Unit :=
  if 0 ≤ pos ∧ pos ≤ source.length then .ok ()
  else .error (.positionOutside pos source.length)

theorem checkPosition_eq_ok {source : Source} {pos : Int} :
    checkPosition source pos = .ok () ↔ 0 ≤ pos ∧ pos ≤ source.length := by
  unfold checkPosition
  split
  · next h => exact ⟨fun _ => h, fun _ => rfl⟩
  · next h => exact ⟨nofun, fun h' => absurd h' h⟩

theorem checkPosition_eq_error {source : Source} {pos : Int} {fault : Fault}
    (h : checkPosition source pos = .error fault) :
    fault = .positionOutside pos source.length := by
  unfold checkPosition at h
  split at h <;> cases h
  rfl

/-- A cursor at a checked position. -/
def new (source : Source) (pos : Int) (guard : DepthGuard) : Except Fault Cursor :=
  match checkPosition source pos with
  | .ok () => .ok { source, pos, guard }
  | .error fault => .error fault

/-- Whether nothing is left to read. -/
def isAtEnd (c : Cursor) : Bool := c.pos ≥ c.source.length

/-- The number of characters left to read. -/
def remaining (c : Cursor) : Int := c.source.length - c.pos

/-- A cursor in record notation, without its guard. -/
def describe (c : Cursor) : String :=
  Text.record "Cursor" [("source", Text.quoted c.source.toString), ("pos", toString c.pos)]

/-! ## §2 Moving -/

/-- Moves to a checked position. -/
def setPosition (c : Cursor) (pos : Int) : Except Fault Cursor :=
  match checkPosition c.source pos with
  | .ok () => .ok { c with pos }
  | .error fault => .error fault

/-- The character at the cursor. -/
def current (c : Cursor) : Except Fault Char :=
  if c.isAtEnd then .error (.unexpectedEnd c.pos)
  else c.source.read c.pos

/-- The character at the cursor, and the cursor past it. -/
def next (c : Cursor) : Except Fault (Char × Cursor) :=
  match c.current with
  | .ok char => .ok (char, { c with pos := c.pos + 1 })
  | .error fault => .error fault

/-! ## §3 Looking -/

/-- The character at an offset from the cursor; nothing past the end. A
negative target counts from the end of the source. -/
def peek (c : Cursor) (offset : Int) : Except Fault (Option Char) :=
  if c.pos + offset ≥ c.source.length then .ok none
  else match c.source.read (c.pos + offset) with
    | .ok char => .ok (some char)
    | .error fault => .error fault

end Cursor

end PegGraph
