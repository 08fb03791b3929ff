/-
PegGraph.Diagnostic — coded messages about what went wrong.

  §1 Codes      — the ten codes, with their names and numbers.
  §2 The record — code, message and an optional hint, and its written form.
  §3 Wording    — the message and hint of each situation.

A match that fails is not a diagnostic: it is an ordinary answer of a parse.
-/
import PegGraph.Text

namespace PegGraph

/-! ## §1 Codes -/

namespace Diagnostic

/-- What a diagnostic is about. Numbers from 1000 concern the building of a
grammar, from 2000 limits met while parsing, from 3000 the input. -/
inductive Code where
  | referenceAlreadyBound
  | referenceUnbound
  | referenceCycle
  | referenceNotCompressed
  | abstractOperation
  | bindUnsupported
  | maxDepthExceeded
  | unexpectedEnd
  | inputNotMatched
  | sourceTooLarge
  deriving DecidableEq, Inhabited

/-- The codes in ascending order of their numbers. -/
def Code.all : List Code :=
  [.referenceAlreadyBound, .referenceUnbound, .referenceCycle, .referenceNotCompressed,
   .abstractOperation, .bindUnsupported, .maxDepthExceeded, .unexpectedEnd,
   .inputNotMatched, .sourceTooLarge]

/-- The name of a code as it is written in messages. -/
def Code.name : Code → String
  | .referenceAlreadyBound => "REFERENCE_ALREADY_BOUND"
  | .referenceUnbound => "REFERENCE_UNBOUND"
  | .referenceCycle => "REFERENCE_CYCLE"
  | .referenceNotCompressed => "REFERENCE_NOT_COMPRESSED"
  | .abstractOperation => "SUBCLASS_RESPONSIBILITY"
  | .bindUnsupported => "BIND_UNSUPPORTED"
  | .maxDepthExceeded => "MAX_DEPTH_EXCEEDED"
  | .unexpectedEnd => "UNEXPECTED_EOF"
  | .inputNotMatched => "INPUT_NOT_MATCHED"
  | .sourceTooLarge => "SOURCE_TOO_LARGE"

/-- The number of a code. -/
def Code.number : Code → Nat
  | .referenceAlreadyBound => 1001
  | .referenceUnbound => 1002
  | .referenceCycle => 1003
  | .referenceNotCompressed => 1004
  | .abstractOperation => 1005
  | .bindUnsupported => 1006
  | .maxDepthExceeded => 2001
  | .unexpectedEnd => 3001
  | .inputNotMatched => 3002
  | .sourceTooLarge => 3003

/-- The code of a given name. -/
def Code.ofName? (name : String) : Option Code :=
  Code.all.find? fun c => c.name == name

/-- Every code is listed. -/
theorem Code.mem_all (c : Code) : c ∈ Code.all := by cases c <;> decide

end Diagnostic

/-! ## §2 The record -/

/-- A coded message, with a hint on what to do about it where one is known. -/
structure Diagnostic where
  code : Diagnostic.Code
  message : String
  hint : Option String := none
  deriving DecidableEq, Inhabited

namespace Diagnostic

/-- The written form: code and message, and under them the hint unless it is
missing or empty. -/
def format (d : Diagnostic) : String :=
  let headline := "error[" ++ d.code.name ++ "]: " ++ d.message
  match d.hint with
  | none => headline
  | some hint => if hint.isEmpty then headline else headline ++ "\n  = help: " ++ hint

/-- A diagnostic in record notation. -/
def describe (d : Diagnostic) : String :=
  Text.record "Diagnostic"
    [("code", "<DiagnosticCode." ++ d.code.name ++ ": " ++ toString d.code.number ++ ">"),
     ("message", Text.quoted d.message), ("hint", Text.quotedOrNone d.hint)]

/-! ## §3 Wording -/

/-- A reference was bound a second time. -/
def referenceAlreadyBound (label : String) : Diagnostic where
  code := .referenceAlreadyBound
  message := "Forward reference " ++ label ++ " is already bound"
  hint := some "Each forward reference must be bound exactly once"

/-- A reference was needed before it was bound. Several labels may be given at
once, joined by commas. -/
def unboundReference (label : String) : Diagnostic where
  code := .referenceUnbound
  message := "Forward reference " ++ label ++ " was never bound"
  hint := some "Call bind() on every forward reference before compressing"

/-- References lead only to one another. -/
def referenceCycle (labels : List String) : Diagnostic where
  code := .referenceCycle
  message := "Forward references resolve only to each other: " ++ " -> ".intercalate labels
  hint := some "Bind at least one reference in the chain to a concrete parser"

/-- A parse met a reference that compression should have taken out. -/
def referenceNotCompressed (label : String) : Diagnostic where
  code := .referenceNotCompressed
  message := "Forward reference " ++ label ++ " should have been compressed away"
  hint := some "Call compress() on the grammar root once before parsing"

/-- An operation was asked of a node kind that gives it no meaning. -/
def abstractOperation (kind operation : String) : Diagnostic where
  code := .abstractOperation
  message := kind ++ "." ++ operation ++ "() is a subclass responsibility"
  hint := some "Build grammars from the concrete combinator classes"

/-- Something other than a reference was to be bound. -/
def bindUnsupported (kind : String) : Diagnostic where
  code := .bindUnsupported
  message := kind ++ " cannot be bound; only forward references can"

/-- Composites nest more deeply than the limit allows. -/
def maxDepthExceeded (limit : Int) : Diagnostic where
  code := .maxDepthExceeded
  message := "Maximum parse depth (" ++ toString limit ++ ") exceeded"
  hint := some "Reduce input nesting or raise ParserConfig.max_depth"

/-- A character was wanted at or past the end of the source. -/
def unexpectedEnd (position : Int) : Diagnostic where
  code := .unexpectedEnd
  message := "Unexpected EOF at position " ++ toString position
  hint := some "Check cursor.is_eof before calling next()"

/-- A source does not belong to the grammar. -/
def inputNotMatched : Diagnostic where
  code := .inputNotMatched
  message := "Input does not match the grammar"

/-- A source is longer than the limit. -/
def sourceTooLarge (size limit : Int) : Diagnostic where
  code := .sourceTooLarge
  message := "Source size (" ++ Text.grouped size ++ " characters) exceeds maximum (" ++
    Text.grouped limit ++ " characters)"
  hint := some "Configure ParserConfig.max_source_size to increase the limit"

end Diagnostic

end PegGraph
