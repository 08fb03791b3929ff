/-
PegGraph.Fault — the ways in which an operation stops with an error.

  §1 Classes — the classes of faults that carry a diagnostic, most special
               first, and the line from each to the most general one.
  §2 Causes  — every cause of a fault, with the data that its message needs.
  §3 Reading — category, diagnostic and message of a fault.

A match that fails is not a fault.
-/
import PegGraph.Diagnostic
import PegGraph.Kind
import PegGraph.Limits

namespace PegGraph

/-! ## §1 Classes -/

namespace Fault

/-- The classes of faults that concern grammars and parsing. -/
inductive Class where
  | combinator
  | grammar
  | alreadyBound
  | unboundReference
  | cyclicReference
  | uncompressedReference
  | abstractOperation
  | parseFailed
  | depthLimitExceeded
  deriving DecidableEq, Inhabited

/-- The next more general class. -/
def Class.parent? : Class → Option Class
  | .combinator => none
  | .grammar | .parseFailed | .depthLimitExceeded => some .combinator
  | .alreadyBound | .unboundReference | .cyclicReference | .uncompressedReference
  | .abstractOperation => some .grammar

/-- A class and the ever more general classes above it. -/
def Class.lineage (c : Class) : List Class :=
  match c.parent? with
  | none => [c]
  | some .combinator => [c, .combinator]
  | some p => [c, p, .combinator]

/-- What kind of fault it is: one that concerns grammars and parsing, a value
out of place, a read past the end, an index out of range, a value of the wrong
shape, a name that nothing has, or an impossible computation. -/
inductive Category where
  | classified (c : Class)
  | value
  | endOfInput
  | index
  | shape
  | name
  | arithmetic
  deriving DecidableEq, Inhabited

end Fault

/-! ## §2 Causes -/

/-- Why an operation stopped. Labels are those of the references concerned. -/
inductive Fault where
  /-- A reference is bound already. -/
  | alreadyBound (label : String)
  /-- References were needed before they were bound. -/
  | unboundReference (labels : List String)
  /-- References lead only to one another; the labels follow the chain up to
  the first reference that is met again. -/
  | cyclicReference (labels : List String)
  /-- A parse met a reference. -/
  | uncompressedReference (label : String)
  /-- The abstract node kind was asked for an operation. -/
  | abstractOperation (operation : Operation)
  /-- A node other than a reference was to be bound. -/
  | bindUnsupported (kind : Kind)
  /-- Composites nest more deeply than the limit. -/
  | depthLimitExceeded (limit : Int)
  /-- A source does not belong to the grammar. -/
  | inputNotMatched
  /-- A fault of a given class with a plain message. -/
  | plain (cls : Fault.Class) (message : String)
  /-- A fault of a given class with a diagnostic of its own. -/
  | diagnosed (cls : Fault.Class) (diagnostic : Diagnostic)
  /-- A source is longer than the limit. -/
  | sourceTooLarge (size limit : Int)
  /-- A cursor position lies outside the source. -/
  | positionOutside (position : Int) (length : Nat)
  /-- A bound of a range is not one character. -/
  | boundNotSingle (lower upper : String)
  /-- The bounds of a range are in the wrong order. -/
  | emptyRange (lower upper : Char)
  /-- A configured depth is not positive. -/
  | maxDepthNotPositive
  /-- A configured source size is negative. -/
  | maxSourceSizeNegative
  /-- A text is not a decimal numeral. -/
  | notNumeral (text : String)
  /-- A numeral has more digits than are read. -/
  | numeralTooLong (digits : Nat)
  /-- A number has more digits than are written out. -/
  | numberTooLong
  /-- A value has fewer parts than the two wanted. -/
  | tooFewParts (found : Nat)
  /-- A value has more parts than the two wanted. -/
  | tooManyParts
  /-- A character was wanted at or past the end of the source. -/
  | unexpectedEnd (position : Int)
  /-- An index lies outside a text. -/
  | textIndex
  /-- An index does not fit the integers that texts are indexed by. -/
  | indexTooWide
  /-- An index lies outside a tuple. -/
  | tupleIndex
  /-- An index lies outside a list. -/
  | listIndex
  /-- A value has a shape for which the operation is not defined. -/
  | shapeMismatch
  /-- An action asked for something by a name that nothing has. -/
  | unknownName (name : String)
  /-- An action gave up. -/
  | impossible (message : String)
  deriving DecidableEq, Inhabited

namespace Fault

/-! ## §3 Reading -/

/-- The category of a fault. -/
def category : Fault → Category
  | .alreadyBound _ => .classified .alreadyBound
  | .unboundReference _ => .classified .unboundReference
  | .cyclicReference _ => .classified .cyclicReference
  | .uncompressedReference _ => .classified .uncompressedReference
  | .abstractOperation _ => .classified .abstractOperation
  | .bindUnsupported _ => .classified .grammar
  | .depthLimitExceeded _ => .classified .depthLimitExceeded
  | .inputNotMatched => .classified .parseFailed
  | .plain cls _ => .classified cls
  | .diagnosed cls _ => .classified cls
  | .sourceTooLarge _ _ | .positionOutside _ _ | .boundNotSingle _ _ | .emptyRange _ _
  | .maxDepthNotPositive | .maxSourceSizeNegative | .notNumeral _ | .numeralTooLong _
  | .numberTooLong | .tooFewParts _ | .tooManyParts => .value
  | .unexpectedEnd _ => .endOfInput
  | .textIndex | .indexTooWide | .tupleIndex | .listIndex => .index
  | .shapeMismatch => .shape
  | .unknownName _ => .name
  | .impossible _ => .arithmetic

/-- The diagnostic that a fault carries. -/
def diagnostic? : Fault → Option Diagnostic
  | .alreadyBound label => some (Diagnostic.referenceAlreadyBound label)
  | .unboundReference labels => some (Diagnostic.unboundReference (", ".intercalate labels))
  | .cyclicReference labels => some (Diagnostic.referenceCycle labels)
  | .uncompressedReference label => some (Diagnostic.referenceNotCompressed label)
  | .abstractOperation operation =>
    some (Diagnostic.abstractOperation Kind.abstract.name operation.name)
  | .bindUnsupported kind => some (Diagnostic.bindUnsupported kind.name)
  | .depthLimitExceeded limit => some (Diagnostic.maxDepthExceeded limit)
  | .inputNotMatched => some Diagnostic.inputNotMatched
  | .diagnosed _ diagnostic => some diagnostic
  | _ => none

/-- The message of a fault: its diagnostic in written form, or a plain text. -/
def message : Fault → String
  | .plain _ text | .impossible text => text
  | .unknownName name => name
  | .sourceTooLarge size limit => (Diagnostic.sourceTooLarge size limit).format
  | .positionOutside position length =>
    "Cursor position " ++ toString position ++ " outside source of length " ++ toString length
  | .boundNotSingle lower upper =>
    "Range bounds must be single characters, got " ++ Text.quoted lower ++ ", " ++
      Text.quoted upper
  | .emptyRange lower upper =>
    "Empty character range " ++ Text.quoted (String.singleton lower) ++ "-" ++
      Text.quoted (String.singleton upper)
  | .maxDepthNotPositive => "max_depth must be positive"
  | .maxSourceSizeNegative => "max_source_size must be non-negative"
  | .notNumeral text => "invalid literal for int() with base 10: " ++ Text.quoted text
  | .numeralTooLong digits =>
    "Exceeds the limit (" ++ toString Limits.maxNumeralDigits ++
      " digits) for integer string conversion: value has " ++ toString digits ++
      " digits; use sys.set_int_max_str_digits() to increase the limit"
  | .numberTooLong =>
    "Exceeds the limit (" ++ toString Limits.maxNumeralDigits ++
      " digits) for integer string conversion; use sys.set_int_max_str_digits() to increase the limit"
  | .tooFewParts found =>
    "not enough values to unpack (expected 2, got " ++ toString found ++ ")"
  | .tooManyParts => "too many values to unpack (expected 2)"
  | .unexpectedEnd position => (Diagnostic.unexpectedEnd position).message
  | .textIndex => "string index out of range"
  | .indexTooWide => "cannot fit 'int' into an index-sized integer"
  | .tupleIndex => "tuple index out of range"
  | .listIndex => "list index out of range"
  | .shapeMismatch => "unsupported value"
  | f => match f.diagnostic? with
    | some d => d.format
    | none => ""

end Fault

end PegGraph
