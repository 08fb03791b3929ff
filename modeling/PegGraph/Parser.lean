/-
PegGraph.Parser — a grammar made ready for parsing whole sources.

  §1 Configuration — the limits of a parser.
  §2 Preparation   — checking and compressing a grammar.
  §3 Parsing       — sources tried and parsed with a prepared grammar.
-/
import PegGraph.Grammar.Compress
import PegGraph.Grammar.Walk
import PegGraph.Parse.Attempt

namespace PegGraph

/-! ## §1 Configuration -/

/-- The limits of a parser: how deep composites may nest, and how many
characters a source may have, where zero sets no limit. -/
structure Parser.Config where
  maxDepth : Int
  maxSourceSize : Int
  maxDepth_pos : 0 < maxDepth
  maxSourceSize_nonneg : 0 ≤ maxSourceSize
  deriving DecidableEq

namespace Parser.Config

/-- The limits that hold when nothing else is said. -/
def default : Parser.Config where
  maxDepth := Limits.maxParseDepth
  maxSourceSize := Limits.maxSourceSize
  maxDepth_pos := by decide
  maxSourceSize_nonneg := by decide

instance : Inhabited Parser.Config := ⟨default⟩

/-- Limits that have been checked, the depth first. -/
def new (maxDepth : Int := Limits.maxParseDepth) (maxSourceSize : Int := Limits.maxSourceSize) :
    Except Fault Parser.Config :=
  if hd : 0 < maxDepth then
    if hs : 0 ≤ maxSourceSize then .ok ⟨maxDepth, maxSourceSize, hd, hs⟩
    else .error .maxSourceSizeNegative
  else .error .maxDepthNotPositive

/-- A configuration in record notation. -/
def describe (config : Parser.Config) : String :=
  Text.record "ParserConfig"
    [("max_depth", toString config.maxDepth), ("max_source_size", toString config.maxSourceSize)]

/-- Whether a source is longer than the limit. -/
def tooLarge (config : Parser.Config) (source : Source) : Bool :=
  0 < config.maxSourceSize && config.maxSourceSize < source.length

end Parser.Config

/-! ## §2 Preparation -/

/-- A compressed root with the limits to parse under, and the number of nodes
below it. -/
structure Parser where
  root : NodeId
  config : Parser.Config
  nodeCount : Nat
  deriving Inhabited

namespace Parser

/-- Prepares a grammar. If any reference that can be reached is unbound, all of
them are named and nothing is changed; otherwise the grammar is compressed. -/
def prepare (root : NodeId) (config : Config) (g : Grammar) :
    Except Fault Parser × Grammar :=
  match g.unboundReferences root with
  | [] =>
    match g.compress root with
    | (.ok root, g) => (.ok { root, config, nodeCount := g.count root }, g)
    | (.error fault, g) => (.error fault, g)
  | unbound => (.error (.unboundReference (unbound.map g.label)), g)

/-! ## §3 Parsing -/

/-- A fresh cursor at the start of a source, unless the source is too large. -/
def cursor (parser : Parser) (source : Source) : Except Fault Cursor :=
  if parser.config.tooLarge source then
    .error (.sourceTooLarge source.length parser.config.maxSourceSize)
  else Cursor.new source 0 (DepthGuard.ofRequest parser.config.maxDepth)

/-- The notices of one parse: a warning if its depth limit is lowered. A source
that is too large is refused before that. -/
def notices (parser : Parser) (source : Source) : List Notice :=
  if parser.config.tooLarge source then [] else clampNotices parser.config.maxDepth

/-- Tries a source from its start. -/
def tryParse (parser : Parser) (g : Grammar) (readDepth : Int → String → Option Int)
    (source : Source) : Outcome × List Parse.Event :=
  match parser.cursor source with
  | .error fault => (.failed fault, [])
  | .ok cursor =>
    let parsed := g.parse readDepth parser.root cursor
    (parsed.outcome, parsed.events)

end Parser

/-- The value of a match. Where a match is required, its absence is a fault. -/
def Outcome.value : Outcome → Except Fault Value
  | .matched value _ => .ok value
  | .noMatch => .error .inputNotMatched
  | .failed fault => .error fault

end PegGraph
