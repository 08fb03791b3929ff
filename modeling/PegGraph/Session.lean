/-
PegGraph.Session — grammars, guards and reports that a series of operations
shares.

  §1 The session — its parts, and the notices and trace it collects.
  §2 Grammars    — building, binding and compressing, with notices.
  §3 Guards      — guards that several cursors may share.
  §4 Parsing     — cursors and parsers at work.
-/
import PegGraph.Parser

namespace PegGraph

/-! ## §1 The session -/

/-- The number of a guard in its session. -/
abbrev GuardId := Nat

/-- What a series of operations shares: the nodes, the guards, and the notices
and trace entries that nobody has taken yet, the latest first. -/
structure Session where
  grammar : Grammar
  guards : Array DepthGuard
  notices : List Notice
  trace : List (String × Value)
  deriving Inhabited

/-- An operation in a session. -/
abbrev Session.Op := StateM Session

namespace Session

/-- A session in which nothing has happened. -/
def empty : Session where
  grammar := .empty
  guards := #[]
  notices := []
  trace := []

/-- Adds notices, the earliest first. -/
def report (notices : List Notice) : Op Unit := fun s =>
  ((), { s with notices := notices.reverse ++ s.notices })

/-- Adds the trace entries of events, the earliest first. -/
def record (events : List Parse.Event) : Op Unit := fun s =>
  ((), { s with trace := (events.filterMap Parse.Event.traceEntry?).reverse ++ s.trace })

/-- Takes the notices so far, the earliest first. -/
def takeNotices : Op (List Notice) := fun s => (s.notices.reverse, { s with notices := [] })

/-- Takes the trace so far, the earliest entry first. -/
def takeTrace : Op (List (String × Value)) := fun s => (s.trace.reverse, { s with trace := [] })

/-! ## §2 Grammars -/

/-- The description of a node. -/
def describe (s : Session) (id : NodeId) : String := (s.grammar.node id).describe

/-- Adds nodes. -/
def build {α : Type} (step : Grammar.Build α) : Op α := fun s =>
  let (result, grammar) := step s.grammar
  (result, { s with grammar })

/-- Binds a reference and reports it. -/
def bind (id target : NodeId) : Op (Except Fault Unit) := fun s =>
  match s.grammar.bind id target with
  | .error fault => (.error fault, s)
  | .ok grammar =>
    let notice := Notice.referenceBound (s.grammar.label id) (s.describe target)
    (.ok (), { s with grammar, notices := notice :: s.notices })

/-- Binds references to targets in order, up to the first fault. -/
def bindAll : List (NodeId × NodeId) → Op (Except Fault Unit)
  | [] => pure (.ok ())
  | (id, target) :: rest => do
    match ← bind id target with
    | .error fault => pure (.error fault)
    | .ok () => bindAll rest

/-- Compresses a grammar without a report. -/
def compressSilently (root : NodeId) : Op (Except Fault NodeId) := fun s =>
  let (result, grammar) := s.grammar.compress root
  (result, { s with grammar })

/-- Compresses a grammar and reports it once it is done. -/
def compress (root : NodeId) : Op (Except Fault NodeId) := fun s =>
  match s.grammar.compress root with
  | (.error fault, grammar) => (.error fault, { s with grammar })
  | (.ok root, grammar) =>
    let notice := Notice.grammarCompressed (grammar.node root).describe
    (.ok root, { s with grammar, notices := notice :: s.notices })

/-- Prepares a parser and reports the compression and the parser. -/
def prepareParser (root : NodeId) (config : Parser.Config) : Op (Except Fault Parser) := fun s =>
  match Parser.prepare root config s.grammar with
  | (.error fault, grammar) => (.error fault, { s with grammar })
  | (.ok parser, grammar) =>
    let compressed := Notice.grammarCompressed (grammar.node parser.root).describe
    let ready := Notice.parserReady parser.nodeCount config.maxDepth config.maxSourceSize
    (.ok parser, { s with grammar, notices := ready :: compressed :: s.notices })

/-! ## §3 Guards -/

/-- Makes a guard, with a warning if its limit is lowered. -/
def newGuard (requested : Int := Limits.maxParseDepth) : Op GuardId := do
  report (clampNotices requested)
  fun s => (s.guards.size, { s with guards := s.guards.push (.ofRequest requested) })

/-- Clamps a depth, with a warning if it is lowered. -/
def clamp (requested : Int) (reserve : Int := Limits.reservedCalls) : Op Int := do
  report (clampNotices requested reserve)
  pure (clampDepth requested reserve)

/-- The guard of a number. -/
def guard (s : Session) (id : GuardId) : DepthGuard := s.guards.getD id default

/-- Replaces a guard. -/
def setGuard (id : GuardId) (guard : DepthGuard) : Op Unit := fun s =>
  ((), { s with guards := s.guards.setIfInBounds id guard })

/-- Enters a section of a guard. -/
def enter (id : GuardId) : Op (Except Fault Unit) := fun s =>
  match (s.guard id).enter with
  | .error fault => (.error fault, s)
  | .ok guard => (.ok (), (setGuard id guard s).2)

/-- Leaves a section of a guard. -/
def leave (id : GuardId) : Op Unit := fun s => setGuard id (s.guard id).leave s

/-- Runs a body inside nested sections of a guard. -/
def nested (id : GuardId) (depth : Nat) (body : Except Fault Unit) : Op (Except Fault Unit) :=
  fun s =>
    let (result, guard) := (s.guard id).nested depth body
    (result, (setGuard id guard s).2)

/-- Which guard each name stands for at present. -/
abbrev GuardNames := String → Option GuardId

/-- The depth that the guard of a name shows during a parse. The guard that
counts the parse is read from the parse, all others from the session. -/
def depthOf (s : Session) (names : GuardNames) (own : Option GuardId) (current : Int)
    (name : String) : Option Int :=
  (names name).map fun id => if own = some id then current else (s.guard id).currentDepth

/-! ## §4 Parsing -/

/-- A cursor whose guard is one of the session's, which it may share with other
cursors. -/
structure Held where
  source : Source
  pos : Int
  guard : GuardId
  deriving DecidableEq, Inhabited

/-- A held cursor with its guard as it is now. -/
def cursor (s : Session) (held : Held) : Cursor where
  source := held.source
  pos := held.pos
  guard := s.guard held.guard

/-- Applies an action to a value outside any parse. A traced action leaves its
entry in the trace. -/
def apply (names : GuardNames) (action : Action) (value : Value) : Op (Except Fault Value) :=
  fun s =>
    let entries := match action.label? with
      | some label => [(label, value)]
      | none => []
    (action.apply (s.depthOf names none 0) value, { s with trace := entries ++ s.trace })

/-- Parses with a root and a held cursor. The guard is left as the parse left
it. -/
def parse (names : GuardNames) (root : NodeId) (held : Held) : Op (Outcome × Held) := do
  let s ← get
  let parsed := s.grammar.parse (s.depthOf names (some held.guard)) root (s.cursor held)
  setGuard held.guard parsed.cursor.guard
  record parsed.events
  pure (parsed.outcome, { held with pos := parsed.cursor.pos })

/-- Tries a source with a parser. -/
def tryParse (names : GuardNames) (parser : Parser) (source : Source) : Op Outcome := do
  let s ← get
  report (parser.notices source)
  let (outcome, events) := parser.tryParse s.grammar (s.depthOf names none) source
  record events
  pure outcome

/-- The value of a source under a parser, where a match is required. -/
def parseWith (names : GuardNames) (parser : Parser) (source : Source) :
    Op (Except Fault Value) := do
  let outcome ← tryParse names parser source
  pure outcome.value

end Session

end PegGraph
