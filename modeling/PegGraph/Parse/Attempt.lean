/-
PegGraph.Parse.Attempt — how a node matches at a position.

  §1 Sections    — running a body inside the guarded section of a composite.
  §2 Leaves      — ranges and the end of the source.
  §3 Composites  — sequence, choice, repetition and action, over a function
                   that tries a child.
  §4 Nodes       — the attempt of any node, and its closure over levels.
  §5 Parses      — a root tried with a cursor.

A failed sequence leaves the position where its failing child left it. It is a
choice or repetition around it that goes back.
-/
import PegGraph.Parse.Basic

namespace PegGraph

namespace Parse

/-- Tries a node at some progress. -/
abbrev Attempt := NodeId → Progress → Outcome × Progress

/-! ## §1 Sections -/

/-- Runs a body inside the guarded section of a node. Where the guard refuses,
nothing else happens; otherwise the section is left whatever the outcome. -/
def guarded (id : NodeId) (body : Progress → Outcome × Progress) (st : Progress) :
    Outcome × Progress :=
  match st.enter id with
  | .error fault => (.failed fault, st)
  | .ok inside =>
    let (outcome, inside) := body inside
    (outcome, inside.leave id)

/-! ## §2 Leaves -/

/-- Matches one character of a range. The character is looked at before it is
read, so a mismatch does not move. -/
def attemptRange (source : Source) (bounds : CharRange) (st : Progress) : Outcome × Progress :=
  if st.pos ≥ source.length then (.noMatch, st)
  else match source.read st.pos with
    | .error fault => (.failed fault, st)
    | .ok c =>
      if bounds.contains c then
        (.matched (.text (String.singleton c)) (st.pos + 1), { st with pos := st.pos + 1 })
      else (.noMatch, st)

/-- Matches where nothing is left to read. -/
def attemptEnd (source : Source) (st : Progress) : Outcome × Progress :=
  if st.pos ≥ source.length then (.matched .none st.pos, st) else (.noMatch, st)

/-! ## §3 Composites -/

/-- Matches nodes one after another; `values` holds what was matched, the
latest first. -/
def attemptAll (attempt : Attempt) : List NodeId → List Value → Progress → Outcome × Progress
  | [], values, st => (.matched (.tuple values.reverse) st.pos, st)
  | id :: rest, values, st =>
    match attempt id st with
    | (.matched value _, st) => attemptAll attempt rest (value :: values) st
    | other => other

/-- Matches the first node, or else the second from the same position. -/
def attemptEither (attempt : Attempt) (source : Source) (first second : NodeId) (st : Progress) :
    Outcome × Progress :=
  match attempt first st with
  | (.noMatch, after) =>
    match after.restore source st.pos with
    | .error fault => (.failed fault, after)
    | .ok back => attempt second back
  | other => other

/-- Matches a node again and again, for at most the given number of tries. A
try that does not match, or that matches nothing at all, ends the repetition
and is not recorded. -/
def attemptMany (attempt : Attempt) (source : Source) (id child : NodeId) :
    Nat → List Value → Progress → Outcome × Progress
  | 0, values, st => (.matched (.tuple values.reverse) st.pos, st)
  | tries + 1, values, st =>
    match attempt child (st.note (.tried id st.pos st.guard.currentDepth)) with
    | (.failed fault, after) => (.failed fault, after)
    | (.noMatch, after) =>
      match after.restore source st.pos with
      | .error fault => (.failed fault, after)
      | .ok back => (.matched (.tuple values.reverse) back.pos, back)
    | (.matched value _, after) =>
      if after.pos = st.pos then (.matched (.tuple values.reverse) after.pos, after)
      else attemptMany attempt source id child tries (value :: values) after

/-- Acts on the value of a match. -/
def applyAction (cx : Setting) (id : NodeId) (action : Action) :
    Outcome × Progress → Outcome × Progress
  | (.matched value pos, st) =>
    let depth := st.guard.currentDepth
    let st := st.note (.applied id action.label? value depth)
    match action.apply (cx.readDepth depth) value with
    | .ok result => (.matched result pos, st)
    | .error fault => (.failed fault, st)
  | other => other

/-! ## §4 Nodes -/

/-- Tries a node that acts for itself. A repetition consumes something with
every try but the last, so one try more than there are characters left is
enough. An action is called after its section was left. -/
def attemptActor (cx : Setting) (attempt : Attempt) (id : NodeId) (st : Progress) :
    Outcome × Progress :=
  match cx.grammar.node id with
  | .abstract => (.failed (.abstractOperation .parse), st)
  | .range bounds => attemptRange cx.source bounds st
  | .sequence children _ => guarded id (attemptAll attempt children []) st
  | .choice first second _ => guarded id (attemptEither attempt cx.source first second) st
  | .repetition child _ =>
    guarded id (fun st =>
      attemptMany attempt cx.source id child (st.remaining cx.source + 1) [] st) st
  | .action child action _ => applyAction cx id action (guarded id (attempt child) st)
  | .endOfInput => attemptEnd cx.source st
  | .reference name _ => (.failed (.uncompressedReference (Node.labelOf id name)), st)

section Equations

variable {cx : Setting} {attempt : Attempt} {id : NodeId}

theorem attemptActor_sequence {children : List NodeId} {compressed : Bool}
    (h : cx.grammar.node id = .sequence children compressed) :
    attemptActor cx attempt id = guarded id (attemptAll attempt children []) := by
  funext st
  simp only [attemptActor, h]

theorem attemptActor_choice {first second : NodeId} {compressed : Bool}
    (h : cx.grammar.node id = .choice first second compressed) :
    attemptActor cx attempt id = guarded id (attemptEither attempt cx.source first second) := by
  funext st
  simp only [attemptActor, h]

theorem attemptActor_repetition {child : NodeId} {compressed : Bool}
    (h : cx.grammar.node id = .repetition child compressed) :
    attemptActor cx attempt id = guarded id fun st =>
      attemptMany attempt cx.source id child (st.remaining cx.source + 1) [] st := by
  funext st
  simp only [attemptActor, h]

theorem attemptActor_action {child : NodeId} {action : Action} {compressed : Bool}
    (h : cx.grammar.node id = .action child action compressed) :
    attemptActor cx attempt id = fun st => applyAction cx id action (guarded id (attempt child) st) := by
  funext st
  simp only [attemptActor, h]

end Equations

/-- Tries a node, where children are tried by a given function. -/
def attemptNode (cx : Setting) (attempt : Attempt) (id : NodeId) (st : Progress) :
    Outcome × Progress :=
  match cx.actor id with
  | .error fault => (.failed fault, st)
  | .ok actor => attemptActor cx attempt actor st

/-- Where references are rejected, every node acts for itself. -/
theorem attemptNode_reject {cx : Setting} (hm : cx.mode = .reject) (attempt : Attempt)
    (id : NodeId) : attemptNode cx attempt id = attemptActor cx attempt id := by
  funext st
  unfold attemptNode Setting.actor
  rw [hm]
  cases hn : cx.grammar.node id with
  | reference => simp only [attemptActor, hn]
  | _ => rfl

/-- Tries a node with as many levels of composites below it as given. When the
levels cover the headroom of the guard, it is always the guard that refuses
the composite that is one too many. -/
def attempt (cx : Setting) : Nat → Attempt
  | 0 => attemptNode cx fun _ st => (.failed (.depthLimitExceeded st.guard.maxDepth), st)
  | levels + 1 => attemptNode cx (attempt cx levels)

/-! ## §5 Parses -/

/-- Tries a root with a cursor, from where the cursor stands. -/
def run (cx : Setting) (root : NodeId) (pos : Int) (guard : DepthGuard) : Outcome × Progress :=
  attempt cx guard.headroom root { pos, guard, events := [] }

end Parse

/-- What a parse leaves behind: its outcome, the cursor, and the events in the
order in which they happened. -/
structure Parsed where
  outcome : Outcome
  cursor : Cursor
  events : List Parse.Event

namespace Grammar

/-- Parses with a root and a cursor. References are not followed. -/
def parse (g : Grammar) (readDepth : Int → String → Option Int) (root : NodeId)
    (cursor : Cursor) : Parsed :=
  let cx := { grammar := g, source := cursor.source, mode := .reject, readDepth }
  let (outcome, st) := Parse.run cx root cursor.pos cursor.guard
  { outcome
    cursor := { cursor with pos := st.pos, guard := st.guard }
    events := st.events.reverse }

end Grammar

end PegGraph
