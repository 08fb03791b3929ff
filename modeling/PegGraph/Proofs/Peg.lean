/-
PegGraph.Proofs.Peg — parsing expressions as functions of a position.

  §1 Answers     — what a matcher says of a position.
  §2 Matchers    — the six ways to match, on matchers alone.
  §3 Evaluation  — the matcher of a node, with so many levels of composites.

Nothing here moves: a matcher is given a position and may answer with a later
one, and a matcher that is tried in its place is given the same position again.
There is no cursor, no guard and no order of events in an answer.
-/
import PegGraph.Parse.Basic
import PegGraph.Proofs.Splice

namespace PegGraph

namespace Peg

/-! ## §1 Answers -/

/-- What a matcher says: a value and the position after the match, no match, or
a fault. -/
inductive Answer (α : Type) where
  | matched (value : α) (pos : Nat)
  | noMatch
  | failed (fault : Fault)

variable {α β γ : Type}

namespace Answer

/-- Goes on from a match. -/
def andThen : Answer α → (α → Nat → Answer β) → Answer β
  | .matched value pos, next => next value pos
  | .noMatch, _ => .noMatch
  | .failed fault, _ => .failed fault

/-- Falls back where nothing matches. A fault is final. -/
def orElse : Answer α → Answer α → Answer α
  | .noMatch, other => other
  | answer, _ => answer

/-- Changes the value of a match. -/
def map (f : α → β) (a : Answer α) : Answer β := a.andThen fun value pos => .matched (f value) pos

theorem map_map (f : α → β) (f' : β → γ) (a : Answer α) : (a.map f).map f' = a.map (f' ∘ f) := by
  cases a <;> rfl

/-- What matches after another match. -/
theorem andThen_eq_matched {a : Answer α} {next : α → Nat → Answer β} {b : β} {q : Nat} :
    a.andThen next = .matched b q ↔ ∃ v r, a = .matched v r ∧ next v r = .matched b q := by
  cases a with
  | matched v r => exact ⟨fun h => ⟨v, r, rfl, h⟩, by rintro ⟨_, _, ⟨⟩, h⟩; exact h⟩
  | noMatch | failed => exact ⟨nofun, nofun⟩

theorem map_eq_matched {a : Answer α} {f : α → β} {b : β} {q : Nat} :
    a.map f = .matched b q ↔ ∃ v, a = .matched v q ∧ f v = b := by
  rw [map, andThen_eq_matched]
  constructor
  · rintro ⟨v, r, rfl, ⟨⟩⟩
    exact ⟨v, rfl, rfl⟩
  · rintro ⟨v, rfl, rfl⟩
    exact ⟨v, q, rfl, rfl⟩

/-- An answer as the outcome of a parse. -/
def outcome : Answer Value → Outcome
  | .matched value pos => .matched value pos
  | .noMatch => .noMatch
  | .failed fault => .failed fault

end Answer

/-! ## §2 Matchers -/

/-- An answer for every position. -/
abbrev Matcher (α : Type) := Nat → Answer α

/-- One character of a range. -/
def character (source : Source) (bounds : CharRange) : Matcher Value := fun p =>
  match source.chars[p]? with
  | some c =>
    if bounds.contains c then .matched (.text (String.singleton c)) (p + 1) else .noMatch
  | none => .noMatch

/-- The end of the source. -/
def atEnd (source : Source) : Matcher Value := fun p =>
  if p = source.length then .matched .none p else .noMatch

/-- Each matcher where the one before it ended. -/
def inOrder : List (Matcher α) → Matcher (List α)
  | [], p => .matched [] p
  | m :: rest, p => (m p).andThen fun value q => (inOrder rest q).map (value :: ·)

/-- The first matcher, or else the second at the same position. -/
def either (first second : Matcher α) : Matcher α := fun p => (first p).orElse (second p)

/-- The longest run of matches that each consume something, inside a source of
the given length. Whatever ends the run is not part of it, unless it is a
fault. -/
def many (length : Nat) (m : Matcher α) (p : Nat) : Answer (List α) :=
  match m p with
  | .matched value q =>
    if p < q ∧ q ≤ length then (many length m q).map (value :: ·) else .matched [] p
  | .noMatch => .matched [] p
  | .failed fault => .failed fault
termination_by length - p

/-- A matcher, and a function on its value, which may fail. -/
def acting (f : α → Except Fault β) (m : Matcher α) : Matcher β := fun p =>
  (m p).andThen fun value q =>
    match f value with
    | .ok result => .matched result q
    | .error fault => .failed fault

section Many

variable {length p q : Nat} {m : Matcher α} {value : α}

theorem many_of_noMatch (h : m p = .noMatch) : many length m p = .matched [] p := by
  rw [many, h]

theorem many_of_failed {fault : Fault} (h : m p = .failed fault) :
    many length m p = .failed fault := by
  rw [many, h]

/-- An empty match ends a run. -/
theorem many_of_empty (h : m p = .matched value p) : many length m p = .matched [] p := by
  rw [many, h]
  simp only [Nat.lt_irrefl, false_and, if_false]

/-- A match that consumes something is part of the run. -/
theorem many_of_more (h : m p = .matched value q) (hlt : p < q) (hq : q ≤ length) :
    many length m p = (many length m q).map (value :: ·) := by
  rw [many, h]
  simp only [hlt, hq, and_self, if_true]

end Many

/-! ## §3 Evaluation -/

end Peg

/-- Whether an action makes its value of its argument alone. -/
def Action.isPure : Action → Bool
  | .gauged _ => false
  | _ => true

theorem Action.apply_of_isPure {act : Action} (h : act.isPure = true)
    (readDepth other : String → Option Int) : act.apply readDepth = act.apply other := by
  cases act with
  | gauged => cases h
  | _ => rfl

/-- Whether a node acts by a pure action, if it acts at all. -/
def Node.isPure : Node → Bool
  | .action _ act _ => act.isPure
  | _ => true

/-- Every action that a node reaches is pure. -/
def Grammar.ActsPurely (g : Grammar) (n : NodeId) : Prop :=
  ∀ m, g.Reaches n m → (g.node m).isPure = true

/-- A pure action makes the same of a value whatever guards show. -/
theorem Grammar.ActsPurely.apply_eq {g : Grammar} {n m child : NodeId} {act : Action}
    {mark : Bool} (h : g.ActsPurely n) (hr : g.Reaches n m)
    (hnode : g.node m = .action child act mark) (readDepth other : String → Option Int) :
    act.apply readDepth = act.apply other := by
  have hpure := h m hr
  rw [hnode] at hpure
  exact act.apply_of_isPure hpure readDepth other

theorem Grammar.ActsPurely.of_linked {g : Grammar} {n m : NodeId} (h : g.ActsPurely n)
    (hl : g.Linked n m) : g.ActsPurely m :=
  fun k hk => h k (.head hl hk)

namespace Peg

/-- The matcher of a node, over matchers for the nodes that it links to. An
action is given nothing but the value. -/
def evalNode (source : Source) (inner : NodeId → Matcher Value) (id : NodeId) :
    Node → Matcher Value
  | .abstract => fun _ => .failed (.abstractOperation .parse)
  | .range bounds => character source bounds
  | .sequence children _ => fun p => (inOrder (children.map inner) p).map .tuple
  | .choice first second _ => either (inner first) (inner second)
  | .repetition child _ => fun p => (many source.length (inner child) p).map .tuple
  | .action child act _ => acting (act.apply fun _ => none) (inner child)
  | .endOfInput => atEnd source
  | .reference name _ => fun _ => .failed (.uncompressedReference (Node.labelOf id name))

/-- The matcher of a node, where composites may nest as deeply as the headroom
allows. Each composite takes one level of it; where none is left, a composite
exceeds the limit. -/
def eval (g : Grammar) (source : Source) (limit : Int) : Nat → NodeId → Matcher Value
  | 0, id =>
    if (g.node id).isComposite then fun _ => .failed (.depthLimitExceeded limit)
    else evalNode source (fun _ _ => .noMatch) id (g.node id)
  | headroom + 1, id => evalNode source (eval g source limit headroom) id (g.node id)

end Peg

end PegGraph
