/-
PegGraph.Proofs.Accounting — what a parse does to its guard.

  §1 Calls    — the depth at which an action is called.
  §2 Parses   — `run_accounted`: the guard is as it was, and was never past its limit.
  §3 Sessions — `parseAll_accounted`: parses that share guards do not notice one
                another.

No hypothesis is made on how a parse ends, and none on where it starts: `Later.guard`
is about every outcome. So after a parse, failed or not, the guards of a session are
the same, and the next parse finds what it would have found without the last one.
-/
import PegGraph.Proofs.Record
import PegGraph.Session

namespace PegGraph

namespace Parse

variable {cx : Setting} {u : Trial} {root child : NodeId} {pos : Int} {guard : DepthGuard}
  {act : Action} {mark : Bool}

/-! ## §1 Calls -/

/-- What becomes of a match whose action has been called. -/
def called (pos : Int) : Except Fault Value → Outcome
  | .ok result => .matched result pos
  | .error fault => .failed fault

/-- Where the section of an action has matched, the action is called at the depth at
which its node was tried. -/
theorem result_of_matched (hm : cx.mode = .reject)
    (hnode : cx.grammar.node u.node = .action child act mark) {value : Value} {after : Progress}
    (hmatch : guarded u.node (attemptFull cx child) u.start = (.matched value pos, after)) :
    after.guard = u.start.guard ∧ u.result (attemptFull cx) =
      (called pos (act.apply (cx.readDepth u.start.guard.currentDepth) value),
        after.note (.applied u.node act.label? value u.start.guard.currentDepth)) := by
  have hguard : after.guard = u.start.guard := by
    have hends := guarded_ends (attemptFull_orderly cx child) u.node u.start
    rw [hmatch] at hends
    exact hends.guard
  have hresult : u.result (attemptActor cx (attemptFull cx)) =
      applyAction cx u.node act (.matched value pos, after) := by
    rw [Trial.result, attemptActor_action hnode]
    simp only [hmatch]
  refine ⟨hguard, ?_⟩
  rw [result_eq hm, hresult]
  simp only [applyAction, hguard]
  cases act.apply (cx.readDepth u.start.guard.currentDepth) value <;> rfl

/-! ## §2 Parses -/

/-- The depth of a parse, at its end, at every moment of it and on record. -/
structure Accounted (cx : Setting) (root : NodeId) (pos : Int) (guard : DepthGuard) : Prop where
  restored : (run cx root pos guard).2.guard = guard
  bounded : ∀ st, Moment cx ⟨root, ⟨pos, guard, []⟩⟩ st → st.guard.maxDepth = guard.maxDepth ∧
    guard.currentDepth ≤ st.guard.currentDepth ∧ st.guard.currentDepth ≤ guard.maxDepth
  shown : ∀ e ∈ (run cx root pos guard).2.events,
    guard.currentDepth ≤ e.depth ∧ e.depth ≤ guard.maxDepth
  /-- A section is left after all those that were entered inside it, and none stays
  open. -/
  nested : Trace guard.maxDepth guard.currentDepth (run cx root pos guard).2.events.reverse
  /-- Where the section of an action has matched, the action is called at the depth at
  which its node was tried. -/
  acts : ∀ u child act mark, Covers cx ⟨root, ⟨pos, guard, []⟩⟩ u →
    cx.grammar.node u.node = .action child act mark → ∀ value p after,
      guarded u.node (attemptFull cx child) u.start = (.matched value p, after) →
        after.guard = u.start.guard ∧ u.result (attemptFull cx) =
          (called p (act.apply (cx.readDepth u.start.guard.currentDepth) value),
            after.note (.applied u.node act.label? value u.start.guard.currentDepth))
  /-- No call is made otherwise. -/
  calls : ∀ n label value depth,
    .applied n label value depth ∈ (run cx root pos guard).2.events →
      ∃ u, Covers cx ⟨root, ⟨pos, guard, []⟩⟩ u ∧ u.node = n ∧ u.start.guard.currentDepth = depth

/-- **Depth is accounted for** in every parse, however it ends. -/
theorem run_accounted (hm : cx.mode = .reject) (h : guard.currentDepth ≤ guard.maxDepth)
    (root : NodeId) (pos : Int) : Accounted cx root pos guard := by
  let t : Trial := ⟨root, ⟨pos, guard, []⟩⟩
  have hends := run_ends cx root pos guard
  have hbounded : ∀ st, Moment cx t st → st.guard.maxDepth = guard.maxDepth ∧
      guard.currentDepth ≤ st.guard.currentDepth ∧ st.guard.currentDepth ≤ guard.maxDepth :=
    fun st hst => hst.depth h
  constructor
  case restored => exact hends.guard
  case bounded => exact hbounded
  case shown =>
    intro e he
    obtain ⟨u, i, st, hcovers, hrecords⟩ := exists_records_of_mem hm he
    rw [hrecords.shows.2]
    exact (hbounded st (hrecords.moment hm hcovers)).2
  case nested =>
    obtain ⟨new, htrace, heq⟩ := hends.events
    rw [heq]
    simpa [t] using htrace
  case acts => exact fun _ _ _ _ _ hnode _ _ _ hmatch => result_of_matched hm hnode hmatch
  case calls =>
    intro n label value depth he
    obtain ⟨u, i, st, hcovers, hrecords⟩ := exists_records_of_mem hm he
    cases hrecords with
    | applied hnode hafter =>
      refine ⟨u, hcovers, rfl, ?_⟩
      rw [← hafter, ← result_eq hm]
      have hguard : (u.result (attemptFull cx)).2.guard = u.start.guard :=
        (attemptFull_orderly cx u.node u.start).guard
      rw [hguard]

end Parse

/-! ## §3 Sessions -/

namespace Session

/-- A parse to be made in a session. -/
structure Request where
  names : GuardNames
  root : NodeId
  held : Held

namespace Request

/-- Makes the parse. -/
def parse (r : Request) : Op (Outcome × Held) := Session.parse r.names r.root r.held

/-- The setting of the parse, as the session is. -/
def setting (r : Request) (s : Session) : Parse.Setting where
  grammar := s.grammar
  source := r.held.source
  mode := .reject
  readDepth := s.depthOf r.names (some r.held.guard)

/-- The parse with a guard of its own, in the state of the guard that it is given in
the session. -/
def alone (r : Request) (s : Session) : Outcome × Parse.Progress :=
  Parse.run (r.setting s) r.root r.held.pos (s.guard r.held.guard)

/-- What comes of that: the outcome, and the cursor where it is left. -/
def reply (r : Request) (s : Session) : Outcome × Held :=
  ((r.alone s).1, { r.held with pos := (r.alone s).2.pos })

/-- The entries that it leaves in the trace, the earliest first. -/
def entries (r : Request) (s : Session) : List (String × Value) :=
  (r.alone s).2.events.reverse.filterMap Parse.Event.traceEntry?

end Request

/-- To put a guard where it is changes nothing. -/
theorem setGuard_guard (s : Session) (id : GuardId) : (setGuard id (s.guard id) s).2 = s := by
  have hsame : s.guards.setIfInBounds id (s.guard id) = s.guards := by
    by_cases h : id < s.guards.size
    · simp [Session.guard, Array.setIfInBounds, h]
    · simp [Array.setIfInBounds, h]
  simp only [setGuard, hsame]

/-- A parse leaves the session as it was, but for the trace. -/
theorem Request.parse_eq (r : Request) (s : Session) :
    r.parse s = (r.reply s, { s with trace := (r.entries s).reverse ++ s.trace }) := by
  have hguard : (r.alone s).2.guard = s.guard r.held.guard :=
    (Parse.run_ends (r.setting s) r.root r.held.pos (s.guard r.held.guard)).guard
  have hparse : r.parse s =
      (r.reply s, (record (r.alone s).2.events.reverse
        (setGuard r.held.guard (r.alone s).2.guard s).2).2) := rfl
  rw [hparse, hguard, setGuard_guard]
  rfl

/-- Makes parses in order. -/
def parseAll (requests : List Request) : Op (List (Outcome × Held)) := requests.mapM Request.parse

/-- Every parse of a series comes to what it would have come to as the first. -/
theorem parseAll_eq (requests : List Request) (s : Session) :
    parseAll requests s = (requests.map (Request.reply · s),
      { s with trace := (requests.flatMap (Request.entries · s)).reverse ++ s.trace }) := by
  induction requests generalizing s with
  | nil => rfl
  | cons r rest ih =>
    have hcons : parseAll (r :: rest) s =
        ((r.parse s).1 :: (parseAll rest (r.parse s).2).1, (parseAll rest (r.parse s).2).2) := by
      simp only [parseAll, List.mapM_cons]
      rfl
    rw [hcons, ih, r.parse_eq]
    simp only [List.map_cons, List.flatMap_cons, List.reverse_append, List.append_assoc]
    rfl

/-- **Parses that share guards do not notice one another**: depth is accounted for in
every one, each comes to what it would have come to with a guard of its own, and all
that they leave in the session are their entries in the trace. -/
theorem parseAll_accounted (s : Session) (requests : List Request)
    (h : ∀ r ∈ requests,
      (s.guard r.held.guard).currentDepth ≤ (s.guard r.held.guard).maxDepth) :
    (∀ r ∈ requests, Parse.Accounted (r.setting s) r.root r.held.pos (s.guard r.held.guard)) ∧
      (parseAll requests s).1 = requests.map (Request.reply · s) ∧
      (parseAll requests s).2 =
        { s with trace := (requests.flatMap (Request.entries · s)).reverse ++ s.trace } := by
  refine ⟨fun r hr => Parse.run_accounted rfl (h r hr) r.root r.held.pos, ?_, ?_⟩
  · rw [parseAll_eq]
  · rw [parseAll_eq]

/-- Nodes that fail in many ways. -/
def mishaps : Session where
  grammar := ⟨#[.sequence [1] false, .action 2 (.fail (.impossible "no")) false,
    .range (.single 'a'), .sequence [0] false, .choice 2 5 false, .reference none none]⟩
  guards := #[⟨2, 0⟩]
  notices := []
  trace := []

/-- A parse of two letters under the one guard. -/
def mishap (root : NodeId) (pos : Int) : Request :=
  ⟨fun _ => none, root, ⟨.ofString "ab", pos, 0⟩⟩

/-- A call fails two levels down, a third level is refused, a position before the
source is not gone back to, a reference and an abstract node are met; and then a
letter is matched. -/
def mishapRequests : List Request :=
  [mishap 0 0, mishap 3 0, mishap 4 (-1), mishap 5 0, mishap 6 0, mishap 4 0]

/-- The fault that a parse has ended with. -/
def fault? (reply : Outcome × Held) : Option Fault :=
  match reply.1 with
  | .failed fault => some fault
  | _ => none

theorem parseAll_accounted_mishaps :
    (∀ r ∈ mishapRequests,
      (mishaps.guard r.held.guard).currentDepth ≤ (mishaps.guard r.held.guard).maxDepth) ∧
    (∀ r ∈ mishapRequests,
      Parse.Accounted (r.setting mishaps) r.root r.held.pos (mishaps.guard r.held.guard)) ∧
    (parseAll mishapRequests mishaps).1 = mishapRequests.map (Request.reply · mishaps) ∧
    (parseAll mishapRequests mishaps).2.guards = #[⟨2, 0⟩] ∧
    (mishapRequests.map (Request.reply · mishaps)).map fault? =
      [some (.impossible "no"), some (.depthLimitExceeded 2), some (.positionOutside (-1) 2),
        some (.uncompressedReference (Node.labelOf 5 none)), some (.abstractOperation .parse),
        none] := by
  have hdepth : ∀ r ∈ mishapRequests,
      (mishaps.guard r.held.guard).currentDepth ≤ (mishaps.guard r.held.guard).maxDepth := by
    decide
  obtain ⟨haccounted, hreplies, hsession⟩ := parseAll_accounted mishaps mishapRequests hdepth
  refine ⟨hdepth, haccounted, hreplies, ?_, by decide +kernel⟩
  rw [hsession]
  rfl

end Session

end PegGraph
