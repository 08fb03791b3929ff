/-
PegGraph.Proofs.Machine — parses step by step.

  §1 Machine  — what is being done, what is waiting, and one step.
  §2 Moves    — what is left of a source after a move.
  §3 Runs     — the machine stops, and with what the engine answers.
  §4 Stacks   — saved positions in order, and rounds against what is left of the source.
  §5 Steps    — what every step keeps.
  §6 Parses   — `eval_call`: every parse ends, within its bounds.

The engine of `Parse.Attempt` is defined by recursion on the levels that are left, and a
repetition in it by recursion on the tries that are left. That it is total says nothing
about a parser that counts neither. The machine does not count: it does what a node says,
one thing at a time, and keeps on a stack what is waiting for an answer. Whether it ever
stops is then a question about it, and what it is doing at any moment is a state.

A left-recursive grammar makes the stack grow, and is stopped by the guard. A repetition
makes rounds without the stack growing. Each of them but the last moves on, to where there
is less of the source left, and what was saved deeper in the stack was saved no later than
what is above it.
-/
import Mathlib.Computability.StateTransition
import PegGraph.Proofs.Dispatch

namespace PegGraph.Parse.Machine

open StateTransition (Reaches)

/-! ## §1 Machine -/

/-- A composite inside its section that waits for the answer of a child. -/
inductive Frame where
  /-- A sequence, with the children after this one and the values so far, the latest
  first. -/
  | row (id : NodeId) (left : List NodeId) (values : List Value)
  /-- A choice that has the second child left, and the position to try it from. -/
  | either (id second : NodeId) (start : Int)
  /-- A choice that has nothing left but the answer. -/
  | orElse (id : NodeId)
  /-- A repetition, with the values so far and the position at which the round began. The
  rounds made, and the characters that were left when the first of them began, are kept
  for the record. -/
  | round (id child : NodeId) (values : List Value) (start : Int) (made room : Nat)
  | act (id : NodeId) (action : Action)

/-- The loop that waits in a frame, if one does. -/
def Frame.rounds : Frame → List (Nat × Nat)
  | .round _ _ _ _ made room => [(made, room)]
  | _ => []

/-- What is being done, above the composites that wait for it. -/
inductive State where
  /-- A node is to be tried. -/
  | call (id : NodeId) (frames : List Frame) (st : Progress)
  /-- A sequence goes on to the next child, or is through. -/
  | row (id : NodeId) (left : List NodeId) (values : List Value) (frames : List Frame)
    (st : Progress)
  /-- A repetition begins a round. -/
  | loop (id child : NodeId) (values : List Value) (made room : Nat) (frames : List Frame)
    (st : Progress)
  /-- An answer is given to whoever waits for it. -/
  | reply (outcome : Outcome) (frames : List Frame) (st : Progress)

namespace State

/-- How many composites are inside their sections. -/
def inside : State → Nat
  | .call _ frames _ | .reply _ frames _ => frames.length
  | .row _ _ _ frames _ | .loop _ _ _ _ _ frames _ => frames.length + 1

/-- The loops that go on: the rounds made, and the characters that were left when the first
of them began. -/
def rounds : State → List (Nat × Nat)
  | .call _ frames _ | .reply _ frames _ | .row _ _ _ frames _ => frames.flatMap Frame.rounds
  | .loop _ _ _ made room frames _ => (made, room) :: frames.flatMap Frame.rounds

end State

/-- An answer, with the progress at which it is given. -/
def answer (frames : List Frame) (r : Outcome × Progress) : State := .reply r.1 frames r.2

/-- A composite enters its section, unless the guard refuses. -/
def opened (id : NodeId) (frames : List Frame) (st : Progress) (body : Progress → State) : State :=
  match st.enter id with
  | .error fault => .reply (.failed fault) frames st
  | .ok inside => body inside

/-- What trying a node comes to at once. -/
def tried (cx : Setting) (id : NodeId) (frames : List Frame) (st : Progress) : State :=
  match cx.grammar.node id with
  | .abstract => .reply (.failed (.abstractOperation .parse)) frames st
  | .range bounds => answer frames (attemptRange cx.source bounds st)
  | .sequence children _ => opened id frames st fun inside => .row id children [] frames inside
  | .choice first second _ =>
    opened id frames st fun inside => .call first (.either id second inside.pos :: frames) inside
  | .repetition child _ =>
    opened id frames st fun inside =>
      .loop id child [] 0 (inside.remaining cx.source) frames inside
  | .action child action _ =>
    opened id frames st fun inside => .call child (.act id action :: frames) inside
  | .endOfInput => answer frames (attemptEnd cx.source st)
  | .reference name _ => .reply (.failed (.uncompressedReference (Node.labelOf id name))) frames st

/-- What an answer comes to for the composite that waits for it. -/
def resumed (cx : Setting) (outcome : Outcome) (frames : List Frame) (st : Progress) :
    Frame → State
  | .row id left values =>
    match outcome with
    | .matched value _ => .row id left (value :: values) frames st
    | other => .reply other frames (st.leave id)
  | .either id second start =>
    match outcome with
    | .noMatch =>
      match st.restore cx.source start with
      | .error fault => .reply (.failed fault) frames (st.leave id)
      | .ok back => .call second (.orElse id :: frames) back
    | other => .reply other frames (st.leave id)
  | .orElse id => .reply outcome frames (st.leave id)
  | .round id child values start made room =>
    match outcome with
    | .failed fault => .reply (.failed fault) frames (st.leave id)
    | .noMatch =>
      match st.restore cx.source start with
      | .error fault => .reply (.failed fault) frames (st.leave id)
      | .ok back => .reply (.matched (.tuple values.reverse) back.pos) frames (back.leave id)
    | .matched value _ =>
      if st.pos = start then
        .reply (.matched (.tuple values.reverse) st.pos) frames (st.leave id)
      else .loop id child (value :: values) made room frames st
  | .act id action => answer frames (applyAction cx id action (outcome, st.leave id))

/-- One step. An answer that nobody waits for is the end. -/
def step (cx : Setting) : State → Option State
  | .call id frames st => some (tried cx id frames st)
  | .row id [] values frames st =>
    some (.reply (.matched (.tuple values.reverse) st.pos) frames (st.leave id))
  | .row id (child :: left) values frames st =>
    some (.call child (.row id left values :: frames) st)
  | .loop id child values made room frames st =>
    some (.call child (.round id child values st.pos (made + 1) room :: frames)
      (st.note (.tried id st.pos st.guard.currentDepth)))
  | .reply outcome (frame :: frames) st => some (resumed cx outcome frames st frame)
  | .reply _ [] _ => none

variable {cx : Setting} {att : Attempt} {id child : NodeId} {frames : List Frame}
  {st : Progress} {s s' : State} {guard : DepthGuard}

/-! ## §2 Moves -/

section Moves

variable {source : Source} {p q r : Int}

/-- Characters left from a position on. -/
def left (source : Source) (p : Int) : Nat := (source.length - p).toNat

/-- One position is reached from another without going back, or past the end of the
source. -/
def Onward (source : Source) (p q : Int) : Prop := p ≤ q ∧ q ≤ max p source.length

theorem Onward.refl (source : Source) (p : Int) : Onward source p p :=
  ⟨Int.le_refl _, Int.le_max_left _ _⟩

theorem Onward.trans (h : Onward source p q) (h' : Onward source q r) : Onward source p r := by
  unfold Onward at *
  omega

/-- Whoever moves has fewer characters left. -/
theorem Onward.left_lt (h : Onward source p q) (hmoved : q ≠ p) :
    left source q < left source p := by
  unfold Onward at h
  unfold left
  omega

end Moves

/-! ## §3 Runs -/

/-- The machine answers as a way of trying nodes does, wherever the guard is as given. -/
def AnswersAs (cx : Setting) (att : Attempt) (guard : DepthGuard) : Prop :=
  ∀ id frames st, st.guard = guard →
    Reaches (step cx) (.call id frames st) (answer frames (att id st))

/-- A sequence inside its section. -/
theorem row_reaches (hatt : Orderly cx.source att) (hchild : AnswersAs cx att guard)
    (left : List NodeId) (values : List Value) (hst : st.guard = guard) :
    Reaches (step cx) (.row id left values frames st)
      (.reply (attemptAll att left values st).1 frames
        ((attemptAll att left values st).2.leave id)) := by
  induction left generalizing values st with
  | nil => exact .single rfl
  | cons child left ih =>
    have hanswer := hchild child (.row id left values :: frames) st hst
    have hguard := (hatt child st).guard
    refine .trans (.head rfl hanswer) (.head rfl ?_)
    rw [attemptAll]
    generalize att child st = r at hguard
    obtain ⟨outcome, after⟩ := r
    cases outcome with
    | matched value pos => exact ih (value :: values) (hguard.trans hst)
    | noMatch | failed => exact .refl

/-- A repetition inside its section. It is never short of tries. -/
theorem loop_reaches (hatt : Orderly cx.source att) (hchild : AnswersAs cx att guard)
    (values : List Value) (made room : Nat) {tries : Nat}
    (htries : left cx.source st.pos < tries) (hst : st.guard = guard) :
    Reaches (step cx) (.loop id child values made room frames st)
      (.reply (attemptMany att cx.source id child tries values st).1 frames
        ((attemptMany att cx.source id child tries values st).2.leave id)) := by
  induction tries generalizing values made st with
  | zero => cases htries
  | succ tries ih =>
    have hanswer := hchild child (.round id child values st.pos (made + 1) room :: frames)
      (st.note (.tried id st.pos st.guard.currentDepth)) hst
    have hends := hatt child (st.note (.tried id st.pos st.guard.currentDepth))
    refine .trans (.head rfl hanswer) (.head rfl ?_)
    rw [attemptMany]
    generalize att child (st.note (.tried id st.pos st.guard.currentDepth)) = r at hends
    obtain ⟨outcome, after⟩ := r
    cases outcome with
    | failed fault => exact .refl
    | noMatch =>
      simp only [resumed]
      cases after.restore cx.source st.pos <;> exact .refl
    | matched value pos =>
      simp only [resumed]
      split
      · exact .refl
      · next hmoved =>
        -- the round has used up a try, and taken a character at least
        have hmove : Onward cx.source st.pos after.pos := ⟨hends.le_pos, hends.pos_le⟩
        have hless := hmove.left_lt hmoved
        exact ih (value :: values) (made + 1) (by omega) (hends.guard.trans hst)

theorem tried_sequence {children : List NodeId} {mark : Bool} (hroom : st.HasRoom)
    (hnode : cx.grammar.node id = .sequence children mark) :
    tried cx id frames st = .row id children [] frames (st.within id) := by
  simp only [tried, hnode, opened, Progress.enter_of_hasRoom hroom]

theorem tried_choice {first second : NodeId} {mark : Bool} (hroom : st.HasRoom)
    (hnode : cx.grammar.node id = .choice first second mark) :
    tried cx id frames st = .call first (.either id second st.pos :: frames) (st.within id) := by
  simp only [tried, hnode, opened, Progress.enter_of_hasRoom hroom]
  rfl

theorem tried_repetition {mark : Bool} (hroom : st.HasRoom)
    (hnode : cx.grammar.node id = .repetition child mark) :
    tried cx id frames st = .loop id child [] 0 (st.remaining cx.source) frames (st.within id) := by
  simp only [tried, hnode, opened, Progress.enter_of_hasRoom hroom]
  rfl

theorem tried_action {action : Action} {mark : Bool} (hroom : st.HasRoom)
    (hnode : cx.grammar.node id = .action child action mark) :
    tried cx id frames st = .call child (.act id action :: frames) (st.within id) := by
  simp only [tried, hnode, opened, Progress.enter_of_hasRoom hroom]

/-- A composite that the guard refuses answers so at once. -/
theorem tried_refused (hfull : ¬ st.HasRoom) (hc : (cx.grammar.node id).isComposite = true) :
    tried cx id frames st = .reply (.failed (.depthLimitExceeded st.guard.maxDepth)) frames st := by
  unfold tried
  cases hnode : cx.grammar.node id with
  | sequence | choice | repetition | action =>
    simp only [opened, Progress.enter_of_not_hasRoom hfull]
  | _ => rw [hnode] at hc; cases hc

/-- Any other node answers at once as it does by itself. -/
theorem tried_leaf (hc : (cx.grammar.node id).isComposite = false) (att : Attempt) :
    tried cx id frames st = answer frames (attemptActor cx att id st) := by
  unfold tried attemptActor
  cases hnode : cx.grammar.node id with
  | sequence | choice | repetition | action => rw [hnode] at hc; cases hc
  | _ => rfl

/-- A choice inside its section. -/
theorem either_reaches (hatt : Orderly cx.source att) (hchild : AnswersAs cx att guard)
    (first second : NodeId) (hst : st.guard = guard) :
    Reaches (step cx) (.call first (.either id second st.pos :: frames) st)
      (.reply (attemptEither att cx.source first second st).1 frames
        ((attemptEither att cx.source first second st).2.leave id)) := by
  have hfirst := hatt first st
  refine .trans (hchild first _ st hst) (.head rfl ?_)
  unfold attemptEither
  generalize att first st = r at hfirst
  obtain ⟨outcome, after⟩ := r
  cases outcome with
  | matched | failed => exact .refl
  | noMatch =>
    simp only [resumed]
    cases hback : after.restore cx.source st.pos with
    | error fault => exact .refl
    | ok back =>
      obtain ⟨-, rfl⟩ := Progress.restore_eq_ok.1 hback
      exact .trans (hchild second _ _ (hfirst.guard.trans hst)) (.single rfl)

/-- Where the machine answers inside the section of a node as a way of trying nodes does,
it does so for the node. -/
theorem call_reaches (hatt : Orderly cx.source att)
    (hchild : st.HasRoom → AnswersAs cx att (st.within id).guard) :
    Reaches (step cx) (.call id frames st) (answer frames (attemptActor cx att id st)) := by
  refine .head rfl ?_
  cases hc : (cx.grammar.node id).isComposite with
  | false =>
    rw [tried_leaf hc att]
  | true =>
    by_cases hroom : st.HasRoom
    · have hchild := hchild hroom
      cases hnode : cx.grammar.node id with
      | sequence children =>
        rw [tried_sequence hroom hnode, attemptActor_sequence hnode, guarded_of_hasRoom hroom]
        exact row_reaches hatt hchild children [] rfl
      | choice first second =>
        rw [tried_choice hroom hnode, attemptActor_choice hnode, guarded_of_hasRoom hroom]
        exact either_reaches hatt hchild first second rfl
      | repetition child =>
        rw [tried_repetition hroom hnode, attemptActor_repetition hnode, guarded_of_hasRoom hroom]
        exact loop_reaches hatt hchild [] 0 _ (Nat.lt_succ_self _) rfl
      | action child act =>
        rw [tried_action hroom hnode, attemptActor_action hnode]
        simp only [guarded_of_hasRoom hroom]
        exact .tail (hchild child _ _ rfl) rfl
      | abstract | range | endOfInput | reference => rw [hnode] at hc; cases hc
    · rw [tried_refused hroom hc, attemptActor_of_not_hasRoom hc hroom]
      exact .refl

/-- **The machine answers as the engine does.** -/
theorem call_reaches_full (hm : cx.mode = .reject) (id : NodeId) (frames : List Frame)
    (st : Progress) :
    Reaches (step cx) (.call id frames st) (answer frames (attemptFull cx id st)) := by
  -- children are tried inside the section of their parent, with less headroom
  induction hlevel : st.guard.headroom using Nat.strongRecOn generalizing id frames st with
  | ind level ih =>
    rw [attemptFull_eq, attemptNode_reject hm]
    refine call_reaches (attemptFull_orderly cx) fun hroom child frames' st' hst' => ?_
    have hone : st.guard.headroom = (st.within id).guard.headroom + 1 :=
      Progress.headroom_within hroom
    exact ih st'.guard.headroom (by rw [hst']; omega) child frames' st' rfl

/-! ## §4 Stacks -/

section Stacks

variable {source : Source} {p q : Int} {n : Nat} {frames' : List Frame} {st' : Progress}

/-- A stack under a position. Where the parse may go back to was saved on the way here, and
so was what is deeper. A loop has not used up the characters that it began with: each round
before the last has taken one of them. -/
def InOrder (source : Source) : Int → List Frame → Prop
  | _, [] => True
  | p, .row _ _ _ :: frames => InOrder source p frames
  | p, .either _ _ start :: frames => Onward source start p ∧ InOrder source start frames
  | p, .orElse _ :: frames => InOrder source p frames
  | p, .round _ _ _ start made room :: frames =>
    Onward source start p ∧ made + left source start ≤ room + 1 ∧ InOrder source start frames
  | p, .act _ _ :: frames => InOrder source p frames

theorem InOrder.onward (h : InOrder source p frames) (hq : Onward source p q) :
    InOrder source q frames := by
  induction frames with
  | nil => trivial
  | cons frame frames ih =>
    cases frame with
    | row | orElse | act => exact ih h
    | either => exact ⟨h.1.trans hq, h.2⟩
    | round => exact ⟨h.1.trans hq, h.2⟩

/-- A loop makes one round more than there are characters left, at most. -/
theorem InOrder.made_le (h : InOrder source p frames) {made room : Nat}
    (hmem : (made, room) ∈ frames.flatMap Frame.rounds) : made ≤ room + 1 := by
  induction frames generalizing p with
  | nil => cases hmem
  | cons frame frames ih =>
    rw [List.flatMap_cons, List.mem_append] at hmem
    rcases hmem with hmem | hmem
    · cases frame with
      | row | either | orElse | act => cases hmem
      | round =>
        cases List.mem_singleton.1 hmem
        exact (Nat.le_add_right _ _).trans h.2.1
    · cases frame with
      | row | orElse | act => exact ih h hmem
      | either => exact ih h.2 hmem
      | round => exact ih h.2.2 hmem

/-- How a parse stands: the guard has counted the composites that are inside their
sections, with room for all of them, and the stack is in order. -/
structure Stands (guard : DepthGuard) (source : Source) (n : Nat) (frames : List Frame)
    (st : Progress) : Prop where
  maxDepth : st.guard.maxDepth = guard.maxDepth
  currentDepth : st.guard.currentDepth = guard.currentDepth + n
  le_headroom : n ≤ guard.headroom
  inOrder : InOrder source st.pos frames

namespace Stands

/-- The guard alone is counted. -/
theorem of_guard (h : Stands guard source n frames st) (hguard : st'.guard = st.guard)
    (horder : InOrder source st'.pos frames') : Stands guard source n frames' st' :=
  ⟨hguard ▸ h.maxDepth, hguard ▸ h.currentDepth, h.le_headroom, horder⟩

theorem later (h : Stands guard source n frames st) (hlater : Later source st st') :
    Stands guard source n frames st' :=
  h.of_guard hlater.guard (h.inOrder.onward ⟨hlater.le_pos, hlater.pos_le⟩)

theorem within (h : Stands guard source n frames st) (hroom : st.HasRoom) (id : NodeId) :
    Stands guard source (n + 1) frames (st.within id) := by
  have hmax := h.maxDepth
  have hcurrent := h.currentDepth
  unfold Progress.HasRoom at hroom
  refine ⟨hmax, ?_, ?_, h.inOrder⟩
  · show st.guard.currentDepth + 1 = _
    omega
  · unfold DepthGuard.headroom
    omega

theorem leave (h : Stands guard source (n + 1) frames st) (id : NodeId) :
    Stands guard source n frames (st.leave id) := by
  have hcurrent := h.currentDepth
  refine ⟨h.maxDepth, ?_, Nat.le_of_succ_le h.le_headroom, h.inOrder⟩
  show st.guard.currentDepth - 1 = _
  omega

end Stands

end Stacks

/-! ## §5 Steps -/

/-- What holds of every state of a parse. A loop between two rounds has not made more of
them than it has moved on. -/
def State.Keeps (guard : DepthGuard) (source : Source) : State → Prop
  | .call _ frames st | .reply _ frames st => Stands guard source frames.length frames st
  | .row _ _ _ frames st => Stands guard source (frames.length + 1) frames st
  | .loop _ _ _ made room frames st =>
    Stands guard source (frames.length + 1) frames st ∧ made + left source st.pos ≤ room

section Steps

variable {source : Source} {outcome : Outcome} {frame : Frame}

theorem keeps_answer {r : Outcome × Progress} (h : Stands guard source frames.length frames st)
    (hends : Ends source st r) : (answer frames r).Keeps guard source :=
  h.later hends.toLater

/-- An action leaves guard and position to the section around it. -/
theorem stands_applyAction {n : Nat} (id : NodeId) (act : Action)
    (h : Stands guard source n frames st) :
    Stands guard source n frames (applyAction cx id act (outcome, st)).2 := by
  cases outcome with
  | noMatch | failed => exact h
  | matched value pos =>
    unfold applyAction
    simp only
    split <;> exact h.of_guard rfl h.inOrder

theorem keeps_opened {body : Progress → State} (h : Stands guard source frames.length frames st)
    (hbody : Stands guard source (frames.length + 1) frames (st.within id) →
      (body (st.within id)).Keeps guard source) :
    (opened id frames st body).Keeps guard source := by
  unfold opened
  by_cases hroom : st.HasRoom
  · rw [Progress.enter_of_hasRoom hroom]
    exact hbody (h.within hroom id)
  · rw [Progress.enter_of_not_hasRoom hroom]
    exact h

theorem keeps_tried (h : Stands guard cx.source frames.length frames st) :
    (tried cx id frames st).Keeps guard cx.source := by
  unfold tried
  split
  · exact h
  · exact keeps_answer h (attemptRange_ends _ st)
  · exact keeps_opened h fun h => h
  · exact keeps_opened h fun h => h.of_guard rfl ⟨.refl _ _, h.inOrder⟩
  · exact keeps_opened h fun h => ⟨h, Nat.le_of_eq (Nat.zero_add _)⟩
  · exact keeps_opened h fun h => h.of_guard rfl h.inOrder
  · exact keeps_answer h (attemptEnd_ends st)
  · exact h

theorem keeps_resumed (h : Stands guard cx.source (frames.length + 1) (frame :: frames) st) :
    (resumed cx outcome frames st frame).Keeps guard cx.source := by
  cases frame with
  | row id left values =>
    have hbelow : Stands guard cx.source (frames.length + 1) frames st := h.of_guard rfl h.inOrder
    cases outcome with
    | matched => exact hbelow
    | noMatch | failed => exact hbelow.leave id
  | orElse id =>
    have hbelow : Stands guard cx.source (frames.length + 1) frames st := h.of_guard rfl h.inOrder
    exact hbelow.leave id
  | act id action =>
    have hbelow : Stands guard cx.source (frames.length + 1) frames st := h.of_guard rfl h.inOrder
    exact stands_applyAction id action (hbelow.leave id)
  | either id second start =>
    obtain ⟨hstart, horder⟩ := h.inOrder
    have hbelow : Stands guard cx.source (frames.length + 1) frames st :=
      h.of_guard rfl (horder.onward hstart)
    cases outcome with
    | matched | failed => exact hbelow.leave id
    | noMatch =>
      simp only [resumed]
      split
      · exact hbelow.leave id
      · next hback =>
        obtain ⟨-, rfl⟩ := Progress.restore_eq_ok.1 hback
        exact h.of_guard rfl horder
  | round id child values start made room =>
    obtain ⟨hstart, hmade, horder⟩ := h.inOrder
    have hbelow : Stands guard cx.source (frames.length + 1) frames st :=
      h.of_guard rfl (horder.onward hstart)
    cases outcome with
    | failed => exact hbelow.leave id
    | noMatch =>
      simp only [resumed]
      split
      · exact hbelow.leave id
      · next hback =>
        obtain ⟨-, rfl⟩ := Progress.restore_eq_ok.1 hback
        have hgone : Stands guard cx.source (frames.length + 1) frames { st with pos := start } :=
          h.of_guard rfl horder
        exact hgone.leave id
    | matched =>
      simp only [resumed]
      split
      · exact hbelow.leave id
      · next hmoved =>
        have hless := hstart.left_lt hmoved
        exact ⟨hbelow, by omega⟩

/-- **Every step keeps it.** -/
theorem Keeps.step (h : s.Keeps guard cx.source) (hs : s' ∈ step cx s) :
    s'.Keeps guard cx.source := by
  cases s with
  | call id frames st =>
    cases hs
    exact keeps_tried h
  | row id left values frames st =>
    cases left with
    | nil =>
      cases hs
      exact Stands.leave h id
    | cons child left =>
      cases hs
      exact Stands.of_guard h rfl h.inOrder
  | loop id child values made room frames st =>
    cases hs
    obtain ⟨hstands, hmade⟩ := h
    exact hstands.of_guard rfl ⟨.refl _ _, by omega, hstands.inOrder⟩
  | reply outcome frames st =>
    cases frames with
    | nil => cases hs
    | cons frame frames =>
      cases hs
      exact keeps_resumed h

end Steps

namespace State.Keeps

variable {source : Source}

theorem inside_le (h : s.Keeps guard source) : s.inside ≤ guard.headroom := by
  cases s with
  | call | reply | row => exact h.le_headroom
  | loop => exact h.1.le_headroom

theorem made_le (h : s.Keeps guard source) {made room : Nat} (hmem : (made, room) ∈ s.rounds) :
    made ≤ room + 1 := by
  cases s with
  | call | reply | row => exact h.inOrder.made_le hmem
  | loop =>
    rcases List.mem_cons.1 hmem with heq | hmem
    · cases heq
      have hle := h.2
      omega
    · exact h.1.inOrder.made_le hmem

end State.Keeps

/-! ## §6 Parses -/

/-- **Every parse ends**, with what the engine answers. Until then no more composites are
inside their sections than the guard had room for at the start, and no loop has made more
than one round for each character that was left when it began, and one. -/
theorem eval_call (hm : cx.mode = .reject) (root : NodeId) (pos : Int) (guard : DepthGuard) :
    StateTransition.eval (step cx) (.call root [] ⟨pos, guard, []⟩) =
        Part.some (answer [] (run cx root pos guard)) ∧
      ∀ s, Reaches (step cx) (.call root [] ⟨pos, guard, []⟩) s →
        (s.inside : Int) ≤ max 0 (guard.maxDepth - guard.currentDepth) ∧
          ∀ made room, (made, room) ∈ s.rounds → made ≤ room + 1 := by
  refine ⟨Part.eq_some_iff.2 (StateTransition.mem_eval.2 ⟨?_, rfl⟩), fun s hs => ?_⟩
  · exact call_reaches_full hm root [] ⟨pos, guard, []⟩
  · have hkeeps : s.Keeps guard cx.source := by
      induction hs with
      | refl => exact ⟨rfl, (Int.add_zero _).symm, Nat.zero_le _, trivial⟩
      | tail _ hstep ih => exact Keeps.step ih hstep
    have hinside := hkeeps.inside_le
    unfold DepthGuard.headroom at hinside
    exact ⟨by omega, fun made room => hkeeps.made_le⟩

/-- Letters or the same again, as often as they go; and a repetition of a repetition of
what takes no letter. -/
def restless : Setting :=
  ⟨⟨#[.repetition 1 true, .choice 2 0 true, .range (.single 'a'),
      .repetition 4 true, .repetition 5 true, .endOfInput]⟩, ⟨#['a', 'a']⟩, .reject,
    fun _ _ => none⟩

/-- Whether an outcome is the refusal of a guard with a given limit. -/
def isRefusal (limit : Int) : Outcome → Bool
  | .failed (.depthLimitExceeded reached) => reached == limit
  | _ => false

theorem eq_of_isRefusal {limit : Int} {outcome : Outcome} (h : isRefusal limit outcome = true) :
    outcome = .failed (.depthLimitExceeded limit) := by
  unfold isRefusal at h
  split at h
  · rw [beq_iff_eq.1 h]
  · cases h

/-- Once there are no letters left, the first is inside itself until the guard refuses.
The second ends with nothing. -/
theorem eval_call_restless :
    restless.mode = .reject ∧
      StateTransition.eval (step restless) (.call 0 [] ⟨0, ⟨9, 2⟩, []⟩) =
        Part.some (answer [] (run restless 0 0 ⟨9, 2⟩)) ∧
      (run restless 0 0 ⟨9, 2⟩).1 = .failed (.depthLimitExceeded 9) ∧
      (∀ s, Reaches (step restless) (.call 0 [] ⟨0, ⟨9, 2⟩, []⟩) s → s.inside ≤ 7) ∧
      StateTransition.eval (step restless) (.call 3 [] ⟨2, ⟨9, 2⟩, []⟩) =
        Part.some (answer [] (run restless 3 2 ⟨9, 2⟩)) ∧
      (run restless 3 2 ⟨9, 2⟩).1 = .matched (.tuple []) 2 := by
  have hm : restless.mode = .reject := rfl
  obtain ⟨hcut, hmoments⟩ := eval_call hm 0 0 ⟨9, 2⟩
  have hrefused : (run restless 0 0 ⟨9, 2⟩).1 = .failed (.depthLimitExceeded 9) :=
    eq_of_isRefusal (by decide +kernel)
  have hinside : ∀ s, Reaches (step restless) (.call 0 [] ⟨0, ⟨9, 2⟩, []⟩) s → s.inside ≤ 7 := by
    intro s hs
    have hbound : (s.inside : Int) ≤ max 0 (9 - 2) := (hmoments s hs).1
    omega
  exact ⟨hm, hcut, hrefused, hinside, (eval_call hm 3 2 ⟨9, 2⟩).1, rfl⟩

end PegGraph.Parse.Machine
