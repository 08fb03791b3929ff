/-
PegGraph.Proofs.Trace — what an attempt leaves behind, whatever its outcome.

  §1 Sections   — the progress inside a section, and a section as one equation.
  §2 Traces     — how recorded events nest, and the depth of each.
  §3 Later      — the guard as before, the position not before where it was, and
                  a trace more on record.
  §4 Composites — one lemma for each way of trying children.
  §5 Attempts   — `attempt_ends`, by induction on the levels.

A fault leaves no section open and does not move back: it is an outcome like any
other, and `guarded` leaves the section before it passes the outcome on. So what
is said here of an attempt asks for nothing, not even that it starts inside the
source.
-/
import PegGraph.Parse.Attempt

namespace PegGraph

/-! ## §1 Sections -/

theorem DepthGuard.maxDepth_of_enter {guard inside : DepthGuard} (h : guard.enter = .ok inside) :
    inside.maxDepth = guard.maxDepth := by
  unfold enter at h
  split at h
  · cases h
  · cases h
    rfl

namespace Parse

namespace Progress

/-- Whether the guard lets a composite enter its section. -/
def HasRoom (st : Progress) : Prop := st.guard.currentDepth < st.guard.maxDepth

instance (st : Progress) : Decidable st.HasRoom :=
  inferInstanceAs (Decidable (st.guard.currentDepth < st.guard.maxDepth))

/-- The progress just inside the section of a node. -/
def within (st : Progress) (id : NodeId) : Progress :=
  { st with guard := { st.guard with currentDepth := st.guard.currentDepth + 1 } }.note
    (.entered id st.pos (st.guard.currentDepth + 1))

variable {st : Progress} {id : NodeId}

theorem enter_of_hasRoom (h : st.HasRoom) : st.enter id = .ok (st.within id) := by
  have hnot : ¬ st.guard.currentDepth ≥ st.guard.maxDepth := Int.not_le.2 h
  simp [enter, DepthGuard.enter, hnot, within]

theorem enter_of_not_hasRoom (h : ¬ st.HasRoom) :
    st.enter id = .error (.depthLimitExceeded st.guard.maxDepth) := by
  have hfull : st.guard.currentDepth ≥ st.guard.maxDepth := Int.not_lt.1 h
  simp [enter, DepthGuard.enter, hfull]

theorem hasRoom_iff : st.HasRoom ↔ 0 < st.guard.headroom := by
  unfold HasRoom DepthGuard.headroom
  omega

/-- A section takes one level of the headroom. -/
theorem headroom_within (h : st.HasRoom) :
    st.guard.headroom = (st.within id).guard.headroom + 1 := by
  unfold HasRoom at h
  simp only [within, note, DepthGuard.headroom]
  omega

theorem leave_guard {after : Progress} (h : after.guard = (st.within id).guard) :
    (after.leave id).guard = st.guard := by
  simp [leave, note, h, within, DepthGuard.leave]

/-- Only a position inside the source is gone back to, and nothing else changes. -/
theorem restore_eq_ok {source : Source} {pos : Int} {back : Progress} :
    st.restore source pos = .ok back ↔
      Cursor.checkPosition source pos = .ok () ∧ back = { st with pos } := by
  unfold restore
  cases Cursor.checkPosition source pos with
  | error fault => simp
  | ok => simp [eq_comm]

end Progress

theorem guarded_of_hasRoom {st : Progress} (h : st.HasRoom) (id : NodeId)
    (body : Progress → Outcome × Progress) :
    guarded id body st = ((body (st.within id)).1, (body (st.within id)).2.leave id) := by
  simp [guarded, Progress.enter_of_hasRoom h]

theorem guarded_of_not_hasRoom {st : Progress} (h : ¬ st.HasRoom) (id : NodeId)
    (body : Progress → Outcome × Progress) :
    guarded id body st = (.failed (.depthLimitExceeded st.guard.maxDepth), st) := by
  simp [guarded, Progress.enter_of_not_hasRoom h]

/-! ## §2 Traces -/

/-- What can be recorded at a depth, the earliest first. What is inside a section
is one level down, and no section opens at the limit. A call follows at once on
the section of its own node, at the depth at which that section was entered. -/
inductive Trace (limit : Int) : Int → List Event → Prop
  | nil {depth : Int} : Trace limit depth []
  | append {depth : Int} {first second : List Event} (h : Trace limit depth first)
      (h' : Trace limit depth second) : Trace limit depth (first ++ second)
  | tried {depth : Int} (id : NodeId) (pos : Int) : Trace limit depth [.tried id pos depth]
  | closed {depth : Int} {inner : List Event} (id : NodeId) (pos pos' : Int)
      (hroom : depth < limit) (h : Trace limit (depth + 1) inner) :
    Trace limit depth (.entered id pos (depth + 1) :: inner ++ [.left id pos' depth])
  | acted {depth : Int} {inner : List Event} (id : NodeId) (pos pos' : Int)
      (label : Option String) (value : Value) (hroom : depth < limit)
      (h : Trace limit (depth + 1) inner) :
    Trace limit depth (.entered id pos (depth + 1) :: inner ++
      [.left id pos' depth, .applied id label value depth])

/-! ## §3 Later -/

/-- What has become of the progress at the start of an attempt, or of a part of it
that leaves every section it enters. -/
structure Later (source : Source) (st after : Progress) : Prop where
  guard : after.guard = st.guard
  le_pos : st.pos ≤ after.pos
  pos_le : after.pos ≤ max st.pos source.length
  events : ∃ new, Trace st.guard.maxDepth st.guard.currentDepth new ∧
    after.events = new.reverse ++ st.events

/-- What an attempt that started at some progress ends in. Where it has matched,
the cursor stands at the end of the match. -/
structure Ends (source : Source) (st : Progress) (r : Outcome × Progress) : Prop
    extends Later source st r.2 where
  anchored : ∀ value pos, r.1 = .matched value pos → r.2.pos = pos

/-- A way of trying nodes under which every attempt ends as one should. -/
abbrev Orderly (source : Source) (att : Attempt) : Prop := ∀ n st, Ends source st (att n st)

variable {cx : Setting} {att : Attempt} {source : Source} {st after back : Progress} {id : NodeId}

namespace Later

theorem refl (source : Source) (st : Progress) : Later source st st :=
  ⟨rfl, Int.le_refl _, Int.le_max_left _ _, [], .nil, rfl⟩

theorem trans {mid : Progress} (h : Later source st mid) (h' : Later source mid after) :
    Later source st after := by
  obtain ⟨new, htrace, heq⟩ := h.events
  obtain ⟨new', htrace', heq'⟩ := h'.events
  rw [h.guard] at htrace'
  have hlow := h.le_pos
  have hlow' := h'.le_pos
  have hhigh := h.pos_le
  have hhigh' := h'.pos_le
  refine ⟨h'.guard.trans h.guard, by omega, by omega, new ++ new', htrace.append htrace', ?_⟩
  simp [heq', heq]

theorem tried (source : Source) (st : Progress) (id : NodeId) :
    Later source st (st.note (.tried id st.pos st.guard.currentDepth)) :=
  ⟨rfl, Int.le_refl _, Int.le_max_left _ _, _, .tried id st.pos, rfl⟩

/-- Going back to the start of an attempt undoes its moves, not its record. -/
theorem restore (h : Later source st after) (hback : after.restore source st.pos = .ok back) :
    Later source st back := by
  obtain ⟨-, rfl⟩ := Progress.restore_eq_ok.1 hback
  exact ⟨h.guard, Int.le_refl _, Int.le_max_left _ _, h.events⟩

/-- Leaving the section that was entered at the start. -/
theorem leave (hroom : st.HasRoom) (h : Later source (st.within id) after) :
    Later source st (after.leave id) := by
  obtain ⟨new, htrace, heq⟩ := h.events
  refine ⟨Progress.leave_guard h.guard, h.le_pos, h.pos_le, _,
    .closed id st.pos after.pos hroom htrace, ?_⟩
  show .left id after.pos after.guard.leave.currentDepth :: after.events = _
  simp [h.guard, DepthGuard.leave, heq, Progress.within, Progress.note]

/-- Leaving the section, and calling the action of its node. -/
theorem act (hroom : st.HasRoom) (h : Later source (st.within id) after) (label : Option String)
    (value : Value) : Later source st ((after.leave id).note
      (.applied id label value (after.leave id).guard.currentDepth)) := by
  obtain ⟨new, htrace, heq⟩ := h.events
  refine ⟨Progress.leave_guard h.guard, h.le_pos, h.pos_le, _,
    .acted id st.pos after.pos label value hroom htrace, ?_⟩
  show .applied id label value after.guard.leave.currentDepth ::
    .left id after.pos after.guard.leave.currentDepth :: after.events = _
  simp [h.guard, DepthGuard.leave, heq, Progress.within, Progress.note]

/-- What is on record stays on record. -/
theorem events_suffix (h : Later source st after) : st.events <:+ after.events := by
  obtain ⟨new, -, heq⟩ := h.events
  exact ⟨new.reverse, heq.symm⟩

end Later

/-! ## §4 Composites -/

theorem guarded_ends {body : Progress → Outcome × Progress} (h : ∀ st, Ends source st (body st))
    (id : NodeId) (st : Progress) : Ends source st (guarded id body st) := by
  by_cases hroom : st.HasRoom
  · rw [guarded_of_hasRoom hroom]
    exact ⟨(h _).toLater.leave hroom, (h (st.within id)).anchored⟩
  · rw [guarded_of_not_hasRoom hroom]
    exact ⟨.refl source st, nofun⟩

theorem attemptRange_ends (bounds : CharRange) (st : Progress) :
    Ends source st (attemptRange source bounds st) := by
  unfold attemptRange
  split
  · exact ⟨.refl source st, nofun⟩
  · next hlt =>
    split
    · exact ⟨.refl source st, nofun⟩
    · split
      · refine ⟨⟨rfl, ?_, ?_, [], .nil, rfl⟩, fun _ _ h => by cases h; rfl⟩
        · show st.pos ≤ st.pos + 1
          omega
        · show st.pos + 1 ≤ max st.pos source.length
          omega
      · exact ⟨.refl source st, nofun⟩

theorem attemptEnd_ends (st : Progress) : Ends source st (attemptEnd source st) := by
  unfold attemptEnd
  split
  · exact ⟨.refl source st, fun _ _ h => by cases h; rfl⟩
  · exact ⟨.refl source st, nofun⟩

theorem attemptAll_ends (hatt : Orderly source att) (ids : List NodeId) (values : List Value)
    (st : Progress) : Ends source st (attemptAll att ids values st) := by
  induction ids generalizing values st with
  | nil => exact ⟨.refl source st, fun _ _ h => by cases h; rfl⟩
  | cons id rest ih =>
    have hid := hatt id st
    unfold attemptAll
    split
    · next value pos after heq =>
      rw [heq] at hid
      have hrest := ih (value :: values) after
      exact ⟨hid.toLater.trans hrest.toLater, hrest.anchored⟩
    · exact hid

theorem attemptEither_ends (hatt : Orderly source att) (first second : NodeId) (st : Progress) :
    Ends source st (attemptEither att source first second st) := by
  have hfirst := hatt first st
  unfold attemptEither
  split
  · next after heq =>
    rw [heq] at hfirst
    split
    · exact ⟨hfirst.toLater, nofun⟩
    · next back hback =>
      have hsecond := hatt second back
      exact ⟨(hfirst.toLater.restore hback).trans hsecond.toLater, hsecond.anchored⟩
  · exact hfirst

theorem attemptMany_ends (hatt : Orderly source att) (id child : NodeId) (tries : Nat)
    (values : List Value) (st : Progress) :
    Ends source st (attemptMany att source id child tries values st) := by
  induction tries generalizing values st with
  | zero => exact ⟨.refl source st, fun _ _ h => by cases h; rfl⟩
  | succ tries ih =>
    have hchild := hatt child (st.note (.tried id st.pos st.guard.currentDepth))
    unfold attemptMany
    split
    · next heq =>
      rw [heq] at hchild
      exact ⟨(Later.tried source st id).trans hchild.toLater, nofun⟩
    · next heq =>
      rw [heq] at hchild
      have hafter := (Later.tried source st id).trans hchild.toLater
      split
      · exact ⟨hafter, nofun⟩
      · next hback => exact ⟨hafter.restore hback, fun _ _ h => by cases h; rfl⟩
    · next value _ after heq =>
      rw [heq] at hchild
      have hafter := (Later.tried source st id).trans hchild.toLater
      split
      · exact ⟨hafter, fun _ _ h => by cases h; rfl⟩
      · have hrest := ih (value :: values) after
        exact ⟨hafter.trans hrest.toLater, hrest.anchored⟩

/-- An action is called after the section of its node was left. -/
theorem applyAction_ends (hatt : Orderly source att) (id child : NodeId) (act : Action)
    (st : Progress) : Ends source st (applyAction cx id act (guarded id (att child) st)) := by
  by_cases hroom : st.HasRoom
  · have hchild := hatt child (st.within id)
    rw [guarded_of_hasRoom hroom]
    generalize att child (st.within id) = r at hchild
    obtain ⟨outcome, after⟩ := r
    cases outcome with
    | matched value pos =>
      have hpos : after.pos = pos := hchild.anchored value pos rfl
      have hact := hchild.toLater.act hroom act.label? value
      unfold applyAction
      simp only
      split
      · exact ⟨hact, fun _ _ h => by cases h; exact hpos⟩
      · exact ⟨hact, nofun⟩
    | noMatch | failed => exact ⟨hchild.toLater.leave hroom, nofun⟩
  · rw [guarded_of_not_hasRoom hroom]
    exact ⟨.refl source st, nofun⟩

/-! ## §5 Attempts -/

theorem attemptActor_ends (hatt : Orderly cx.source att) (n : NodeId) (st : Progress) :
    Ends cx.source st (attemptActor cx att n st) := by
  unfold attemptActor
  split
  · exact ⟨.refl cx.source st, nofun⟩
  · exact attemptRange_ends _ st
  · exact guarded_ends (attemptAll_ends hatt _ _) n st
  · exact guarded_ends (attemptEither_ends hatt _ _) n st
  · exact guarded_ends (fun st => attemptMany_ends hatt _ _ _ _ st) n st
  · exact applyAction_ends hatt n _ _ st
  · exact attemptEnd_ends st
  · exact ⟨.refl cx.source st, nofun⟩

theorem attemptNode_ends (hatt : Orderly cx.source att) :
    Orderly cx.source (attemptNode cx att) := by
  intro n st
  unfold attemptNode
  split
  · exact ⟨.refl cx.source st, nofun⟩
  · exact attemptActor_ends hatt _ st

/-- Every attempt ends in good order: sections left, no step back, and where it
has matched the cursor at the end of the match. -/
theorem attempt_ends (cx : Setting) (levels : Nat) : Orderly cx.source (attempt cx levels) := by
  induction levels with
  | zero => exact attemptNode_ends fun _ st => ⟨.refl cx.source st, nofun⟩
  | succ levels ih => exact attemptNode_ends ih

/-- Ways of trying nodes that leave the guard as they found it. -/
def Balanced (att : Attempt) : Prop := ∀ n st, (att n st).2.guard = st.guard

/-- Every section that is entered is left again, whatever the outcome. -/
theorem attempt_balanced (levels : Nat) : Balanced (attempt cx levels) :=
  fun n st => (attempt_ends cx levels n st).guard

end Parse

end PegGraph
