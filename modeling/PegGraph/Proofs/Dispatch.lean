/-
PegGraph.Proofs.Dispatch — all the trials of a parse, one inside another.

  §1 Levels  — levels that cover the headroom are never missed, so an attempt that
               has them satisfies the recursion of the engine as it stands.
  §2 Covers  — trials inside trials: where they start and what they mean for the
               trial around them.
  §3 Moments — the progress of a parse while it goes on.
  §4 Origins — every fault comes from one trial.

From here on neither levels nor headroom need be counted: each section takes one level
of the headroom, so there is an induction from the trials that a trial makes to the
trial itself (`Trial.induct`).
-/
import PegGraph.Proofs.Shift
import PegGraph.Proofs.Splice

namespace PegGraph.Parse

open Relation (ReflTransGen TransGen)

variable {cx : Setting} {att : Attempt} {t u : Trial} {st : Progress} {fault : Fault}

/-! ## §1 Levels -/

/-- An attempt with levels for all the headroom of the guard. -/
def attemptFull (cx : Setting) : Attempt := fun n st => attempt cx st.guard.headroom n st

theorem run_eq (cx : Setting) (root : NodeId) (pos : Int) (guard : DepthGuard) :
    run cx root pos guard = Trial.result (attemptFull cx) ⟨root, { pos, guard, events := [] }⟩ :=
  rfl

theorem run_ends (cx : Setting) (root : NodeId) (pos : Int) (guard : DepthGuard) :
    Ends cx.source { pos, guard, events := [] } (run cx root pos guard) :=
  attempt_ends cx guard.headroom root _

theorem attemptFull_orderly (cx : Setting) : Orderly cx.source (attemptFull cx) :=
  fun n st => attempt_ends cx st.guard.headroom n st

/-- **Levels are never missed**: the attempt tries children by itself. -/
theorem attemptFull_eq (cx : Setting) (n : NodeId) (st : Progress) :
    attemptFull cx n st = attemptNode cx (attemptFull cx) n st := by
  -- It is enough that another attempt does the same one level down, where the trials are.
  have hcongr : ∀ att, Orderly cx.source att →
      (∀ u : Trial, st.guard.headroom = u.start.guard.headroom + 1 →
        u.result (attemptFull cx) = u.result att) →
      attemptNode cx att n st = attemptNode cx (attemptFull cx) n st := by
    intro att hatt h
    unfold attemptNode
    split
    · rfl
    · next actor _ =>
      exact (attemptActor_congr_tries (t := ⟨actor, st⟩) hatt fun u hu =>
        h u (hu.headroom hatt)).symm
  show attempt cx st.guard.headroom n st = _
  cases hroom : st.guard.headroom with
  | zero =>
    refine hcongr _ (fun _ st => ⟨.refl cx.source st, nofun⟩) fun u hu => ?_
    omega
  | succ levels =>
    refine hcongr _ (attempt_ends cx levels) fun u hu => ?_
    have hlevels : u.start.guard.headroom = levels := by omega
    show attempt cx u.start.guard.headroom u.node u.start = _
    rw [hlevels]
    rfl

theorem result_eq (hm : cx.mode = .reject) (t : Trial) :
    t.result (attemptFull cx) = t.result (attemptActor cx (attemptFull cx)) := by
  show attemptFull cx t.node t.start = _
  rw [attemptFull_eq, attemptNode_reject hm]
  rfl

/-- What holds of a trial if it holds of those that the trial makes, holds of all. -/
theorem Trial.induct (cx : Setting) {motive : Trial → Prop}
    (step : ∀ t, (∀ u, Tries cx (attemptFull cx) t u → motive u) → motive t) (t : Trial) :
    motive t := by
  induction hroom : t.start.guard.headroom using Nat.strongRecOn generalizing t with
  | ind room ih =>
    refine step t fun u hu => ih u.start.guard.headroom ?_ u rfl
    have hlevel := hu.headroom (attemptFull_orderly cx)
    omega

/-! ## §2 Covers -/

/-- A trial and all those inside it, however deep. -/
abbrev Covers (cx : Setting) : Trial → Trial → Prop := ReflTransGen (Tries cx (attemptFull cx))

/-- The trials inside a trial: while they go on, it has not ended. -/
abbrev Encloses (cx : Setting) : Trial → Trial → Prop := TransGen (Tries cx (attemptFull cx))

theorem Proceeds.mem {id : NodeId} {ids rest : List NodeId} {last : Progress}
    (h : Proceeds att ids st (id :: rest) last) : id ∈ ids := by
  generalize hl : id :: rest = l at h
  induction h with
  | done => exact hl ▸ List.mem_cons_self
  | next _ _ ih => exact List.mem_cons_of_mem _ (ih hl)

/-- A trial makes trials of the nodes that its node links to. -/
theorem Tries.linked (h : Tries cx att t u) : cx.grammar.Linked t.node u.node := by
  cases h with
  | sequence hnode _ h => exact Grammar.linked_of_node hnode h.mem
  | first hnode => exact Grammar.linked_of_node hnode List.mem_cons_self
  | second hnode => exact Grammar.linked_of_node hnode (List.mem_cons_of_mem _ List.mem_cons_self)
  | again hnode => exact Grammar.linked_of_node hnode (List.mem_singleton_self _)
  | action hnode => exact Grammar.linked_of_node hnode (List.mem_singleton_self _)

namespace Covers

theorem reaches (h : Covers cx t u) : cx.grammar.Reaches t.node u.node := by
  induction h with
  | refl => exact .refl
  | tail _ hu ih => exact ih.tail hu.linked

/-- No trial starts before the one around it, or past the end of the source. -/
theorem pos (h : Covers cx t u) :
    t.start.pos ≤ u.start.pos ∧ u.start.pos ≤ max t.start.pos cx.source.length := by
  induction h with
  | refl => exact ⟨Int.le_refl _, Int.le_max_left _ _⟩
  | @tail v w _ hw ih =>
    have hlater := hw.later (attemptFull_orderly cx)
    have hlow : v.start.pos ≤ w.start.pos := hlater.le_pos
    have hhigh : w.start.pos ≤ max v.start.pos cx.source.length := hlater.pos_le
    omega

/-- Each section around a trial takes a level, and none is entered at the limit. -/
theorem depth (h : Covers cx t u) : u.start.guard.maxDepth = t.start.guard.maxDepth ∧
    t.start.guard.currentDepth ≤ u.start.guard.currentDepth ∧
    (u.start.guard.currentDepth ≤ t.start.guard.currentDepth ∨
      u.start.guard.currentDepth ≤ t.start.guard.maxDepth) := by
  induction h with
  | refl => exact ⟨rfl, Int.le_refl _, .inl (Int.le_refl _)⟩
  | @tail v w _ hw ih =>
    obtain ⟨hlimit, hlow, -⟩ := ih
    have hguard := hw.guard_eq (attemptFull_orderly cx)
    have hroom := hw.hasRoom
    unfold Progress.HasRoom at hroom
    simp only [hguard]
    omega

/-- A fault of a trial is a fault of every trial around it, and what it has put on
record stays there. -/
theorem partOf (hm : cx.mode = .reject) (h : Covers cx t u) :
    PartOf (u.result (attemptFull cx)) (t.result (attemptFull cx)) := by
  induction h with
  | refl => exact .refl _
  | @tail v _ _ hw ih =>
    have hpart := hw.partOf (attemptFull_orderly cx)
    rw [← result_eq hm] at hpart
    exact hpart.trans ih

end Covers

namespace Encloses

theorem headroom_lt (h : Encloses cx t u) : u.start.guard.headroom < t.start.guard.headroom := by
  induction h with
  | single hu => exact Nat.lt_of_succ_le (hu.headroom (attemptFull_orderly cx)).ge
  | tail _ hu ih => exact (Nat.lt_of_succ_le (hu.headroom (attemptFull_orderly cx)).ge).trans ih

/-- What is around a trial is on record when it starts. -/
theorem events_length (h : Encloses cx t u) :
    t.start.events.length < u.start.events.length := by
  induction h with
  | single hu => exact hu.events_length (attemptFull_orderly cx)
  | tail _ hu ih => exact ih.trans (hu.events_length (attemptFull_orderly cx))

end Encloses

/-! ## §3 Moments -/

/-- The progress of a trial while it goes on: where it or a trial inside it starts,
is inside its section, has ended, or has not matched and is gone back from. -/
inductive Moment (cx : Setting) (t : Trial) : Progress → Prop
  | start {u : Trial} (h : Covers cx t u) : Moment cx t u.start
  | inside {u : Trial} (h : Covers cx t u) (hc : (cx.grammar.node u.node).isComposite = true)
      (hroom : u.start.HasRoom) : Moment cx t u.inside
  | finish {u : Trial} (h : Covers cx t u) : Moment cx t (u.result (attemptFull cx)).2
  | back {u : Trial} (h : Covers cx t u) (hout : (u.result (attemptFull cx)).1 = .noMatch) :
    Moment cx t { (u.result (attemptFull cx)).2 with pos := u.start.pos }

namespace Moment

/-- The cursor is never before the start, and past the end only if it was there. -/
theorem pos (h : Moment cx t st) :
    t.start.pos ≤ st.pos ∧ st.pos ≤ max t.start.pos cx.source.length := by
  cases h with
  | start h | inside h | back h => exact h.pos
  | @finish u h =>
    obtain ⟨hlow, hhigh⟩ := h.pos
    have hends := attemptFull_orderly cx u.node u.start
    have hlow' : u.start.pos ≤ (u.result (attemptFull cx)).2.pos := hends.le_pos
    have hhigh' : (u.result (attemptFull cx)).2.pos ≤ max u.start.pos cx.source.length :=
      hends.pos_le
    omega

/-- The guard keeps its limit, and never shows more than that if it did not do so
before. -/
theorem depth (hstart : t.start.guard.currentDepth ≤ t.start.guard.maxDepth)
    (h : Moment cx t st) : st.guard.maxDepth = t.start.guard.maxDepth ∧
      t.start.guard.currentDepth ≤ st.guard.currentDepth ∧
      st.guard.currentDepth ≤ t.start.guard.maxDepth := by
  cases h with
  | start h =>
    obtain ⟨hlimit, hlow, hhigh⟩ := h.depth
    omega
  | @inside u h _ hroom =>
    obtain ⟨hlimit, hlow, -⟩ := h.depth
    unfold Progress.HasRoom at hroom
    show u.start.guard.maxDepth = _ ∧ _ ≤ u.start.guard.currentDepth + 1 ∧
      u.start.guard.currentDepth + 1 ≤ _
    omega
  | @finish u h | @back u h =>
    obtain ⟨hlimit, hlow, hhigh⟩ := h.depth
    have hguard : (u.result (attemptFull cx)).2.guard = u.start.guard :=
      (attemptFull_orderly cx u.node u.start).guard
    simp only [hguard]
    omega

end Moment

/-! ## §4 Origins -/

/-- **Every fault has an origin**: a trial whose own fault it is. -/
theorem exists_fails (hm : cx.mode = .reject)
    (h : (t.result (attemptFull cx)).1 = .failed fault) :
    ∃ u, Covers cx t u ∧ Fails cx (attemptFull cx) u fault := by
  induction t using Trial.induct cx with
  | step t ih =>
    rw [result_eq hm] at h
    rcases failed_cases h with ⟨u, hu, hfail⟩ | hfails
    · obtain ⟨v, hv, hfails⟩ := ih u hu hfail
      exact ⟨v, .head hu hv, hfails⟩
    · exact ⟨t, .refl, hfails⟩

end PegGraph.Parse
