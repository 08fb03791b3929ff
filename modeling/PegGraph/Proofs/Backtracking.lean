/-
PegGraph.Proofs.Backtracking — the parse that moves a cursor, against matchers
that are given their position.

  §1 Agreement  — when an attempt does what a matcher says.
  §2 Leaves     — ranges and the end of the source.
  §3 Children   — one lemma for each way of trying children.
  §4 Nodes      — a node, with and without headroom.
  §5 Parses     — `run_eq_eval`, by induction on the levels.

A failed sequence leaves the cursor where its failing child left it. So agreement
says nothing at all of the cursor after no match: whoever goes on from there has
to put it back first, and the proofs of choice and repetition show that both
do. After a match the cursor stands where the matcher says that the match ends.
-/
import PegGraph.Proofs.Peg
import PegGraph.Proofs.Splice
import PegGraph.Proofs.Trace

namespace PegGraph.Parse

open Peg (Answer Matcher)

/-! ## §1 Agreement -/

/-- An attempt that started at `p` ended as an answer says. -/
inductive Agrees (source : Source) (p : Nat) : Outcome × Progress → Answer Value → Prop where
  /-- The cursor is at the end of the match, inside the source. -/
  | matched {value} {q : Nat} {st : Progress} (hpos : st.pos = q) (hle : p ≤ q)
      (hin : q ≤ source.length) : Agrees source p (.matched value q, st) (.matched value q)
  /-- The cursor may be anywhere. -/
  | noMatch {st} : Agrees source p (.noMatch, st) .noMatch
  | failed {fault st} : Agrees source p (.failed fault, st) (.failed fault)

/-- An attempt does what a matcher says, from every position of the source, when
the guard is in a given state. -/
def Follows (source : Source) (guard : DepthGuard) (a : Progress → Outcome × Progress)
    (m : Matcher Value) : Prop :=
  ∀ (st : Progress) (p : Nat), p ≤ source.length → st.pos = p → st.guard = guard →
    Agrees source p (a st) (m p)

variable {cx : Setting} {att : Attempt} {source : Source} {guard inside : DepthGuard} {p q : Nat}
  {child : NodeId → Matcher Value} {n : NodeId}

theorem Agrees.mono {r : Outcome × Progress} {a : Answer Value} (h : Agrees source q r a)
    (hpq : p ≤ q) : Agrees source p r a := by
  cases h with
  | matched hpos hle hin => exact .matched hpos (hpq.trans hle) hin
  | noMatch => exact .noMatch
  | failed => exact .failed

theorem Agrees.outcome_eq {r : Outcome × Progress} {a : Answer Value} (h : Agrees source p r a) :
    r.1 = a.outcome := by
  cases h <;> rfl

/-- Where the cursor was, there it can go back to. -/
theorem restore_eq (st : Progress) (hp : p ≤ source.length) :
    st.restore source p = .ok { st with pos := p } := by
  have hcheck : Cursor.checkPosition source p = .ok () :=
    Cursor.checkPosition_eq_ok.2 ⟨by omega, by omega⟩
  unfold Progress.restore
  rw [hcheck]

/-! ## §2 Leaves -/

theorem follows_range (bounds : CharRange) :
    Follows source guard (attemptRange source bounds) (Peg.character source bounds) := by
  intro st p hp hpos _
  unfold attemptRange Peg.character
  by_cases hlt : p < source.chars.size
  · have hget : source.chars[p]? = some source.chars[p] := Array.getElem?_eq_getElem hlt
    have hnot : ¬ st.pos ≥ source.length := by
      rw [hpos]
      exact Int.not_le.2 (Int.ofNat_lt.2 hlt)
    rw [if_neg hnot, hpos, Source.read_natCast source hlt, hget]
    simp only
    split
    · exact .matched rfl (Nat.le_succ p) hlt
    · exact .noMatch
  · have hge : st.pos ≥ source.length := by
      rw [hpos]
      exact Int.ofNat_le.2 (Nat.le_of_not_lt hlt)
    rw [if_pos hge, Array.getElem?_eq_none (Nat.le_of_not_lt hlt)]
    exact .noMatch

theorem follows_end : Follows source guard (attemptEnd source) (Peg.atEnd source) := by
  intro st p hp hpos _
  unfold attemptEnd Peg.atEnd
  by_cases heq : p = source.length
  · have hge : st.pos ≥ source.length := by omega
    rw [if_pos hge, if_pos heq, hpos]
    exact .matched hpos (Nat.le_refl p) hp
  · have hnot : ¬ st.pos ≥ source.length := by omega
    rw [if_neg hnot, if_neg heq]
    exact .noMatch

/-! ## §3 Children -/

/-- A section that is entered changes the guard inside it, and nothing else. -/
theorem follows_guarded {body : Progress → Outcome × Progress} {m : Matcher Value}
    (hin : guard.enter = .ok inside) (hbody : Follows source inside body m) (id : NodeId) :
    Follows source guard (guarded id body) m := by
  intro st p hp hpos hg
  have hagree := hbody ({ st with guard := inside }.note (.entered id st.pos inside.currentDepth)) p
    hp hpos rfl
  unfold guarded Progress.enter
  rw [hg, hin]
  simp only
  generalize body _ = r at hagree
  generalize m p = a at hagree
  cases hagree with
  | matched hpos hle hin => exact .matched hpos hle hin
  | noMatch => exact .noMatch
  | failed => exact .failed

/-- In order: each child starts where the one before it ended. -/
theorem agrees_all (hatt : Balanced att) (ids : List NodeId)
    (h : ∀ l ∈ ids, Follows source guard (att l) (child l)) (values : List Value) (st : Progress)
    (hp : p ≤ source.length) (hpos : st.pos = p) (hg : st.guard = guard) :
    Agrees source p (attemptAll att ids values st)
      ((Peg.inOrder (ids.map child) p).map fun rest => .tuple (values.reverse ++ rest)) := by
  induction ids generalizing values st p with
  | nil =>
    rw [attemptAll, hpos, List.map_nil, Peg.inOrder, Answer.map, Answer.andThen, List.append_nil]
    exact .matched hpos (Nat.le_refl p) hp
  | cons id rest ih =>
    have hid := h id List.mem_cons_self st p hp hpos hg
    have hguard := hatt id st
    rw [attemptAll, List.map_cons, Peg.inOrder]
    generalize att id st = r at hid hguard
    generalize child id p = a at hid
    cases hid with
    | @matched value q after hpos' hle hin =>
      have hrest := ih (fun l hl => h l (List.mem_cons_of_mem id hl)) (value :: values) after hin
        hpos' (hguard.trans hg)
      rw [List.reverse_cons] at hrest
      simp only [Answer.andThen, Answer.map_map]
      simp only [List.append_assoc, List.singleton_append] at hrest
      exact hrest.mono hle
    | noMatch => exact .noMatch
    | failed => exact .failed

/-- Ordered choice: the second child starts where the first one did. -/
theorem follows_either (hatt : Balanced att) {first second : NodeId}
    (hfirst : Follows source guard (att first) (child first))
    (hsecond : Follows source guard (att second) (child second)) :
    Follows source guard (attemptEither att source first second)
      (Peg.either (child first) (child second)) := by
  intro st p hp hpos hg
  have hone := hfirst st p hp hpos hg
  have hguard := hatt first st
  unfold attemptEither Peg.either
  generalize att first st = r at hone hguard
  generalize child first p = a at hone
  cases hone with
  | matched hpos' hle hin => exact .matched hpos' hle hin
  | @noMatch after =>
    simp only [hpos, restore_eq after hp]
    exact hsecond { after with pos := p } p hp rfl (hguard.trans hg)
  | failed => exact .failed

/-- Repetition: each try but the last consumes something, so the tries outlast
the source. -/
theorem agrees_many (hatt : Balanced att) {c : NodeId} (h : Follows source guard (att c) (child c))
    (id : NodeId) (tries : Nat) (values : List Value) (st : Progress)
    (htries : source.length - p < tries) (hp : p ≤ source.length) (hpos : st.pos = p)
    (hg : st.guard = guard) :
    Agrees source p (attemptMany att source id c tries values st)
      ((Peg.many source.length (child c) p).map fun rest => .tuple (values.reverse ++ rest)) := by
  induction tries generalizing values st p with
  | zero => omega
  | succ tries ih =>
    have htry := h (st.note (.tried id st.pos st.guard.currentDepth)) p hp hpos hg
    have hguard := hatt c (st.note (.tried id st.pos st.guard.currentDepth))
    rw [attemptMany]
    generalize att c _ = r at htry hguard
    generalize ha : child c p = a at htry
    cases htry with
    | @matched value q after hpos' hle hin =>
      by_cases hq : q = p
      · subst hq
        rw [Peg.many_of_empty ha]
        simp only [hpos', hpos, if_true, Answer.map, Answer.andThen, List.append_nil]
        exact .matched hpos' hle hin
      · have hne : after.pos ≠ st.pos := by omega
        have hrest := ih (value :: values) after (by omega) hin hpos' (hguard.trans hg)
        rw [Peg.many_of_more ha (by omega) hin, Answer.map_map]
        simp only [hne, if_false]
        simp only [List.reverse_cons, List.append_assoc, List.singleton_append] at hrest
        exact hrest.mono hle
    | @noMatch after =>
      rw [Peg.many_of_noMatch ha]
      simp only [hpos, restore_eq after hp, Answer.map, Answer.andThen, List.append_nil]
      exact .matched rfl (Nat.le_refl p) hp
    | failed =>
      rw [Peg.many_of_failed ha]
      exact .failed

/-- An action is called where its child has matched. At which depth it is called
makes no difference to one that reads no guard. -/
theorem agrees_action {act : Action} {r : Outcome × Progress} {m : Matcher Value}
    (hpure : act.isPure = true) (h : Agrees source p r (m p)) (id : NodeId) :
    Agrees source p (applyAction cx id act r) (Peg.acting (act.apply fun _ => none) m p) := by
  unfold Peg.acting
  generalize m p = answer at h
  cases h with
  | @matched value q after hpos hle hin =>
    simp only [applyAction, Answer.andThen]
    rw [act.apply_of_isPure hpure _ fun _ => none]
    cases act.apply (fun _ => none) value with
    | ok result => exact .matched hpos hle hin
    | error fault => exact .failed
  | noMatch => exact .noMatch
  | failed => exact .failed

/-! ## §4 Nodes -/

/-- A node that enters no section does not ask the guard. -/
theorem follows_leaf (hc : (cx.grammar.node n).isComposite = false) :
    Follows cx.source guard (attemptActor cx att n)
      (Peg.evalNode cx.source child n (cx.grammar.node n)) := by
  intro st p hp hpos hg
  unfold attemptActor
  cases hn : cx.grammar.node n with
  | abstract | reference => exact .failed
  | range bounds => exact follows_range bounds st p hp hpos hg
  | endOfInput => exact follows_end st p hp hpos hg
  | sequence | choice | repetition | action => rw [hn] at hc; cases hc

/-- Without headroom every composite exceeds the limit, whatever its children
would do. -/
theorem follows_full (h : guard.headroom = 0) :
    Follows cx.source guard (attemptActor cx att n)
      (Peg.eval cx.grammar cx.source guard.maxDepth 0 n) := by
  unfold Peg.eval
  cases hc : (cx.grammar.node n).isComposite with
  | false => exact follows_leaf hc
  | true =>
    intro st p _ _ hg
    subst hg
    have hfull : ¬ st.HasRoom := by
      rw [Progress.hasRoom_iff, h]
      exact Nat.lt_irrefl 0
    unfold attemptActor
    cases hn : cx.grammar.node n with
    | sequence | choice | repetition | action =>
      simp only [guarded_of_not_hasRoom hfull, applyAction]
      exact .failed
    | abstract | range | endOfInput | reference => rw [hn] at hc; cases hc

/-- With headroom, a node does what its matcher says if its children do, one
level down. -/
theorem follows_node (hatt : Balanced att) (hin : guard.enter = .ok inside)
    (hpure : (cx.grammar.node n).isPure = true)
    (h : ∀ l ∈ cx.grammar.links n, Follows cx.source inside (att l) (child l)) :
    Follows cx.source guard (attemptActor cx att n)
      (Peg.evalNode cx.source child n (cx.grammar.node n)) := by
  cases hc : (cx.grammar.node n).isComposite with
  | false => exact follows_leaf hc
  | true =>
    unfold Grammar.links at h
    intro st p hp hpos hg
    unfold attemptActor
    cases hn : cx.grammar.node n with
    | sequence ids =>
      rw [hn] at h
      refine follows_guarded hin (fun st p hp hpos hg => ?_) n st p hp hpos hg
      exact agrees_all hatt ids h [] st hp hpos hg
    | choice first second =>
      rw [hn] at h
      have hfirst := h first List.mem_cons_self
      have hsecond := h second (List.mem_cons_of_mem first List.mem_cons_self)
      exact follows_guarded hin (follows_either hatt hfirst hsecond) n st p hp hpos hg
    | repetition c =>
      rw [hn] at h
      refine follows_guarded hin (fun st p hp hpos hg => ?_) n st p hp hpos hg
      have htries : cx.source.length - p < st.remaining cx.source + 1 := by
        unfold Progress.remaining
        omega
      exact agrees_many hatt (h c (List.mem_singleton_self c)) n _ [] st htries hp hpos hg
    | action c act =>
      rw [hn] at h hpure
      have hchild := follows_guarded hin (h c (List.mem_singleton_self c)) n
      exact agrees_action hpure (hchild st p hp hpos hg) n
    | abstract | range | endOfInput | reference => rw [hn] at hc; cases hc

/-! ## §5 Parses -/

/-- **Attempts follow matchers**: levels that cover the headroom of the guard
are as good as any. -/
theorem follows_attempt (cx : Setting) (hm : cx.mode = .reject) (levels : Nat) (guard : DepthGuard)
    (hl : guard.headroom ≤ levels) (hpure : cx.grammar.ActsPurely n) :
    Follows cx.source guard (attempt cx levels n)
      (Peg.eval cx.grammar cx.source guard.maxDepth guard.headroom n) := by
  induction levels generalizing guard n with
  | zero =>
    have hfull : guard.headroom = 0 := Nat.le_zero.1 hl
    rw [attempt, attemptNode_reject hm, hfull]
    exact follows_full hfull
  | succ levels ih =>
    rw [attempt, attemptNode_reject hm]
    cases hin : guard.enter with
    | error fault =>
      have hfull : guard.headroom = 0 := by
        apply Nat.eq_zero_of_not_pos
        intro hpos
        obtain ⟨_, hok⟩ := guard.enter_ok_iff.2 hpos
        rw [hin] at hok
        cases hok
      rw [hfull]
      exact follows_full hfull
    | ok inside =>
      have hroom := DepthGuard.headroom_of_enter hin
      have hlimit := DepthGuard.maxDepth_of_enter hin
      rw [hroom, Peg.eval, ← hlimit]
      refine follows_node (attempt_balanced levels) hin (hpure n .refl) fun l hmem => ?_
      exact ih inside (by omega) (hpure.of_linked hmem)

/-- **Backtracking leaves no trace**: a parse ends as the matcher of its root
says, which never saw a cursor. -/
theorem run_eq_eval {g : Grammar} {n : NodeId} (hpure : g.ActsPurely n) (source : Source)
    (readDepth : Int → String → Option Int) (guard : DepthGuard) {p : Nat}
    (hp : p ≤ source.length) :
    (run ⟨g, source, .reject, readDepth⟩ n p guard).1 =
      (Peg.eval g source guard.maxDepth guard.headroom n p).outcome := by
  have hagree := follows_attempt ⟨g, source, .reject, readDepth⟩ rfl guard.headroom guard
    (Nat.le_refl _) hpure { pos := p, guard, events := [] } p hp rfl rfl
  exact hagree.outcome_eq

/-- As many `a` as `b` in nested pairs, or else a run of `a`, counted by the
node 5. -/
def pairs : Grammar :=
  ⟨#[.choice 1 4 false, .sequence [2, 0, 3] false, .range (.single 'a'), .range (.single 'b'),
    .repetition 2 false, .action 0 .count false]⟩

/-- The outer pair is given up after the inner one has matched, and with it the
`b` that was consumed. -/
theorem run_eq_eval_pairs :
    pairs.ActsPurely 5 ∧ 0 ≤ (Source.ofString "aab").length ∧
      (run ⟨pairs, .ofString "aab", .reject, fun _ _ => none⟩ 5 (0 : Nat) ⟨9, 0⟩).1 =
        (Peg.eval pairs (.ofString "aab") 9 9 5 0).outcome ∧
      (run ⟨pairs, .ofString "aab", .reject, fun _ _ => none⟩ 5 (0 : Nat) ⟨9, 0⟩).2.pos = 2 := by
  have hpure : pairs.ActsPurely 5 := by
    intro m hr
    have hall : ∀ k ∈ [5, 0, 1, 4, 2, 3], (pairs.node k).isPure = true := by decide
    exact hall m (hr.mem_of_closed (by decide) (by decide))
  have heq := run_eq_eval hpure (.ofString "aab") (fun _ _ => none) ⟨9, 0⟩ (Nat.zero_le _)
  exact ⟨hpure, Nat.zero_le _, heq, by decide +kernel⟩

end PegGraph.Parse
