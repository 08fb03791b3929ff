/-
PegGraph.Proofs.Choice — ordered choice between many alternatives.

  §1 Nests    — nodes of choices that come down to a list of alternatives.
  §2 Branches — the trial of an alternative, by the way that leads to it.
  §3 Turns    — the alternatives of a nest are tried in turn.
  §4 Outcomes — the first alternative that matches or fails.
  §5 Building — nests to the right and to the left.
  §6 Parses   — `run_oneOf_orChain`.

A nest is any tree of choices, and §3 is an induction on it: whatever a choice puts
before or behind the alternatives of a nest, it takes one level of the headroom from
each of them and leaves them where they start, because a choice goes back before it
tries its second child. How an alternative that fails has moved the cursor is seen
nowhere else. So all that depends on how the tree was built is the number of choices
around each alternative.
-/
import PegGraph.Proofs.Headroom
import PegGraph.Proofs.Layout

namespace PegGraph

/-! ## §1 Nests -/

/-- A child of a choice. -/
inductive Side where
  | first
  | second

/-- The child of a choice on a side. -/
def Side.pick (a b : NodeId) : Side → NodeId
  | .first => a
  | .second => b

/-- A node that choices come down to, and the way there: which child to take at each
choice around it, the outermost first. -/
structure Alternative where
  route : List Side
  node : NodeId

namespace Alternative

/-- An alternative with one more choice around it. -/
def under (side : Side) (a : Alternative) : Alternative := ⟨side :: a.route, a.node⟩

/-- The alternatives of choices nested to the right. -/
def toRight : NodeId → List NodeId → List Alternative
  | p, [] => [⟨[], p⟩]
  | p, q :: rest => ⟨[.first], p⟩ :: (toRight q rest).map (under .second)

/-- A choice between given alternatives and one more node. -/
def orElse (alternatives : List Alternative) (q : NodeId) : List Alternative :=
  alternatives.map (under .first) ++ [⟨[.second], q⟩]

/-- The alternatives of choices nested to the left. -/
def toLeft (p : NodeId) (rest : List NodeId) : List Alternative := rest.foldl orElse [⟨[], p⟩]

theorem toLeft_concat (p q : NodeId) (rest : List NodeId) :
    toLeft p (rest ++ [q]) = (toLeft p rest).map (under .first) ++ [⟨[.second], q⟩] :=
  List.foldl_concat ..

theorem map_node_under (side : Side) (alternatives : List Alternative) :
    (alternatives.map (under side)).map node = alternatives.map node := by
  rw [List.map_map]
  rfl

theorem mem_map_under {side side' : Side} {route : List Side} {p : NodeId}
    {alternatives : List Alternative} :
    ⟨side :: route, p⟩ ∈ alternatives.map (under side') ↔
      side = side' ∧ ⟨route, p⟩ ∈ alternatives := by
  rw [List.mem_map]
  constructor
  · rintro ⟨a, ha, ⟨⟩⟩
    exact ⟨rfl, ha⟩
  · rintro ⟨rfl, ha⟩
    exact ⟨_, ha, rfl⟩

theorem map_node_toRight (p : NodeId) (rest : List NodeId) :
    (toRight p rest).map node = p :: rest := by
  induction rest generalizing p with
  | nil => rfl
  | cons q rest ih => rw [toRight, List.map_cons, map_node_under, ih]

theorem map_node_toLeft (p : NodeId) (rest : List NodeId) :
    (toLeft p rest).map node = p :: rest := by
  induction rest using List.reverseRecOn with
  | nil => rfl
  | append_singleton rest q ih =>
    rw [toLeft_concat, List.map_append, map_node_under, ih]
    rfl

/-- To the right there is one choice around the first alternative, and one more around
each that follows, but for the last. -/
theorem getElem?_toRight {p q : NodeId} {rest : List NodeId} {i : Nat}
    (h : (p :: rest)[i]? = some q) :
    ∃ route, (toRight p rest)[i]? = some ⟨route, q⟩ ∧
      route.length = min rest.length (i + 1) := by
  induction rest generalizing p i with
  | nil =>
    obtain ⟨rfl, rfl⟩ : i = 0 ∧ p = q := by simpa [List.getElem?_cons] using h
    exact ⟨[], rfl, rfl⟩
  | cons r rest ih =>
    cases i with
    | zero =>
      cases h
      exact ⟨[.first], rfl, by simp⟩
    | succ i =>
      obtain ⟨route, hget, hlength⟩ := ih h
      refine ⟨.second :: route, ?_, ?_⟩
      · rw [toRight, List.getElem?_cons_succ, List.getElem?_map, hget]
        rfl
      · simp only [List.length_cons, hlength]
        omega

/-- To the left there is one choice around the last alternative, and one more around
each that comes before, but for the first. -/
theorem getElem?_toLeft {p q : NodeId} {rest : List NodeId} {i : Nat}
    (h : (p :: rest)[i]? = some q) :
    ∃ route, (toLeft p rest)[i]? = some ⟨route, q⟩ ∧
      route.length = min rest.length (rest.length + 1 - i) := by
  induction rest using List.reverseRecOn with
  | nil =>
    obtain ⟨rfl, rfl⟩ : i = 0 ∧ p = q := by simpa [List.getElem?_cons] using h
    exact ⟨[], rfl, rfl⟩
  | append_singleton rest r ih =>
    have hlength : (toLeft p rest).length = rest.length + 1 := by
      rw [← List.length_map (f := node), map_node_toLeft, List.length_cons]
    rw [toLeft_concat]
    rw [← List.cons_append] at h
    by_cases hi : i < rest.length + 1
    · rw [List.getElem?_append_left (by simpa using hi)] at h
      obtain ⟨route, hget, hroute⟩ := ih h
      refine ⟨.first :: route, ?_, ?_⟩
      · rw [List.getElem?_append_left (by simpa [hlength] using hi), List.getElem?_map, hget]
        rfl
      · simp only [List.length_cons, List.length_append, List.length_nil, hroute]
        omega
    · obtain ⟨hlast, -⟩ := List.getElem?_eq_some_iff.1 h
      obtain rfl : i = rest.length + 1 := by
        simp only [List.length_append, List.length_cons, List.length_nil] at hlast
        omega
      obtain rfl : r = q := by simpa using h
      exact ⟨[.second], by simp [hlength], by simp⟩

end Alternative

namespace Grammar

/-- A node is a tree of choices that comes down to the given alternatives, from left to
right. -/
inductive Nests (g : Grammar) : NodeId → List Alternative → Prop where
  | alternative (p : NodeId) : Nests g p [⟨[], p⟩]
  | choice {id a b : NodeId} {mark : Bool} {before behind : List Alternative}
    (hnode : g.node id = .choice a b mark) (ha : Nests g a before) (hb : Nests g b behind) :
    Nests g id (before.map (.under .first) ++ behind.map (.under .second))

variable {g g' : Grammar} {id : NodeId} {alternatives : List Alternative}

/-- Some alternative comes first. -/
theorem Nests.exists_cons (h : g.Nests id alternatives) :
    ∃ a rest, alternatives = a :: rest := by
  induction h with
  | alternative p => exact ⟨_, [], rfl⟩
  | choice _ _ _ iha _ =>
    obtain ⟨a, rest, rfl⟩ := iha
    exact ⟨_, _, rfl⟩

/-- No way at all leads to the node itself. -/
theorem Nests.eq_of_mem_nil {p : NodeId} (h : g.Nests id alternatives)
    (hmem : ⟨[], p⟩ ∈ alternatives) : id = p := by
  cases h with
  | alternative =>
    cases List.mem_singleton.1 hmem
    rfl
  | choice =>
    rcases List.mem_append.1 hmem with h | h
    all_goals
      obtain ⟨_, _, h⟩ := List.mem_map.1 h
      cases h

/-- The way to an alternative of a choice goes on from one of its children. -/
theorem Nests.of_mem_cons {a b p : NodeId} {mark : Bool} {side : Side} {route : List Side}
    (h : g.Nests id alternatives) (hnode : g.node id = .choice a b mark)
    (hmem : ⟨side :: route, p⟩ ∈ alternatives) :
    ∃ inner, g.Nests (side.pick a b) inner ∧ ⟨route, p⟩ ∈ inner := by
  cases h with
  | alternative => cases List.mem_singleton.1 hmem
  | choice hnode' ha hb =>
    cases hnode.symm.trans hnode'
    rcases List.mem_append.1 hmem with h | h
    · obtain ⟨rfl, hin⟩ := Alternative.mem_map_under.1 h
      exact ⟨_, ha, hin⟩
    · obtain ⟨rfl, hin⟩ := Alternative.mem_map_under.1 h
      exact ⟨_, hb, hin⟩

theorem Extends.nests (h : g.Extends g') (hn : g.Nests id alternatives) :
    g'.Nests id alternatives := by
  induction hn with
  | alternative p => exact .alternative p
  | @choice id _ _ _ _ _ hnode _ _ iha ihb =>
    have hlt : id < g.size := lt_size_of_composite (by rw [hnode]; rfl)
    exact .choice ((h.node_eq id hlt).trans hnode) iha ihb

end Grammar

namespace Parse

variable {cx : Setting} {t u v : Trial} {route : List Side} {outcome : Outcome}
  {alternatives before behind : List Alternative} {root n : NodeId}

/-! ## §2 Branches -/

/-- The trial at the end of a way through choices, each of which is tried inside the one
before it: the first child at once, the second child when the first one has not matched
and the cursor is back. -/
inductive Branch (cx : Setting) : Trial → List Side → Trial → Prop
  | here {t : Trial} : Branch cx t [] t
  | first {t u : Trial} {route : List Side} {a b : NodeId} {mark : Bool}
    (hnode : cx.grammar.node t.node = .choice a b mark) (hroom : t.start.HasRoom)
    (h : Branch cx ⟨a, t.inside⟩ route u) : Branch cx t (.first :: route) u
  | second {t u : Trial} {route : List Side} {a b : NodeId} {mark : Bool}
    {after back : Progress} (hnode : cx.grammar.node t.node = .choice a b mark)
    (hroom : t.start.HasRoom) (hout : attemptFull cx a t.inside = (.noMatch, after))
    (hback : after.restore cx.source t.inside.pos = .ok back)
    (h : Branch cx ⟨b, back⟩ route u) : Branch cx t (.second :: route) u

namespace Branch

theorem covers (h : Branch cx t route u) : Covers cx t u := by
  induction h with
  | here => exact .refl
  | first hnode hroom _ ih => exact .head (.first hnode hroom) ih
  | second hnode hroom hout hback _ ih => exact .head (.second hnode hroom hout hback) ih

/-- Every way leads to a trial that starts where the whole did. -/
theorem pos_eq (h : Branch cx t route u) : u.start.pos = t.start.pos := by
  induction h with
  | here => rfl
  | first _ _ _ ih => exact ih
  | second _ _ _ hback _ ih =>
    obtain ⟨-, rfl⟩ := Progress.restore_eq_ok.1 hback
    exact ih

/-- Every choice on the way takes one level. -/
theorem headroom_eq (h : Branch cx t route u) :
    u.start.guard.headroom + route.length = t.start.guard.headroom := by
  have hlevel : ∀ {t u}, Tries cx (attemptFull cx) t u →
      t.start.guard.headroom = u.start.guard.headroom + 1 :=
    fun hu => hu.headroom (attemptFull_orderly cx)
  induction h with
  | here => rfl
  | first hnode hroom _ ih =>
    rw [hlevel (.first hnode hroom), ← ih, List.length_cons, Nat.add_assoc]
  | second hnode hroom hout hback _ ih =>
    rw [hlevel (.second hnode hroom hout hback), ← ih, List.length_cons, Nat.add_assoc]

/-- A way that leads to an alternative leads to its node. -/
theorem node_eq {p : NodeId} (h : Branch cx t route u)
    (hn : cx.grammar.Nests t.node alternatives) (hmem : ⟨route, p⟩ ∈ alternatives) :
    u.node = p := by
  induction h generalizing alternatives with
  | here => exact hn.eq_of_mem_nil hmem
  | first hnode _ _ ih | second hnode _ _ _ _ ih =>
    obtain ⟨inner, hinner, hmem⟩ := hn.of_mem_cons hnode hmem
    exact ih hinner hmem

/-- Where an alternative is tried. -/
theorem start_eq {st : Progress} {i levels : Nat} {p : NodeId} (h : Branch cx ⟨root, st⟩ route u)
    (hn : cx.grammar.Nests root alternatives) (hget : alternatives[i]? = some ⟨route, p⟩)
    (hlength : route.length = levels) :
    u.node = p ∧ u.start.pos = st.pos ∧
      u.start.guard.headroom + levels = st.guard.headroom := by
  refine ⟨h.node_eq hn (List.mem_of_getElem? hget), h.pos_eq, ?_⟩
  rw [← hlength]
  exact h.headroom_eq

end Branch

/-! ## §3 Turns -/

/-- The alternatives of a nest are tried in turn, until one of them matches or fails, or
there is no headroom for the choices around the next. -/
inductive InTurn (cx : Setting) (t : Trial) : List Alternative → Outcome → Prop
  | none : InTurn cx t [] .noMatch
  | refused {a : Alternative} {rest : List Alternative}
    (hfull : t.start.guard.headroom < a.route.length) :
    InTurn cx t (a :: rest) (.failed (.depthLimitExceeded t.start.guard.maxDepth))
  | settled {u : Trial} {route : List Side} {rest : List Alternative}
    (h : Branch cx t route u) (hout : (u.result (attemptFull cx)).1 ≠ .noMatch) :
    InTurn cx t (⟨route, u.node⟩ :: rest) (u.result (attemptFull cx)).1
  | next {u : Trial} {route : List Side} {rest : List Alternative} {outcome : Outcome}
    (h : Branch cx t route u) (hout : (u.result (attemptFull cx)).1 = .noMatch)
    (hrest : InTurn cx t rest outcome) : InTurn cx t (⟨route, u.node⟩ :: rest) outcome

namespace InTurn

/-- Whoever does not match leaves the turn to those behind. -/
theorem append (h : InTurn cx t before .noMatch) (h' : InTurn cx t behind outcome) :
    InTurn cx t (before ++ behind) outcome := by
  generalize hout : Outcome.noMatch = o at h
  induction h with
  | none => exact h'
  | refused => cases hout
  | settled _ hne => exact absurd hout.symm hne
  | next h hno _ ih => exact .next h hno (ih hout)

/-- Whoever comes to something else leaves them nothing. -/
theorem append_of_ne (h : InTurn cx t before outcome) (hout : outcome ≠ .noMatch)
    (behind : List Alternative) : InTurn cx t (before ++ behind) outcome := by
  induction h with
  | none => exact absurd rfl hout
  | refused hfull => exact .refused hfull
  | settled h hne => exact .settled h hne
  | next h hno _ ih => exact .next h hno (ih hout)

/-- One more choice around all of them. -/
theorem under {side : Side} (hroom : t.start.guard.headroom = v.start.guard.headroom + 1)
    (hlimit : v.start.guard.maxDepth = t.start.guard.maxDepth)
    (hway : ∀ {route u}, Branch cx v route u → Branch cx t (side :: route) u)
    (h : InTurn cx v alternatives outcome) :
    InTurn cx t (alternatives.map (.under side)) outcome := by
  induction h with
  | none => exact .none
  | refused hfull =>
    rw [hlimit]
    refine .refused ?_
    simp only [Alternative.under, List.length_cons]
    omega
  | settled h hne => exact .settled (hway h) hne
  | next h hno _ ih => exact .next (hway h) hno ih

end InTurn

/-- A choice that is entered comes to what its first child comes to, or, where that does
not match, to what its second child comes to from the same position. -/
theorem choice_cases (hm : cx.mode = .reject) {id a b : NodeId} {mark : Bool}
    (hnode : cx.grammar.node id = .choice a b mark) {st : Progress} (hroom : st.HasRoom) {p : Nat}
    (hpos : st.pos = p) (hp : p ≤ cx.source.length) :
    ((attemptFull cx a (st.within id)).1 ≠ .noMatch ∧
        (attemptFull cx id st).1 = (attemptFull cx a (st.within id)).1) ∨
      ∃ back : Progress, back.pos = p ∧ back.guard = (st.within id).guard ∧
        (attemptFull cx a (st.within id)).1 = .noMatch ∧
        (∀ {route u}, Branch cx ⟨b, back⟩ route u → Branch cx ⟨id, st⟩ (.second :: route) u) ∧
        (attemptFull cx id st).1 = (attemptFull cx b back).1 := by
  have heq : (attemptFull cx id st).1 =
      (attemptEither (attemptFull cx) cx.source a b (st.within id)).1 := by
    rw [attemptFull_eq, attemptNode_reject hm, attemptActor_choice hnode,
      guarded_of_hasRoom hroom]
  have hends := attemptFull_orderly cx a (st.within id)
  rw [heq]
  unfold attemptEither
  cases hfirst : attemptFull cx a (st.within id) with
  | mk outcome after =>
    rw [hfirst] at hends
    cases outcome with
    | matched | failed => exact .inl ⟨nofun, rfl⟩
    | noMatch =>
      have hback : after.restore cx.source (st.within id).pos = .ok { after with pos := p } := by
        rw [show (st.within id).pos = p from hpos, restore_eq after hp]
      refine .inr ⟨{ after with pos := p }, rfl, hends.guard, rfl,
        fun h => .second hnode hroom hfirst hback h, ?_⟩
      simp only [hback]

/-- **Alternatives are tried in turn**, however their choices are nested: what a nest
comes to is what the last alternative comes to whose turn it was. -/
theorem inTurn_of_nests (hm : cx.mode = .reject) (hn : cx.grammar.Nests root alternatives)
    (st : Progress) {p : Nat} (hpos : st.pos = p) (hp : p ≤ cx.source.length) :
    InTurn cx ⟨root, st⟩ alternatives (attemptFull cx root st).1 := by
  induction hn generalizing st with
  | alternative q =>
    by_cases hout : (attemptFull cx q st).1 = .noMatch
    · rw [hout]
      exact .next .here hout .none
    · exact .settled .here hout
  | @choice id a b mark before behind hnode ha hb iha ihb =>
    by_cases hroom : st.HasRoom
    · have hlevel : st.guard.headroom = (st.within id).guard.headroom + 1 :=
        Progress.headroom_within hroom
      have hbefore : InTurn cx ⟨id, st⟩ (before.map (.under .first))
          (attemptFull cx a (st.within id)).1 :=
        InTurn.under (v := ⟨a, st.within id⟩) hlevel rfl (fun h => .first hnode hroom h)
          (iha (st.within id) hpos)
      rcases choice_cases hm hnode hroom hpos hp with
        ⟨hne, hsame⟩ | ⟨back, hback, hguard, hno, hway, hsame⟩
      · rw [hsame]
        exact hbefore.append_of_ne hne _
      · have hbehind : InTurn cx ⟨id, st⟩ (behind.map (.under .second))
            (attemptFull cx b back).1 := by
          have hlimit : back.guard.maxDepth = st.guard.maxDepth := by rw [hguard]; rfl
          rw [← hguard] at hlevel
          exact InTurn.under (v := ⟨b, back⟩) hlevel hlimit hway (ihb back hback)
        rw [hno] at hbefore
        rw [hsame]
        exact hbefore.append hbehind
    · obtain ⟨first, rest, rfl⟩ := ha.exists_cons
      have hfull : st.guard.headroom = 0 :=
        Nat.eq_zero_of_not_pos fun hpos => hroom (Progress.hasRoom_iff.2 hpos)
      rw [attemptFull_eq, attemptNode_reject hm,
        attemptActor_of_not_hasRoom (by rw [hnode]; rfl) hroom]
      exact .refused (by simp [hfull, Alternative.under])

end Parse

/-! ## §4 Outcomes -/

/-- The first outcome that is more than no match, if there is one. -/
def Outcome.firstOf : List Outcome → Outcome
  | [] => .noMatch
  | .noMatch :: rest => firstOf rest
  | outcome :: _ => outcome

theorem Outcome.firstOf_cons_of_ne {outcome : Outcome} (h : outcome ≠ .noMatch)
    (rest : List Outcome) : firstOf (outcome :: rest) = outcome := by
  cases outcome with
  | noMatch => exact absurd rfl h
  | matched | failed => rfl

theorem Outcome.firstOf_eq_noMatch {outcomes : List Outcome} :
    firstOf outcomes = .noMatch ↔ ∀ outcome ∈ outcomes, outcome = .noMatch := by
  induction outcomes with
  | nil => simp [firstOf]
  | cons outcome rest ih =>
    by_cases h : outcome = .noMatch
    · subst h
      rw [firstOf, ih]
      simp
    · rw [firstOf_cons_of_ne h]
      simp [h]

namespace Parse

/-- What is on record when a trial starts has no say in what it comes to. -/
theorem attemptFull_fst (hm : cx.mode = .reject) (hpure : cx.grammar.ActsPurely n)
    (st : Progress) : (attemptFull cx n st).1 = (run cx n st.pos st.guard).1 := by
  rw [result_onto hm hpure st.guard st (.same rfl (Int.sub_self _))]
  exact Shift.outcome_onto _ _ _

/-- What an alternative comes to where its turn is, it comes to without the choices
around it, unless it is refused there. -/
theorem Branch.outcome_eq (hm : cx.mode = .reject) (h : Branch cx t route u)
    (hpure : cx.grammar.ActsPurely u.node)
    (hcut : (u.result (attemptFull cx)).1 ≠
      .failed (.depthLimitExceeded t.start.guard.maxDepth)) :
    (run cx u.node t.start.pos t.start.guard).1 = (u.result (attemptFull cx)).1 := by
  have hlimit : u.start.guard.maxDepth = t.start.guard.maxDepth := h.covers.depth.1
  have hroom := h.headroom_eq
  have hrun : (u.result (attemptFull cx)).1 = (run cx u.node t.start.pos u.start.guard).1 := by
    rw [← h.pos_eq]
    exact attemptFull_fst hm hpure u.start
  rw [hrun, ← hlimit] at hcut
  rw [hrun]
  exact (run_deeper hm hpure t.start.pos (by omega) hcut).1

/-- **The first answer counts**: alternatives in turn, where none is refused, come to what
the first of them that matches or fails comes to alone. -/
theorem InTurn.eq_firstOf (hm : cx.mode = .reject) (h : InTurn cx t alternatives outcome)
    (hpure : ∀ p ∈ alternatives.map Alternative.node, cx.grammar.ActsPurely p)
    (hcut : outcome ≠ .failed (.depthLimitExceeded t.start.guard.maxDepth)) :
    outcome = .firstOf ((alternatives.map Alternative.node).map fun p =>
      (run cx p t.start.pos t.start.guard).1) := by
  induction h with
  | none => rfl
  | refused => exact absurd rfl hcut
  | @settled u _ _ h hne =>
    have halone := h.outcome_eq hm (hpure _ List.mem_cons_self) hcut
    rw [List.map_cons, List.map_cons, halone, Outcome.firstOf_cons_of_ne hne]
  | @next u _ _ _ h hno _ ih =>
    have halone := h.outcome_eq hm (hpure _ List.mem_cons_self) (by rw [hno]; nofun)
    rw [List.map_cons, List.map_cons, halone, hno, Outcome.firstOf]
    exact ih (fun p hp => hpure p (List.mem_cons_of_mem _ hp)) hcut

end Parse

/-! ## §5 Building -/

namespace Grammar

/-- A node, or else another, or else another: each choice is made of the one before it. -/
def orChain (first : NodeId) (rest : List NodeId) : Build NodeId := rest.foldlM choice first

theorem oneOf_nests (first second : NodeId) (rest : List NodeId) (g : Grammar) :
    g.Extends (oneOf first second rest g).2 ∧
      (oneOf first second rest g).2.Nests (oneOf first second rest g).1
        (Alternative.toRight first (second :: rest)) := by
  induction rest generalizing first second with
  | nil =>
    exact ⟨.add g _, .choice (node_add_self _ g) (.alternative first) (.alternative second)⟩
  | cons third rest ih =>
    obtain ⟨hgrows, hothers⟩ := ih second third
    have hadd := Extends.add (oneOf second third rest g).2
      (.choice first (oneOf second third rest g).1 false)
    exact ⟨hgrows.trans hadd, .choice (node_add_self _ _) (.alternative first) (hadd.nests hothers)⟩

theorem orChain_nests {made : NodeId} {g : Grammar} {alternatives : List Alternative}
    (h : g.Nests made alternatives) (rest : List NodeId) :
    g.Extends (orChain made rest g).2 ∧
      (orChain made rest g).2.Nests (orChain made rest g).1
        (rest.foldl Alternative.orElse alternatives) := by
  induction rest generalizing made g alternatives with
  | nil => exact ⟨.refl g, h⟩
  | cons next rest ih =>
    have hadd := Extends.add g (.choice made next false)
    obtain ⟨hgrows, hnests⟩ := ih (.choice (node_add_self (.choice made next false) g)
      (hadd.nests h) (.alternative next))
    exact ⟨hadd.trans hgrows, hnests⟩

end Grammar

/-! ## §6 Parses -/

namespace Parse

variable {g g₁ : Grammar} {first second right left : NodeId} {rest : List NodeId}

/-- **Ordered choice does not depend on how it is built.** Of the alternatives of choices
nested to the right, and to the left, each is tried in turn from the position of the whole.
If neither is refused, both come to what the first alternative that matches or fails comes
to alone, and to no match exactly where none matches or fails. Of `n` alternatives the one
with index `i` is tried `min (n - 1) (i + 1)` levels down to the right, and to the left
`min (n - 1) (n - i)`. -/
theorem run_oneOf_orChain (hm : cx.mode = .reject)
    (hright : Grammar.oneOf first second rest g = (right, g₁))
    (hleft : Grammar.orChain first (second :: rest) g₁ = (left, cx.grammar))
    (hpure : ∀ p ∈ first :: second :: rest, cx.grammar.ActsPurely p) (guard : DepthGuard)
    {pos : Nat} (hpos : pos ≤ cx.source.length) :
    ((run cx right pos guard).1 ≠ .failed (.depthLimitExceeded guard.maxDepth) →
      (run cx left pos guard).1 ≠ .failed (.depthLimitExceeded guard.maxDepth) →
        ∃ outcome, (run cx right pos guard).1 = outcome ∧ (run cx left pos guard).1 = outcome ∧
          outcome = .firstOf ((first :: second :: rest).map fun p => (run cx p pos guard).1) ∧
          (outcome = .noMatch ↔
            ∀ p ∈ first :: second :: rest, (run cx p pos guard).1 = .noMatch)) ∧
      InTurn cx ⟨right, ⟨pos, guard, []⟩⟩ (Alternative.toRight first (second :: rest))
        (run cx right pos guard).1 ∧
      InTurn cx ⟨left, ⟨pos, guard, []⟩⟩ (Alternative.toLeft first (second :: rest))
        (run cx left pos guard).1 ∧
      ∀ (i : Nat) (p : NodeId), (first :: second :: rest)[i]? = some p →
        ∃ route route',
          (Alternative.toRight first (second :: rest))[i]? = some ⟨route, p⟩ ∧
          (Alternative.toLeft first (second :: rest))[i]? = some ⟨route', p⟩ ∧
          (∀ u, Branch cx ⟨right, ⟨pos, guard, []⟩⟩ route u → u.node = p ∧ u.start.pos = pos ∧
            u.start.guard.headroom + min (rest.length + 1) (i + 1) = guard.headroom) ∧
          (∀ u, Branch cx ⟨left, ⟨pos, guard, []⟩⟩ route' u → u.node = p ∧ u.start.pos = pos ∧
            u.start.guard.headroom + min (rest.length + 1) (rest.length + 2 - i) =
              guard.headroom) := by
  obtain ⟨hgrows, hlefts⟩ : g₁.Extends cx.grammar ∧
      cx.grammar.Nests left (Alternative.toLeft first (second :: rest)) := by
    have hchain := Grammar.orChain_nests (g := g₁) (.alternative first) (second :: rest)
    rwa [hleft] at hchain
  have hrights : cx.grammar.Nests right (Alternative.toRight first (second :: rest)) := by
    have hmade := (Grammar.oneOf_nests first second rest g).2
    rw [hright] at hmade
    exact hgrows.nests hmade
  have hturn := inTurn_of_nests hm hrights ⟨pos, guard, []⟩ rfl hpos
  have hturn' := inTurn_of_nests hm hlefts ⟨pos, guard, []⟩ rfl hpos
  refine ⟨fun hcut hcut' => ?_, hturn, hturn', fun i p hi => ?_⟩
  · have hone := hturn.eq_firstOf hm (by rwa [Alternative.map_node_toRight]) hcut
    have hother := hturn'.eq_firstOf hm (by rwa [Alternative.map_node_toLeft]) hcut'
    rw [Alternative.map_node_toRight] at hone
    rw [Alternative.map_node_toLeft] at hother
    exact ⟨_, hone, hother, rfl, Outcome.firstOf_eq_noMatch.trans List.forall_mem_map⟩
  · obtain ⟨route, hget, hlength⟩ := Alternative.getElem?_toRight hi
    obtain ⟨route', hget', hlength'⟩ := Alternative.getElem?_toLeft hi
    exact ⟨route, route', hget, hget', fun u hu => hu.start_eq hrights hget hlength,
      fun u hu => hu.start_eq hlefts hget' hlength'⟩

/-- The letters `a`, `b` and `c`, an `a` and a `b` (3), and an `a` and a `c` (4). -/
def lettersInPairs : Grammar :=
  ⟨#[.range (.single 'a'), .range (.single 'b'), .range (.single 'c'), .sequence [0, 1] false,
    .sequence [0, 2] false]⟩

/-- The pairs and then the letter `a` as alternatives, nested to the right (6) and to the
left (8), with a text that is the second pair. -/
def pairsOrLetter : Setting :=
  ⟨(Grammar.orChain 3 [4, 0] (Grammar.oneOf 3 4 [0] lettersInPairs).2).2, .ofString "ac", .reject,
    fun _ _ => none⟩

/-- The first pair leaves the cursor behind its letter, from where both go back. -/
theorem run_oneOf_orChain_pairs :
    pairsOrLetter.mode = .reject ∧
      Grammar.oneOf 3 4 [0] lettersInPairs = (6, (Grammar.oneOf 3 4 [0] lettersInPairs).2) ∧
      Grammar.orChain 3 [4, 0] (Grammar.oneOf 3 4 [0] lettersInPairs).2 =
        (8, pairsOrLetter.grammar) ∧
      (∀ p ∈ [3, 4, 0], pairsOrLetter.grammar.ActsPurely p) ∧
      0 ≤ pairsOrLetter.source.length ∧
      (run pairsOrLetter 6 (0 : Nat) ⟨3, 0⟩).1 ≠ .failed (.depthLimitExceeded 3) ∧
      (run pairsOrLetter 8 (0 : Nat) ⟨3, 0⟩).1 ≠ .failed (.depthLimitExceeded 3) ∧
      (run pairsOrLetter 6 (0 : Nat) ⟨3, 0⟩).1 = (run pairsOrLetter 8 (0 : Nat) ⟨3, 0⟩).1 ∧
      InTurn pairsOrLetter ⟨8, ⟨(0 : Nat), ⟨3, 0⟩, []⟩⟩
        [⟨[.first, .first], 3⟩, ⟨[.first, .second], 4⟩, ⟨[.second], 0⟩]
        (run pairsOrLetter 8 (0 : Nat) ⟨3, 0⟩).1 ∧
      (run pairsOrLetter 3 (0 : Nat) ⟨3, 0⟩).2.pos = 1 := by
  have hpure : ∀ p ∈ [3, 4, 0], pairsOrLetter.grammar.ActsPurely p := by
    intro p hp m hr
    have hall : ∀ k ∈ [3, 4, 0, 1, 2], (pairsOrLetter.grammar.node k).isPure = true := by decide
    exact hall m (hr.mem_of_closed (List.mem_append_left [1, 2] hp) (by decide))
  have hcut : ∀ n ∈ [6, 8], (run pairsOrLetter n (0 : Nat) ⟨3, 0⟩).1 ≠
      .failed (.depthLimitExceeded 3) := by
    have hjoined : ∀ n ∈ [6, 8],
        joined (run pairsOrLetter n (0 : Nat) ⟨3, 0⟩).1 = some ("ac", 2) := by decide +kernel
    exact fun n hn => ne_failed_of_joined (hjoined n hn) _
  have hm : pairsOrLetter.mode = .reject := rfl
  have hright : Grammar.oneOf 3 4 [0] lettersInPairs =
    (6, (Grammar.oneOf 3 4 [0] lettersInPairs).2) := rfl
  have hleft : Grammar.orChain 3 [4, 0] (Grammar.oneOf 3 4 [0] lettersInPairs).2 =
    (8, pairsOrLetter.grammar) := rfl
  obtain ⟨hsame, -, hturn, -⟩ :=
    run_oneOf_orChain hm hright hleft hpure ⟨3, 0⟩ (Nat.zero_le _)
  obtain ⟨outcome, hone, hother, -⟩ := hsame (hcut 6 (by simp)) (hcut 8 (by simp))
  exact ⟨hm, hright, hleft, hpure, Nat.zero_le _, hcut 6 (by simp), hcut 8 (by simp),
    hone.trans hother.symm, hturn, by decide +kernel⟩

/-- With one level left the first of three letters is tried to the right. To the left it
is two choices down. -/
example :
    joined (run ⟨(Grammar.oneOf 0 1 [2] lettersInPairs).2, .ofString "a", .reject,
      fun _ _ => none⟩ 6 0 ⟨1, 0⟩).1 = some ("a", 1) ∧
    joined (run ⟨(Grammar.orChain 0 [1, 2] lettersInPairs).2, .ofString "a", .reject,
      fun _ _ => none⟩ 6 0 ⟨1, 0⟩).1 = none := by
  decide +kernel

end Parse

end PegGraph
