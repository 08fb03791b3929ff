/-
PegGraph.Proofs.Resolution — the three ways in which following references ends.

  §1 Ways    — references in a row, each with the next one as its target.
  §2 Endings — a node, a reference without a target, or a ring, and what each of them
               comes to.
  §3 Resolution — `resolve_ending`: resolution comes to what the chain ends in, and to
               nothing else.

An ending says nothing of how it is found: it is a way through the store, and what stands
at the end of it. What `follow` does is in `Chases`, with the references behind it. The two
are compared by going along a way with what is behind (`Way.chases`), which asks for one
thing only, that no reference on the way comes twice. On a way that has an end this is so
of itself (`Way.nodup`), and a ring is told by the first reference that does.
-/
import PegGraph.Proofs.Obstacle

namespace PegGraph.Grammar

open Relation (ReflTransGen TransGen)

/-! ## §1 Ways -/

/-- References in a row, each with the next one as its target, and the last of them with
the node that the way leads to. -/
inductive Way (g : Grammar) : NodeId → List NodeId → NodeId → Prop where
  /-- No reference is followed. -/
  | here {id} : Way g id [] id
  | along {id next refs last} (hf : g.Forwards id next) (rest : Way g next refs last) :
    Way g id (id :: refs) last

variable {g : Grammar} {id next last n : NodeId} {refs chain : List NodeId}
  {r : Except Fault NodeId}

namespace Way

/-- A way goes on where its last node has a target. -/
theorem snoc (h : g.Way id refs last) (hf : g.Forwards last next) :
    g.Way id (refs ++ [last]) next := by
  induction h with
  | here => exact .along hf .here
  | along hf' _ ih => exact .along hf' (ih hf)

theorem leads (h : g.Way id refs last) : g.Leads id last := by
  induction h with
  | here => exact .refl
  | along hf _ ih => exact .head hf ih

/-- What is on a way has a target, and is led to. -/
theorem of_mem (h : g.Way id refs last) (hmem : n ∈ refs) :
    (∃ next, g.Forwards n next) ∧ g.Leads id n := by
  induction h with
  | here => cases hmem
  | along hf _ ih =>
    rcases List.mem_cons.1 hmem with rfl | hmem
    · exact ⟨⟨_, hf⟩, .refl⟩
    · obtain ⟨hnext, hlead⟩ := ih hmem
      exact ⟨hnext, .head hf hlead⟩

/-- A way that has an end does not come twice to the same reference. -/
theorem nodup (h : g.Way id refs last) (hend : ∀ next, ¬ g.Forwards last next) :
    refs.Nodup := by
  induction h with
  | here => exact List.nodup_nil
  | @along id next refs last hf rest ih =>
    refine List.nodup_cons.2 ⟨fun hmem => ?_, ih hend⟩
    have hback : TransGen g.Forwards id id := .head' hf (rest.of_mem hmem).2
    exact (Way.along hf rest).leads.acyclic hend hback

/-- To follow references along a way, none of which is behind, comes to what it comes to
from its end, with all of them behind. -/
theorem chases (h : g.Way id refs last) (hnodup : refs.Nodup) (hnew : ∀ c ∈ refs, c ∉ chain)
    (hlast : g.Chases (refs.reverse ++ chain) last r) : g.Chases chain id r := by
  induction h generalizing chain with
  | here => exact hlast
  | @along id next refs last hf _ ih =>
    obtain ⟨hid, hnodup⟩ := List.nodup_cons.1 hnodup
    refine .forward (hnew id List.mem_cons_self) hf (ih hnodup (fun c hc hmem => ?_) ?_)
    · rcases List.mem_cons.1 hmem with rfl | hmem
      · exact hid hc
      · exact hnew c (List.mem_cons_of_mem id hc) hmem
    · simpa using hlast

end Way

/-! ## §2 Endings -/

/-- How the chain of a node ends, and what resolution is to come to for it. -/
inductive Ending (g : Grammar) (id : NodeId) : Except Fault NodeId → Prop where
  /-- The chain comes to a node that is no reference: the first such node, since there is
  nothing but references on the way. -/
  | node {refs : List NodeId} {t : NodeId} (way : g.Way id refs t)
    (h : (g.node t).isReference = false) : Ending g id (.ok t)
  /-- The chain comes to a reference without a target, which is named. -/
  | unbound {refs : List NodeId} {last : NodeId} {name : Option String} (way : g.Way id refs last)
    (h : g.node last = .reference name none) :
    Ending g id (.error (.unboundReference [Node.labelOf last name]))
  /-- After a lead-in the chain goes around a ring, back to where it entered it. Each
  reference is named once, and the entry again at the end. -/
  | ring {lead round : List NodeId} {entry : NodeId} (way : g.Way id (lead ++ entry :: round) entry)
    (hnodup : (lead ++ entry :: round).Nodup) :
    Ending g id (.error (.cyclicReference ((lead ++ entry :: round ++ [entry]).map g.label)))

/-- What is followed with a way behind that has met no reference twice comes to what the
whole chain ends in. -/
theorem Chases.ending (h : g.Chases chain n r) (hway : g.Way id chain.reverse n)
    (hnodup : chain.Nodup) : g.Ending id r := by
  induction h with
  | self hfree => exact .node hway hfree
  | unbound _ hnode => exact .unbound hway hnode
  | back hmem _ =>
    obtain ⟨lead, round, heq⟩ := List.append_of_mem (List.mem_reverse.2 hmem)
    have hnodup := List.nodup_reverse.2 hnodup
    unfold cycleFault
    rw [heq] at hway hnodup ⊢
    exact .ring hway hnodup
  | @forward chain n _ _ hnew hf _ ih =>
    refine ih ?_ (List.nodup_cons.2 ⟨hnew, hnodup⟩)
    rw [List.reverse_cons]
    exact hway.snoc hf

/-- An ending is what following references comes to. -/
theorem Ending.chases (h : g.Ending id r) : g.Chases [] id r := by
  cases h with
  | node way hfree =>
    have hnodup := way.nodup (not_forwards_of_not_reference hfree)
    exact way.chases hnodup (fun _ _ => List.not_mem_nil) (.self hfree)
  | @unbound refs last name way hnode =>
    have hend := not_forwards_of_unbound hnode
    have hnew : last ∉ refs := fun hmem => by
      obtain ⟨next, hf⟩ := (way.of_mem hmem).1
      exact hend next hf
    refine way.chases (way.nodup hend) (fun _ _ => List.not_mem_nil) (.unbound ?_ hnode)
    simpa using hnew
  | @ring lead round entry way hnodup =>
    have hmem : entry ∈ lead ++ entry :: round := by simp
    obtain ⟨⟨next, hf⟩, -⟩ := way.of_mem hmem
    refine way.chases hnodup (fun _ _ => List.not_mem_nil) ?_
    have hback : g.Chases ((lead ++ entry :: round).reverse ++ []) entry _ :=
      .back (by simp) hf.isReference
    simpa [cycleFault] using hback

/-! ## §3 Resolution -/

theorem resolve_eq_iff_ending : g.resolve id = r ↔ g.Ending id r := by
  have hres := resolve_chases g id
  exact ⟨fun h => h ▸ hres.ending .here List.nodup_nil, fun h => hres.unique h.chases⟩

/-- However many steps it may take, `follow` takes no more than the store has nodes. -/
theorem follow_of_size_lt {steps : Nat} (hsteps : g.size < steps) (id : NodeId) :
    g.follow steps [] id = g.resolve id :=
  (follow_chases steps [] id hsteps List.nodup_nil nofun).unique (resolve_chases g id)

/-- A ring is what there is where no way has an end. -/
theorem resolve_cyclic_iff_endless : (∃ labels, g.resolve id = .error (.cyclicReference labels)) ↔
    ∀ refs last, g.Way id refs last → ∃ next, g.Forwards last next := by
  constructor
  · rintro ⟨labels, hres⟩ refs last way
    cases hnode : g.node last with
    | reference name target =>
      cases target with
      | some next => exact ⟨next, name, hnode⟩
      | none =>
        rw [resolve_eq_iff_ending.2 (.unbound way hnode)] at hres
        cases hres
    | _ =>
      rw [resolve_eq_iff_ending.2 (.node way (by rw [hnode]; rfl))] at hres
      cases hres
  · intro hendless
    generalize hres : g.resolve id = r
    cases resolve_eq_iff_ending.1 hres with
    | node way hfree =>
      obtain ⟨next, hf⟩ := hendless _ _ way
      exact absurd hf (not_forwards_of_not_reference hfree next)
    | unbound way hnode =>
      obtain ⟨next, hf⟩ := hendless _ _ way
      exact absurd hf (not_forwards_of_unbound hnode next)
    | ring => exact ⟨_, rfl⟩

/-- **Resolution comes to what the chain ends in**, whatever the references of a store lead
to: to the first node that is no reference, to a complaint of the reference without a target,
or, where neither is ever reached, to a complaint of the ring. It gets there in no more steps
than the store has nodes. -/
theorem resolve_ending (g : Grammar) (id : NodeId) :
    (∀ r, g.resolve id = r ↔ g.Ending id r) ∧
    ((∃ labels, g.resolve id = .error (.cyclicReference labels)) ↔
      ∀ refs last, g.Way id refs last → ∃ next, g.Forwards last next) ∧
    ∀ steps, g.size < steps → g.follow steps [] id = g.resolve id :=
  ⟨fun _ => resolve_eq_iff_ending, resolve_cyclic_iff_endless,
    fun _ hsteps => follow_of_size_lt hsteps id⟩

/-- A lead-in of one reference, and a ring of two. -/
example : (Grammar.mk #[.reference (some "a") (some 1), .reference (some "b") (some 2),
      .reference none (some 1)]).resolve 0 =
    .error (.cyclicReference [Node.labelOf 0 (some "a"), Node.labelOf 1 (some "b"),
      Node.labelOf 2 none, Node.labelOf 1 (some "b")]) := rfl

end PegGraph.Grammar
