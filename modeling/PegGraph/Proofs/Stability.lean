/-
PegGraph.Proofs.Stability — what a reference stands for is settled for good.

  §1 Rings     — chains that come back, with the references on the way.
  §2 Growth    — a store and a later one: what the later one keeps.
  §3 Moves     — every move leaves a later store, and so does any number of them.
  §4 Sessions  — commands that change nodes, and those that only read them.
  §5 Histories — `resolve_settled`: whatever happens, nothing that a reference stands for
                 is taken back, nor any link that was replaced by it.

A reference gets its target once, and nothing else about a node that is there changes but
links and marks. So every step of a chain is there in a later store, and only a chain that
ends in a reference without a target may go on. The nodes of a chain have to be in the
store for that: a number beyond it may become any node later, which is why links lead
inside (`LinksInside`).
-/
import PegGraph.Proofs.Accounting
import PegGraph.Proofs.History

namespace PegGraph

open Relation (ReflTransGen)

namespace Grammar

/-! ## §1 Rings -/

/-- A way along targets that comes back: from a node on, with the references of `chain`
behind it, to the first that was there before. -/
inductive Circles (g : Grammar) : List NodeId → NodeId → List NodeId → Prop where
  /-- The node is behind already. -/
  | back {chain id} (h : id ∈ chain) : Circles g chain id [id]
  /-- The node is new, and its target is gone on from. -/
  | forward {chain id next way} (hnew : id ∉ chain) (hf : g.Forwards id next)
      (rest : Circles g (id :: chain) next way) : Circles g chain id (id :: way)

variable {g g' g'' : Grammar} {id next n l u t : NodeId} {passes : Call.Passes}
  {labels : List String} {chain way : List NodeId}

theorem Circles.isReference (h : g.Circles chain id way)
    (hrefs : ∀ c ∈ chain, (g.node c).isReference = true) :
    ∀ c ∈ way, (g.node c).isReference = true := by
  induction h with
  | back hmem => simpa using hrefs _ hmem
  | forward _ hf _ ih =>
    have hrest := ih (List.forall_mem_cons.2 ⟨hf.isReference, hrefs⟩)
    exact List.forall_mem_cons.2 ⟨hf.isReference, hrest⟩

/-- What names a ring has gone around it. -/
theorem Chases.circles (h : g.Chases chain id (.error (.cyclicReference labels))) :
    ∃ way, g.Circles chain id way ∧ labels = (chain.reverse ++ way).map g.label := by
  generalize hr : Except.error (Fault.cyclicReference labels) = r at h
  induction h with
  | self | unbound => cases hr
  | @back _ id hmem _ =>
    cases hr
    exact ⟨[id], .back hmem, rfl⟩
  | @forward _ id _ _ hnew hf _ ih =>
    obtain ⟨way, hway, hlabels⟩ := ih hr
    exact ⟨id :: way, .forward hnew hf hway, by simpa using hlabels⟩

theorem Circles.chases (h : g.Circles chain id way)
    (hrefs : ∀ c ∈ chain, (g.node c).isReference = true) :
    g.Chases chain id (.error (.cyclicReference ((chain.reverse ++ way).map g.label))) := by
  induction h with
  | back hmem => exact .back hmem (hrefs _ hmem)
  | forward hnew hf _ ih =>
    refine .forward hnew hf ?_
    simpa using ih (List.forall_mem_cons.2 ⟨hf.isReference, hrefs⟩)

/-- **Resolution complains of a ring** exactly where a chain comes back, and names the
references on its way. -/
theorem resolve_eq_cyclic_iff : g.resolve id = .error (.cyclicReference labels) ↔
    ∃ way, g.Circles [] id way ∧ labels = way.map g.label := by
  constructor
  · intro h
    exact (h ▸ resolve_chases g id).circles
  · rintro ⟨way, hway, rfl⟩
    exact (resolve_chases g id).unique (hway.chases nofun)

/-! ## §2 Growth -/

/-- A later store has the nodes of an earlier one. Of these a reference may have got a
target, if it had none, and links may have been replaced by what they stand for. -/
structure Grown (g g' : Grammar) : Prop where
  size_le : g.size ≤ g'.size
  shape : ∀ id, id < g.size → (g'.node id).shape = (g.node id).shape ∨
    ∃ name target, g.node id = .reference name none ∧ g'.node id = .reference name (some target)
  links : ∀ id, (g.node id).isComposite = true →
    List.Forall₂ g'.Substitutes (g.links id) (g'.links id)

namespace Grown

theorem refl (g : Grammar) : Grown g g where
  size_le := Nat.le_refl _
  shape _ _ := .inl rfl
  links _ _ := forall₂_substitutes g _

/-- A reference keeps its target. -/
theorem bound (h : Grown g g') {name : Option String} (hn : g.node id = .reference name (some t)) :
    g'.node id = .reference name (some t) := by
  have hlt : id < g.size := lt_size_of_isReference (by rw [hn]; rfl)
  rcases h.shape id hlt with hshape | ⟨_, _, hold, -⟩
  · exact (Node.eq_of_shape_eq hshape.symm (by rw [hn]; rfl)).trans hn
  · rw [hn] at hold
    cases hold

theorem label (h : Grown g g') (hlt : id < g.size) : g'.label id = g.label id := by
  unfold Grammar.label
  rcases h.shape id hlt with hshape | ⟨name, target, hold, hnew⟩
  · rw [← Node.label_shape, hshape, Node.label_shape]
  · rw [hold, hnew]
    rfl

/-- Nothing but a reference changes its shape. -/
theorem shape_eq (h : Grown g g') (hlt : id < g.size) (href : (g.node id).isReference = false) :
    (g'.node id).shape = (g.node id).shape := by
  refine (h.shape id hlt).resolve_right ?_
  rintro ⟨name, target, hold, -⟩
  rw [hold] at href
  cases href

/-- A node that is there and no reference does not become one. -/
theorem not_reference (h : Grown g g') (hlt : id < g.size)
    (href : (g.node id).isReference = false) : (g'.node id).isReference = false := by
  rw [Node.isReference_congr (h.shape_eq hlt href), href]

theorem composite (h : Grown g g') (hc : (g.node id).isComposite = true) :
    (g'.node id).isComposite = true := by
  have href := Node.not_reference_of_composite hc
  rw [Node.isComposite_congr (h.shape_eq (lt_size_of_composite hc) href), hc]

theorem forwards (h : Grown g g') (hf : g.Forwards id next) : g'.Forwards id next := by
  obtain ⟨name, hn⟩ := hf
  exact ⟨name, h.bound hn⟩

/-- What a node stands for it stands for later on. -/
theorem standsFor (h : Grown g g') (hin : g.LinksInside) (hlt : id < g.size)
    (hs : g.StandsFor id t) : g'.StandsFor id t := by
  induction hs with
  | self href => exact .self (h.not_reference hlt href)
  | forward hf _ ih => exact .forward (h.forwards hf) (ih (hin _ _ hf.linked))

theorem substitutes (h : Grown g g') (hin : g.LinksInside) (hlt : l < g.size)
    (hs : g.Substitutes l u) : g'.Substitutes l u :=
  hs.imp id (h.standsFor hin hlt)

theorem circles (h : Grown g g') (hc : g.Circles chain id way) : g'.Circles chain id way := by
  induction hc with
  | back hmem => exact .back hmem
  | forward hnew hf _ ih => exact .forward hnew (h.forwards hf) ih

theorem resolve_ok (h : Grown g g') (hin : g.LinksInside) (hlt : id < g.size)
    (hres : g.resolve id = .ok t) : g'.resolve id = .ok t :=
  resolve_eq_ok_iff.2 (h.standsFor hin hlt (resolve_eq_ok_iff.1 hres))

/-- A link is kept, or replaced by what it stands for. -/
theorem link (h : Grown g g') {i : Nat} (hl : (g.links n)[i]? = some l) :
    ∃ u, (g'.links n)[i]? = some u ∧ g'.Substitutes l u := by
  have hlink : g.Linked n l := List.mem_of_getElem? hl
  cases href : (g.node n).isReference with
  | true =>
    obtain ⟨name, hn⟩ := forwards_of_linked href hlink
    have hsame : g'.links n = g.links n := links_congr ((h.bound hn).trans hn.symm)
    exact ⟨l, by rw [hsame, hl], .inl rfl⟩
  | false =>
    have hall := h.links n (hlink.isComposite href)
    obtain ⟨hi, rfl⟩ := List.getElem?_eq_some_iff.1 hl
    have hi' : i < (g'.links n).length := hall.length_eq ▸ hi
    exact ⟨(g'.links n)[i], List.getElem?_eq_getElem hi', hall.get hi hi'⟩

/-- **A link that was replaced is replaced for good**, by what the reference that it led
to stands for. -/
theorem link_settled (h : Grown g g') (h' : Grown g' g'') (hin : g.LinksInside)
    (hin' : g'.LinksInside) {i : Nat} (hl : (g.links n)[i]? = some l) :
    ∃ u, (g'.links n)[i]? = some u ∧ (u = l ∨ (g.node l).isReference = true ∧
      g'.resolve l = .ok u ∧ (g''.links n)[i]? = some u ∧ g''.resolve l = .ok u) := by
  have hlt : l < g.size := hin n l (List.mem_of_getElem? hl)
  obtain ⟨u, hu, hsub⟩ := h.link hl
  refine ⟨u, hu, ?_⟩
  cases href : (g.node l).isReference with
  | false => exact .inl (hsub.eq_self (h.not_reference hlt href))
  | true =>
    rcases hsub with rfl | hs
    · exact .inl rfl
    have hres : g'.resolve l = .ok u := resolve_eq_ok_iff.2 hs
    have hres' : g''.resolve l = .ok u := h'.resolve_ok hin' (hlt.trans_le h.size_le) hres
    -- What has replaced a reference is none, so there is nothing left to replace it by.
    have hfree : (g''.node u).isReference = false :=
      h'.not_reference (hin' n u (List.mem_of_getElem? hu)) hs.not_reference
    obtain ⟨u', hu', hsub'⟩ := h'.link hu
    cases hsub'.eq_self hfree
    exact .inr ⟨rfl, hres, hu', hres'⟩

/-- **A ring stays a ring** of the same references, under the same labels. -/
theorem resolve_cyclic (h : Grown g g')
    (hres : g.resolve id = .error (.cyclicReference labels)) :
    g'.resolve id = .error (.cyclicReference labels) ∧
      ∃ way, g.Circles [] id way ∧ g'.Circles [] id way ∧ labels = way.map g.label := by
  obtain ⟨way, hway, hlabels⟩ := resolve_eq_cyclic_iff.1 hres
  refine ⟨resolve_eq_cyclic_iff.2 ⟨way, h.circles hway, ?_⟩, way, hway, h.circles hway, hlabels⟩
  rw [hlabels]
  refine List.map_congr_left fun c hc => (h.label ?_).symm
  exact lt_size_of_isReference (hway.isReference nofun c hc)

theorem trans (h : Grown g g') (h' : Grown g' g'') (hin : g.LinksInside) (hin' : g'.LinksInside) :
    Grown g g'' where
  size_le := h.size_le.trans h'.size_le
  shape n hlt := by
    rcases h.shape n hlt with hshape | ⟨name, target, hold, hnew⟩
    · rcases h'.shape n (hlt.trans_le h.size_le) with hshape' | ⟨name, target, hmid, hnew⟩
      · exact .inl (hshape'.trans hshape)
      · have heq : g.node n = g'.node n := Node.eq_of_shape_eq hshape (by rw [hmid]; rfl)
        exact .inr ⟨name, target, heq.trans hmid, hnew⟩
    · exact .inr ⟨name, target, hold, h'.bound hnew⟩
  links n hc := by
    have hfirst := h.links n hc
    have hsecond := h'.links n (h.composite hc)
    have hlen := hfirst.length_eq
    refine List.forall₂_iff_get.2 ⟨hlen.trans hsecond.length_eq, fun i h₁ h₂ => ?_⟩
    have hlt : (g.links n)[i] < g'.size := (hin n _ (List.getElem_mem h₁)).trans_le h.size_le
    have hsub := h'.substitutes hin' hlt (hfirst.get h₁ (hlen ▸ h₁))
    exact hsub.trans (hsecond.get (hlen ▸ h₁) h₂)

end Grown

/-! ## §3 Moves -/

theorem Move.grown (h : Move passes g g') : Grown g g' where
  size_le := h.size_le
  shape n hlt := by
    cases h with
    | add => rw [node_add_of_lt _ hlt]; exact .inl rfl
    | @bind _ id target h =>
      obtain ⟨name, hid, -, hnode⟩ := bind_eq_ok h
      rw [hnode]
      split
      · next heq => exact .inr ⟨name, target, heq ▸ hid, rfl⟩
      · exact .inl rfl
    | pass h => exact .inl ((pass_iff_compress.2 h).sameShape.shape n)
  links n hc := by
    cases h with
    | add =>
      rw [links_congr (node_add_of_lt _ (lt_size_of_composite hc))]
      exact forall₂_substitutes _ _
    | bind h =>
      rw [links_congr (bind_node_eq h (Node.not_reference_of_composite hc))]
      exact forall₂_substitutes _ _
    | pass h =>
      have hspl := (pass_iff_compress.2 h).spliced
      exact (hspl.links n).imp fun _ _ => hspl.substitutes_iff.2

theorem Moves.grown (h : Moves passes g g') (hin : g.LinksInside) : Grown g g' := by
  induction h with
  | refl => exact .refl g
  | tail hbefore hm ih => exact ih.trans hm.grown hin (Moves.linksInside hbefore hin)

theorem History.grown (h : History passes g g') (hin : g.LinksInside) : Grown g g' :=
  (h.moves hin).grown hin

end Grammar

/-! ## §4 Sessions -/

namespace Session

/-- An operation in a session that builds, changes or reads a grammar. -/
inductive Command where
  | call (c : Call)
  | compressSilently (root : NodeId)
  | parse (request : Request)
  | tryParse (names : GuardNames) (parser : Parser) (source : Source)
  | parseWith (names : GuardNames) (parser : Parser) (source : Source)

namespace Command

/-- The session after a command, refused or not. -/
def run (s : Session) : Command → Session
  | .call (.bind id target) => (Session.bind id target s).2
  | .call (.compress root) => (Session.compress root s).2
  | .call (.prepare root config) => (prepareParser root config s).2
  | .call c => (build (fun g => ((), c.run g)) s).2
  | .compressSilently root => (Session.compressSilently root s).2
  | .parse request => (request.parse s).2
  | .tryParse names parser source => (Session.tryParse names parser source s).2
  | .parseWith names parser source => (Session.parseWith names parser source s).2

/-- The call that a command makes on the grammar, if it does not only read it. -/
def call? : Command → Option Call
  | .call c => some c
  | .compressSilently root => some (.compress root)
  | .parse _ | .tryParse .. | .parseWith .. => none

/-- A command does to the grammar what its call does, and no more. -/
theorem run_grammar (command : Command) (s : Session) :
    (command.run s).grammar = command.call?.elim s.grammar (Call.run s.grammar) := by
  cases command with
  | call c =>
    cases c with
    | bind id target =>
      simp only [run, Session.bind, call?, Option.elim, Call.run]
      split <;> next heq => rw [heq]
    | compress root =>
      simp only [run, Session.compress, call?, Option.elim, Call.run]
      split <;> next heq => rw [heq]
    | prepare root config =>
      simp only [run, prepareParser, call?, Option.elim, Call.run]
      split <;> next heq => rw [heq]
    | _ => rfl
  | compressSilently root => rfl
  | parse request => simp only [run, request.parse_eq, call?, Option.elim]
  | tryParse | parseWith => rfl

end Command

/-- One command, whose call is on nodes that are there. -/
def Step (s s' : Session) : Prop :=
  ∃ command : Command,
    (∀ c ∈ command.call?, ∀ id ∈ c.arguments, id < s.grammar.size) ∧ command.run s = s'

/-- Any number of commands, one after another. -/
abbrev History : Session → Session → Prop := ReflTransGen Step

variable {s s' s'' : Session}

/-- A history of a session is one of its grammar. -/
theorem History.grammar (h : History s s') : Grammar.History .any s.grammar s'.grammar := by
  induction h with
  | refl => exact .refl
  | tail _ hstep ih =>
    obtain ⟨command, hargs, rfl⟩ := hstep
    rw [command.run_grammar]
    cases hcall : command.call? with
    | none => exact ih
    | some c => exact ih.tail ⟨c, hargs c hcall, c.makes_any _, rfl⟩

/-- Whether the calls of commands are on nodes that are there, each when its turn comes. -/
def admits (s : Session) : List Command → Bool
  | [] => true
  | command :: rest =>
    command.call?.all (·.arguments.all (· < s.grammar.size)) && (command.run s).admits rest

/-- Such commands are a history. -/
theorem history_of_admits (commands : List Command) (s : Session) (h : s.admits commands = true) :
    History s (commands.foldl Command.run s) := by
  induction commands generalizing s with
  | nil => exact .refl
  | cons command rest ih =>
    rw [admits, Bool.and_eq_true, Option.all_eq_true] at h
    obtain ⟨hcall, hrest⟩ := h
    refine .head ⟨command, fun c hc id hid => ?_, rfl⟩ (ih _ hrest)
    exact of_decide_eq_true (List.all_eq_true.1 (hcall c hc) id hid)

/-- A bind is refused where a reference has a target, or a node is none, and leaves all as
it was. -/
theorem bind_refused {id target : NodeId} {fault : Fault}
    (h : bind id target s = (.error fault, s')) : s' = s ∧
      ((∃ name t, s.grammar.node id = .reference name (some t) ∧
          fault = .alreadyBound (Node.labelOf id name)) ∨
        (s.grammar.node id).isReference = false ∧
          fault = .bindUnsupported (s.grammar.node id).kind) := by
  unfold Session.bind at h
  split at h
  · next hbind =>
    cases h
    refine ⟨rfl, ?_⟩
    unfold Grammar.bind at hbind
    split at hbind
    · cases hbind
    · next name t hn =>
      cases hbind
      exact .inl ⟨name, t, hn, rfl⟩
    · next hfree hbound =>
      cases hbind
      refine .inr ⟨Grammar.not_isReference fun name target hn => ?_, rfl⟩
      cases target with
      | none => exact hfree name hn
      | some t => exact hbound name t hn
  · cases h

/-! ## §5 Histories -/

/-- **What a reference stands for is settled for good**: in every later state a bound
reference has its target and a node stands for what it stood for; a ring is reported with
the same labels, and is one of the same references; a bind that is refused changes
nothing; and a link that was replaced, by what the reference it led to stands for, is
never replaced again, nor does that reference come to stand for anything else. -/
theorem resolve_settled (before : History .empty s) (later : History s s')
    (further : History s' s'') :
    (∀ id name t, s.grammar.node id = .reference name (some t) →
      s'.grammar.node id = .reference name (some t)) ∧
    (∀ id t, id < s.grammar.size → s.grammar.resolve id = .ok t →
      s'.grammar.resolve id = .ok t) ∧
    (∀ id labels, s.grammar.resolve id = .error (.cyclicReference labels) →
      s'.grammar.resolve id = .error (.cyclicReference labels) ∧
        ∃ way, s.grammar.Circles [] id way ∧ s'.grammar.Circles [] id way ∧
          labels = way.map s.grammar.label) ∧
    (∀ id target fault after, bind id target s = (.error fault, after) → after = s ∧
      ((∃ name t, s.grammar.node id = .reference name (some t) ∧
          fault = .alreadyBound (Node.labelOf id name)) ∨
        (s.grammar.node id).isReference = false ∧
          fault = .bindUnsupported (s.grammar.node id).kind)) ∧
    ∀ n (i : Nat) l, (s.grammar.links n)[i]? = some l →
      ∃ u, (s'.grammar.links n)[i]? = some u ∧
        (u = l ∨ (s.grammar.node l).isReference = true ∧ s'.grammar.resolve l = .ok u ∧
          (s''.grammar.links n)[i]? = some u ∧ s''.grammar.resolve l = .ok u) := by
  have hin : s.grammar.LinksInside :=
    Grammar.Moves.linksInside (before.grammar.moves Grammar.linksInside_empty)
      Grammar.linksInside_empty
  have hin' : s'.grammar.LinksInside := Grammar.Moves.linksInside (later.grammar.moves hin) hin
  have hlater := later.grammar.grown hin
  have hfurther := further.grammar.grown hin'
  refine ⟨?_, ?_, ?_, ?_, ?_⟩
  · exact fun id name t hn => hlater.bound hn
  · exact fun id t hlt hres => hlater.resolve_ok hin hlt hres
  · exact fun id labels hres => hlater.resolve_cyclic hres
  · exact fun id target fault after hbind => bind_refused hbind
  · exact fun n i l hl => hlater.link_settled hfurther hin hin' hl

/-- A chain of references (0, 1) to a character (2), and a ring of two more (3, 4). A pass
from a sequence (5) has failed when the chain had no end yet. -/
def earlyCommands : List Command :=
  [.call (.reference (some "a")), .call (.reference (some "b")), .call (.range (.single 'x')),
    .call (.reference (some "c")), .call (.reference none), .call (.bind 3 4),
    .call (.bind 4 3), .call (.sequence [0, 1, 2]), .call (.bind 0 1), .call (.compress 5),
    .call (.bind 1 2)]

/-- Two binds that are refused, a pass that succeeds, one that stops at the ring, a choice
(7) that leads to both, and a parse. -/
def midwayCommands : List Command :=
  [.call (.bind 0 3), .call (.bind 2 3), .call (.compress 5), .compressSilently 4,
    .call (.oneOf 5 0 [3]), .parse ⟨fun _ => none, 5, ⟨.ofString "xxx", 0, 0⟩⟩]

/-- A reference (8) that leads to the chain, another bind that is refused, a parser, and a
pass that fails once it has replaced a link. -/
def lateCommands : List Command :=
  [.call (.reference none), .call (.bind 8 0), .call (.bind 1 8), .call (.followedBy 5 8),
    .call (.prepare 9 .default), .call (.compress 7)]

/-- The state after the first of these commands. -/
def early : Session := earlyCommands.foldl Command.run .empty

/-- The state after those that follow. -/
def midway : Session := midwayCommands.foldl Command.run early

/-- The state after all of them. -/
def late : Session := lateCommands.foldl Command.run midway

/-- The first link of the sequence is replaced halfway. What it was replaced by, the chain
and the ring outlast the binds and passes after that. -/
theorem resolve_settled_late :
    History .empty early ∧ History early midway ∧ History midway late ∧
      midway.grammar.resolve 0 = .ok 2 ∧
      midway.grammar.resolve 3 =
        .error (.cyclicReference
          [Node.labelOf 3 (some "c"), Node.labelOf 4 none, Node.labelOf 3 (some "c")]) ∧
      bind 0 3 early = (.error (.alreadyBound (Node.labelOf 0 (some "a"))), early) ∧
      early.grammar.links 5 = [0, 1, 2] ∧
      (midway.grammar.links 5)[0]? = some 2 ∧ (late.grammar.links 5)[0]? = some 2 ∧
      late.grammar.resolve 0 = .ok 2 := by
  have hbefore : History .empty early := history_of_admits earlyCommands _ rfl
  have hlater : History early midway := history_of_admits midwayCommands _ rfl
  have hfurther : History midway late := history_of_admits lateCommands _ rfl
  obtain ⟨-, hres, hring, hbind, hlinks⟩ := resolve_settled hbefore hlater hfurther
  have hrefused : (bind 0 3 early).2 = early := (hbind 0 3 _ _ rfl).1
  obtain ⟨u, hu, hcases⟩ := hlinks 5 0 0 rfl
  have hreplaced : (midway.grammar.links 5)[0]? = some 2 := rfl
  cases hreplaced.symm.trans hu
  obtain h | ⟨-, -, hlink, hlate⟩ := hcases
  · cases h
  · exact ⟨hbefore, hlater, hfurther, hres 0 2 (by decide) rfl, (hring 3 _ rfl).1,
      Prod.ext rfl hrefused, rfl, hreplaced, hlink, hlate⟩

end Session

end PegGraph
