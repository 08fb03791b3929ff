/-
PegGraph.Proofs.Arithmetic.Definition — the arithmetic grammar as a store holds
it.

  §1 Rules    — the productions, written down.
  §2 Building — references and bodies, in any store.
  §3 Binding  — each reference is bound to the body of its production.
  §4 Parsers  — `parser_settles`: a parser is made, and lays out the rules.

A session may hold other grammars already. What is added leads to nothing that
was there, so they make no difference.
-/
import PegGraph.Arithmetic.Grammar
import PegGraph.Proofs.History
import PegGraph.Proofs.Layout

namespace PegGraph

namespace Arithmetic

open Grammar (Extends Lays Builds builds_add builds_followedBy builds_followedBy_sequence)

/-! ## §1 Rules -/

/-- The number that a digit stands for. -/
def digitNumber : Value → Except Fault Value := Action.digitValue.apply fun _ => none

/-- Operands with operators between them. -/
def chainRule (operand operator : Production) (fold : Value → Except Fault Value) :
    Rule Production :=
  .action (.sequence [.call operand, .repetition (.sequence [.call operator, .call operand])]) fold

/-- What each production stands for. -/
def rule : Production → Rule Production
  | .start => .action (.sequence [.call .sum, .endOfInput]) (Value.part 0)
  | .sum => chainRule .product .plus (Value.foldChain (· + ·))
  | .product => chainRule .factor .times (Value.foldChain (· * ·))
  | .factor => .choice (.call .number) (.call .parenthesised)
  | .parenthesised =>
    .action (.sequence [.call .leftParen, .call .sum, .call .rightParen]) (Value.part 1)
  | .number => .action (.call .digit) digitNumber
  | .plus => .range (.single '+')
  | .times => .range (.single '*')
  | .digit => .range .digits
  | .leftParen => .range (.single '(')
  | .rightParen => .range (.single ')')

theorem isCall_rule (p : Production) : (rule p).isCall = false := by cases p <;> rfl

/-! ## §2 Building -/

variable {g : Grammar} {nodes : Nodes}

/-- Each production gets a reference of its own. -/
structure Named (g g' : Grammar) (nodes : Nodes) (ps : List Production) : Prop where
  grows : g.Extends g'
  unbound : ∀ p ∈ ps, g'.node (nodes p) = .reference (some p.name) none
  fresh : ∀ p ∈ ps, g.size ≤ nodes p
  injective : ∀ p ∈ ps, ∀ q ∈ ps, nodes p = nodes q → p = q

theorem references_named (ps : List Production) (g : Grammar) :
    Named g (references ps g).2 (references ps g).1 ps := by
  induction ps generalizing g with
  | nil => exact ⟨.refl g, nofun, nofun, nofun⟩
  | cons p rest ih =>
    let g₁ := (Grammar.reference (some p.name) g).2
    have h : Named g₁ _ _ rest := ih g₁
    have hadd : g.Extends g₁ := .add g _
    have hlt : g.size < g₁.size := Nat.lt_of_lt_of_eq (Nat.lt_succ_self _) (Grammar.size_add ..).symm
    have hid : ∀ q, (references (p :: rest) g).1 q =
        if q = p then g.size else (references rest g₁).1 q := fun q => rfl
    have hfresh : ∀ q ∈ rest, g.size ≠ (references rest g₁).1 q := fun q hq =>
      Nat.ne_of_lt (hlt.trans_le (h.fresh q hq))
    refine ⟨hadd.trans h.grows, fun q hq => ?_, fun q hq => ?_, fun a ha b hb heq => ?_⟩
    · rw [hid]
      split
      · next heq =>
        subst heq
        exact (h.grows.node_eq g.size hlt).trans (Grammar.node_add_self _ g)
      · next hne => exact h.unbound q ((List.mem_cons.1 hq).resolve_left hne)
    · rw [hid]
      split
      · exact Nat.le_refl _
      · next hne =>
        exact hadd.size_le.trans (h.fresh q ((List.mem_cons.1 hq).resolve_left hne))
    · rw [hid, hid] at heq
      split at heq
      · next hap =>
        split at heq
        · next hbp => rw [hap, hbp]
        · next hne => exact absurd heq (hfresh b ((List.mem_cons.1 hb).resolve_left hne))
      · next hne =>
        have ha := (List.mem_cons.1 ha).resolve_left hne
        split at heq
        · exact absurd heq.symm (hfresh a ha)
        · next hne => exact h.injective a ha b ((List.mem_cons.1 hb).resolve_left hne) heq

theorem not_sequence (href : ∀ q, (g.node (nodes q)).isReference = true) (p : Production) :
    ∀ children mark, g.node (nodes p) ≠ .sequence children mark := by
  intro children mark heq
  have h := href p
  rw [heq] at h
  cases h

/-- A chain is built from its operands and operators, which are references. -/
theorem chain_builds (href : ∀ q, (g.node (nodes q)).isReference = true)
    (operand operator : Production) (fold : Value → Except Fault Value) :
    Builds nodes (chainRule operand operator fold)
      (chain (nodes operand) (nodes operator) (.pure fold)) g := by
  have hmore := builds_followedBy (not_sequence href operator) (.call operator) (.call operand)
  refine hmore.bind ?_
  have hrest : Builds nodes (.repetition (.sequence [.call operator, .call operand]))
      (Grammar.repetition _) _ := builds_add rfl rfl (.cons hmore.lays .nil)
  refine hrest.bind ?_
  have href' := fun q => hrest.grows.isReference (hmore.grows.isReference (href q))
  have hwhole := builds_followedBy (not_sequence href' operand) (.call operand) hrest.lays
  refine hwhole.bind ?_
  exact builds_add rfl rfl (.cons hwhole.lays .nil)

theorem body_builds (href : ∀ q, (g.node (nodes q)).isReference = true) (p : Production) :
    Builds nodes (rule p) (body nodes p) g := by
  cases p with
  | start =>
    have heoi : Builds nodes .endOfInput Grammar.endOfInput g := builds_add rfl rfl .nil
    refine heoi.bind ?_
    have href' := fun q => heoi.grows.isReference (href q)
    have hwhole := builds_followedBy (not_sequence href' .sum) (.call Production.sum) heoi.lays
    refine hwhole.bind ?_
    exact builds_add rfl rfl (.cons hwhole.lays .nil)
  | sum => exact chain_builds href ..
  | product => exact chain_builds href ..
  | factor => exact builds_add rfl rfl (.cons (.call _) (.cons (.call _) .nil))
  | parenthesised =>
    have hopened := builds_followedBy (not_sequence href .leftParen) (.call Production.leftParen)
      (.call Production.sum)
    refine hopened.bind ?_
    have hwhole := builds_followedBy_sequence hopened.lays (.call Production.rightParen)
    refine hwhole.bind ?_
    exact builds_add rfl rfl (.cons hwhole.lays .nil)
  | number => exact builds_add rfl rfl (.cons (.call _) .nil)
  | plus | times | digit | leftParen | rightParen => exact builds_add rfl rfl .nil

/-- Every production gets the node that its rule is laid out from. -/
theorem bodies_lay (ps : List Production) (g : Grammar)
    (href : ∀ q, (g.node (nodes q)).isReference = true) :
    g.Extends (bodies nodes ps g).2 ∧ (bodies nodes ps g).1.map Prod.fst = ps.map nodes ∧
      ∀ p ∈ ps, ∃ id, (nodes p, id) ∈ (bodies nodes ps g).1 ∧
        (bodies nodes ps g).2.Lays false nodes (rule p) id := by
  induction ps generalizing g with
  | nil => exact ⟨.refl g, rfl, nofun⟩
  | cons p rest ih =>
    have hbody := body_builds href p
    obtain ⟨hgrows, hkeys, hlays⟩ := ih (body nodes p g).2 fun q =>
      hbody.grows.isReference (href q)
    refine ⟨hbody.grows.trans hgrows, congrArg (nodes p :: ·) hkeys, fun q hq => ?_⟩
    rcases List.mem_cons.1 hq with rfl | hq
    · exact ⟨(body nodes q g).1, List.mem_cons_self, hgrows.lays hbody.lays⟩
    · obtain ⟨id, hid, hl⟩ := hlays q hq
      exact ⟨id, List.mem_cons_of_mem _ hid, hl⟩

/-! ## §3 Binding -/

theorem bindAll_cons {id target : NodeId} {rest : List (NodeId × NodeId)} {s s₁ : Session}
    (h : Session.bind id target s = (.ok (), s₁)) :
    Session.bindAll ((id, target) :: rest) s = Session.bindAll rest s₁ := by
  rw [Session.bindAll]
  simp only [bind, StateT.bind, h]

/-- Unbound references are bound one after another, and nothing else changes. -/
theorem bindAll_forwards (definitions : List (NodeId × NodeId)) (s : Session)
    (hnodup : (definitions.map Prod.fst).Nodup)
    (hunbound : ∀ d ∈ definitions, ∃ name, s.grammar.node d.1 = .reference name none) :
    ∃ s', Session.bindAll definitions s = (.ok (), s') ∧
      (∀ d ∈ definitions, s'.grammar.Forwards d.1 d.2) ∧
      ∀ n, n ∉ definitions.map Prod.fst → s'.grammar.node n = s.grammar.node n := by
  induction definitions generalizing s with
  | nil => exact ⟨s, rfl, nofun, fun _ _ => rfl⟩
  | cons d rest ih =>
    obtain ⟨id, target⟩ := d
    obtain ⟨name, hid⟩ := hunbound (id, target) List.mem_cons_self
    obtain ⟨hnotin, hnodup⟩ := List.nodup_cons.1 hnodup
    have hlt : id < s.grammar.size := Grammar.lt_size_of_isReference (by rw [hid]; rfl)
    -- the first binding leaves the other references as they are
    obtain ⟨s₁, hbind, hset⟩ := Grammar.bind_session hid target
    have hne : ∀ d ∈ rest, d.1 ≠ id := fun d hd heq =>
      hnotin (List.mem_map.2 ⟨d, hd, heq⟩)
    obtain ⟨s', hrest, hbound, hkeep⟩ := ih s₁ hnodup fun d hd => by
      obtain ⟨name, heq⟩ := hunbound d (List.mem_cons_of_mem _ hd)
      rw [hset]
      exact ⟨name, (Grammar.node_set_ne (hne d hd) _).trans heq⟩
    rw [hset] at hkeep
    refine ⟨s', ?_, fun d hd => ?_, fun n hn => ?_⟩
    · rw [bindAll_cons hbind, hrest]
    · rcases List.mem_cons.1 hd with rfl | hd
      · exact ⟨name, (hkeep id hnotin).trans (Grammar.node_set_self hlt _)⟩
      · exact hbound d hd
    · rw [List.map_cons, List.mem_cons, not_or] at hn
      rw [hkeep n hn.2]
      exact Grammar.node_set_ne hn.1 _

theorem nodup_all : Production.all.Nodup := by decide

/-- The grammar is added to a session: the rules of its productions are laid out
on references that are bound to them. -/
theorem define_defines (s : Session) : ∃ (nodes : Nodes) (s' : Session) (own : Nodes),
    define s = (.ok nodes, s') ∧ s'.grammar.Defines rule nodes own := by
  have hnamed := references_named Production.all s.grammar
  cases hrefs : references Production.all s.grammar with
  | mk nodes g₁ =>
    rw [hrefs] at hnamed
    have hmem := Production.mem_all
    have href : ∀ q, (g₁.node (nodes q)).isReference = true := fun q => by
      rw [hnamed.unbound q (hmem q)]
      rfl
    have hinjective : Function.Injective nodes := fun p q =>
      hnamed.injective p (hmem p) q (hmem q)
    obtain ⟨hgrows, hkeys, hlays⟩ := bodies_lay Production.all g₁ href
    cases hbodies : bodies nodes Production.all g₁ with
    | mk definitions g₂ =>
      rw [hbodies] at hgrows hkeys hlays
      have hunbound : ∀ d ∈ definitions, ∃ name, g₂.node d.1 = .reference name none := by
        intro d hd
        have hkey : d.1 ∈ Production.all.map nodes := hkeys ▸ List.mem_map_of_mem hd
        obtain ⟨p, hp, hpd⟩ := List.mem_map.1 hkey
        refine ⟨some p.name, ?_⟩
        rw [← hpd, hgrows.node_eq _ (Grammar.lt_size_of_isReference (href p)),
          hnamed.unbound p hp]
      obtain ⟨s', hbind, hbound, hkeep⟩ := bindAll_forwards definitions { s with grammar := g₂ }
        (hkeys ▸ nodup_all.map hinjective) hunbound
      choose own hdefinition hown using fun p => hlays p (hmem p)
      refine ⟨nodes, s', own, ?_, fun p => hbound _ (hdefinition p), fun p => ?_, isCall_rule⟩
      · unfold define
        simp only [bind, StateT.bind, Session.build, hrefs, hbodies, hbind]
        rfl
      · refine (hown p).keep fun n hn => hkeep n fun hkey => ?_
        obtain ⟨d, hd, rfl⟩ := List.mem_map.1 hkey
        obtain ⟨name, heq⟩ := hunbound d hd
        have href := hn.not_reference
        rw [heq] at href
        cases href

/-! ## §4 Parsers -/

section Reach

open Grammar (Mentions)

theorem mentions_operand (operand operator : Production) (fold : Value → Except Fault Value) :
    Mentions operand (chainRule operand operator fold) :=
  .part (List.mem_singleton_self _) (.part List.mem_cons_self .call)

theorem mentions_operator (operand operator : Production) (fold : Value → Except Fault Value) :
    Mentions operator (chainRule operand operator fold) :=
  .part (List.mem_singleton_self _) (.part (List.mem_cons_of_mem _ (List.mem_singleton_self _))
    (.part (List.mem_singleton_self _) (.part List.mem_cons_self .call)))

/-- Every production is reached from the start. -/
theorem reaches_all {nodes own : Nodes} (h : g.Defines rule nodes own) (p : Production) :
    g.Reaches (nodes .start) (nodes p) := by
  have hstep : ∀ {p q : Production}, Mentions q (rule p) → g.Reaches (nodes .start) (nodes p) →
      g.Reaches (nodes .start) (nodes q) := fun {p q} hq hr =>
    (hr.tail (Grammar.Forwards.linked (h.bound p))).trans ((h.lays p).reaches_site hq)
  have hsum : g.Reaches (nodes .start) (nodes .sum) :=
    hstep (.part (List.mem_singleton_self _) (.part List.mem_cons_self .call)) .refl
  have hproduct := hstep (p := .sum) (mentions_operand ..) hsum
  have hfactor := hstep (p := .product) (mentions_operand ..) hproduct
  have hnumber : g.Reaches (nodes .start) (nodes .number) :=
    hstep (p := .factor) (.part List.mem_cons_self .call) hfactor
  have hparenthesised : g.Reaches (nodes .start) (nodes .parenthesised) :=
    hstep (p := .factor) (.part (List.mem_cons_of_mem _ (List.mem_singleton_self _)) .call) hfactor
  cases p with
  | start => exact .refl
  | sum => exact hsum
  | product => exact hproduct
  | factor => exact hfactor
  | parenthesised => exact hparenthesised
  | number => exact hnumber
  | plus => exact hstep (p := .sum) (mentions_operator ..) hsum
  | times => exact hstep (p := .product) (mentions_operator ..) hproduct
  | digit => exact hstep (p := .number) (.part (List.mem_singleton_self _) .call) hnumber
  | leftParen =>
    exact hstep (p := .parenthesised) (.part (List.mem_singleton_self _)
      (.part List.mem_cons_self .call)) hparenthesised
  | rightParen =>
    exact hstep (p := .parenthesised) (.part (List.mem_singleton_self _)
      (.part (List.mem_cons_of_mem _ (List.mem_cons_of_mem _ (List.mem_singleton_self _))) .call))
      hparenthesised

end Reach

/-- **A parser of arithmetic expressions is made** in any session, under any
configuration, and the rules of the grammar are laid out in what it parses
with. -/
theorem parser_settles (config : Parser.Config) (s : Session) :
    ∃ (parser : Parser) (s' : Session) (own : Nodes),
      Arithmetic.parser config s = (.ok parser, s') ∧ parser.config = config ∧
      s'.grammar.Settles rule own ∧ s'.grammar.Lays true own (.call .start) parser.root := by
  obtain ⟨nodes, s₁, own, hdefine, hdefines⟩ := define_defines s
  obtain ⟨parser, s', hprepare, hconfig, hsettles, hlays⟩ :=
    hdefines.prepareParser (.call .start) (reaches_all hdefines) config
  refine ⟨parser, s', own, ?_, hconfig, hsettles, hlays⟩
  unfold Arithmetic.parser
  simp only [bind, StateT.bind, hdefine, hprepare]

end Arithmetic

end PegGraph
