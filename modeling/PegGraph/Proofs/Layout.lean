/-
PegGraph.Proofs.Layout — rules laid out as nodes, from construction to parsing.

  §1 Nodes       — the node of a rule, over the nodes of its parts.
  §2 Layouts     — which nodes a rule is laid out on.
  §3 Transport   — a layout through a change of the store.
  §4 Definitions — rules laid out on references that are bound to them.
  §5 Compression — the references taken out of a layout.
  §6 Parses      — a node matches what the rule that it lays out matches.
  §7 Building    — layouts grow from the parts.
  §8 Sessions    — references bound and parsers prepared in a session.

Before compression a name leads to a reference, and from there to the node that
it is bound to; afterwards it leads to that node. So a layout is stated for any
sites of the names, and compression carries a layout on the references over to
one on what they are bound to. From then on a parse does not depend on where in
the store a grammar lies.
-/
import PegGraph.Proofs.Backtracking
import PegGraph.Proofs.Rules
import PegGraph.Proofs.Walk
import PegGraph.Session

namespace PegGraph

variable {ι : Type} {mark mark' : Bool} {rule : Rule ι} {ids : List NodeId}

/-! ## §1 Nodes -/

/-- A node that acts for itself; its mark, if it has one, is as given. -/
structure Node.IsPlain (mark : Bool) (node : Node) : Prop where
  not_abstract : node ≠ .abstract
  not_reference : node.isReference = false
  compressed_eq : node.isComposite = true → node.compressed = mark

namespace Rule

/-- The parts that a rule is made of, from left to right. -/
def parts : Rule ι → List (Rule ι)
  | .sequence parts => parts
  | .choice first second => [first, second]
  | .repetition part => [part]
  | .action part _ => [part]
  | _ => []

/-- The node of a rule, with links for its parts. -/
def node (mark : Bool) : Rule ι → List NodeId → Node
  | .range bounds, _ => .range bounds
  | .sequence _, ids => .sequence ids mark
  | .choice _ _, [a, b] => .choice a b mark
  | .repetition _, [a] => .repetition a mark
  | .action _ f, [a] => .action a (.pure f) mark
  | .endOfInput, _ => .endOfInput
  | _, _ => .abstract

/-- A node that is laid out has one link for each part. -/
theorem links_node (hcall : rule.isCall = false) (hlength : ids.length = rule.parts.length) :
    (rule.node mark ids).links = ids := by
  cases rule with
  | call => cases hcall
  | range | endOfInput => exact (List.eq_nil_of_length_eq_zero hlength).symm
  | sequence => rfl
  | choice =>
    obtain ⟨a, b, rfl⟩ := List.length_eq_two.1 hlength
    rfl
  | repetition | action =>
    obtain ⟨a, rfl⟩ := List.length_eq_one_iff.1 hlength
    rfl

theorem isPlain_node (hcall : rule.isCall = false) (hlength : ids.length = rule.parts.length) :
    (rule.node mark ids).IsPlain mark := by
  cases rule with
  | call => cases hcall
  | range | endOfInput => exact ⟨nofun, rfl, nofun⟩
  | sequence => exact ⟨nofun, rfl, fun _ => rfl⟩
  | choice =>
    obtain ⟨a, b, rfl⟩ := List.length_eq_two.1 hlength
    exact ⟨nofun, rfl, fun _ => rfl⟩
  | repetition | action =>
    obtain ⟨a, rfl⟩ := List.length_eq_one_iff.1 hlength
    exact ⟨nofun, rfl, fun _ => rfl⟩

theorem isComposite_node (hlength : ids.length = rule.parts.length) :
    (rule.node mark ids).isComposite = rule.isComposite := by
  cases rule with
  | call | range | endOfInput | sequence => rfl
  | choice =>
    obtain ⟨a, b, rfl⟩ := List.length_eq_two.1 hlength
    rfl
  | repetition | action =>
    obtain ⟨a, rfl⟩ := List.length_eq_one_iff.1 hlength
    rfl

theorem isPure_node (rule : Rule ι) (mark : Bool) (ids : List NodeId) :
    (rule.node mark ids).isPure = true := by
  unfold node
  split <;> rfl

theorem mapLinks_node (rule : Rule ι) (mark mark' : Bool) (ids : List NodeId)
    (f : NodeId → NodeId) :
    ((rule.node mark ids).mapLinks f).setCompressed mark' = rule.node mark' (ids.map f) := by
  cases rule with
  | call | range | sequence | endOfInput => rfl
  | choice =>
    match ids with
    | [a, b] => rfl
    | [] | [_] | _ :: _ :: _ :: _ => rfl
  | repetition | action =>
    match ids with
    | [a] => rfl
    | [] | _ :: _ :: _ => rfl

end Rule

namespace Grammar

open Peg (Matcher)

variable {g g' : Grammar} {site site' ref own : ι → NodeId} {rules : ι → Rule ι}
  {id root n m l u : NodeId} {name : ι}

/-! ## §2 Layouts -/

/-- A rule is laid out from a node on: a name at its site, and any other rule at
a node of its kind with links to where its parts are laid out. -/
inductive Lays (g : Grammar) (mark : Bool) (site : ι → NodeId) : Rule ι → NodeId → Prop where
  | call (name : ι) : Lays g mark site (.call name) (site name)
  | made {rule : Rule ι} {id : NodeId} {ids : List NodeId} (hcall : rule.isCall = false)
    (hnode : g.node id = rule.node mark ids) (hlength : ids.length = rule.parts.length)
    (hparts : ∀ i hpart hid, Lays g mark site (rule.parts.get ⟨i, hpart⟩) (ids.get ⟨i, hid⟩)) :
    Lays g mark site rule id

/-- A name occurs in a rule. -/
inductive Mentions (name : ι) : Rule ι → Prop where
  | call : Mentions name (.call name)
  | part {rule part : Rule ι} (hmem : part ∈ rule.parts) (h : Mentions name part) :
    Mentions name rule

namespace Lays

theorem of_parts (hcall : rule.isCall = false) (hnode : g.node id = rule.node mark ids)
    (h : List.Forall₂ (g.Lays mark site) rule.parts ids) : g.Lays mark site rule id := by
  obtain ⟨hlength, hparts⟩ := List.forall₂_iff_get.1 h
  exact .made hcall hnode hlength.symm hparts

theorem exists_parts (h : g.Lays mark site rule id) (hcall : rule.isCall = false) :
    ∃ ids, g.node id = rule.node mark ids ∧ List.Forall₂ (g.Lays mark site) rule.parts ids := by
  cases h with
  | call => cases hcall
  | made _ hnode hlength hparts =>
    exact ⟨_, hnode, List.forall₂_iff_get.2 ⟨hlength.symm, hparts⟩⟩

theorem isPlain (h : g.Lays mark site rule id) (hcall : rule.isCall = false) :
    (g.node id).IsPlain mark := by
  obtain ⟨ids, hnode, hparts⟩ := h.exists_parts hcall
  rw [hnode]
  exact Rule.isPlain_node hcall hparts.length_eq.symm

/-- The links of a layout lead to layouts. -/
theorem linked (h : g.Lays mark site rule id) (hcall : rule.isCall = false)
    (hl : g.Linked id l) : ∃ part, g.Lays mark site part l := by
  obtain ⟨ids, hnode, hparts⟩ := h.exists_parts hcall
  unfold Linked links at hl
  rw [hnode, Rule.links_node hcall hparts.length_eq.symm] at hl
  obtain ⟨i, hi, rfl⟩ := List.mem_iff_getElem.1 hl
  obtain ⟨hlength, hget⟩ := List.forall₂_iff_get.1 hparts
  exact ⟨_, hget i (hlength ▸ hi) hi⟩

/-- A layout reaches the sites of the names that occur in it. -/
theorem reaches_site (h : g.Lays mark site rule id) (hname : Mentions name rule) :
    g.Reaches id (site name) := by
  induction hname generalizing id with
  | call =>
    cases h with
    | call => exact .refl
    | made hcall => cases hcall
  | @part rule part hmem _ ih =>
    have hcall : rule.isCall = false := by cases rule <;> first | rfl | cases hmem
    obtain ⟨ids, hnode, hparts⟩ := h.exists_parts hcall
    obtain ⟨hlength, hget⟩ := List.forall₂_iff_get.1 hparts
    obtain ⟨i, hi, rfl⟩ := List.mem_iff_getElem.1 hmem
    refine .head ?_ (ih (hget i hi (hlength ▸ hi)))
    unfold Linked links
    rw [hnode, Rule.links_node hcall hlength.symm]
    exact List.get_mem ids _

end Lays

/-! ## §3 Transport -/

/-- A change of the store in a region that links do not leave: plain nodes have
their links replaced and their marks set, and sites are moved. -/
structure Transport (g g' : Grammar) (mark mark' : Bool) (site site' : ι → NodeId)
    (f : NodeId → NodeId) (region : NodeId → Prop) : Prop where
  node_eq : ∀ n, region n → (g.node n).IsPlain mark →
    g'.node n = ((g.node n).mapLinks f).setCompressed mark'
  closed : ∀ n l, region n → g.Linked n l → region l
  fixed : ∀ n, region n → (g.node n).isReference = false → f n = n
  site_eq : ∀ name, region (site name) → f (site name) = site' name

/-- A layout goes along. -/
theorem Lays.transport {f : NodeId → NodeId} {region : NodeId → Prop}
    (ht : Transport g g' mark mark' site site' f region) (h : g.Lays mark site rule id)
    (hin : region id) : g'.Lays mark' site' rule (f id) := by
  induction h with
  | call name =>
    rw [ht.site_eq name hin]
    exact .call name
  | @made rule id ids hcall hnode hlength hparts ih =>
    have hplain : (g.node id).IsPlain mark := hnode ▸ Rule.isPlain_node hcall hlength
    rw [ht.fixed id hin hplain.not_reference]
    have heq : g'.node id = rule.node mark' (ids.map f) := by
      rw [ht.node_eq id hin hplain, hnode, Rule.mapLinks_node]
    refine .of_parts hcall heq ?_
    rw [List.forall₂_map_right_iff, List.forall₂_iff_get]
    refine ⟨hlength.symm, fun i hpart hid => ih i hpart hid (ht.closed id _ hin ?_)⟩
    unfold Linked links
    rw [hnode, Rule.links_node hcall hlength]
    exact List.get_mem ids ⟨i, hid⟩

/-- A layout stays where unmarked nodes that act for themselves stay. -/
theorem Lays.keep (h : g.Lays false site rule id)
    (hkeep : ∀ n, (g.node n).IsPlain false → g'.node n = g.node n) :
    g'.Lays false site rule id := by
  have ht : Transport g g' false false site site (fun n => n) fun _ => True := by
    refine ⟨fun n _ hn => ?_, fun _ _ _ _ => trivial, fun _ _ _ => rfl, fun _ _ => rfl⟩
    rw [hkeep n hn]
    have hmark := hn.compressed_eq
    generalize g.node n = node at hmark
    cases node with
    | sequence ids mark =>
      cases hmark rfl
      simp only [Node.mapLinks, List.map_id_fun', id_eq, Node.setCompressed]
    | choice | repetition | action =>
      cases hmark rfl
      rfl
    | _ => rfl
  exact h.transport ht trivial

/-! ## §4 Definitions -/

/-- Each name has a reference that is bound to a node, from which on the rule of
the name is laid out. -/
structure Defines (g : Grammar) (rules : ι → Rule ι) (ref own : ι → NodeId) : Prop where
  bound : ∀ name, g.Forwards (ref name) (own name)
  lays : ∀ name, g.Lays false ref (rules name) (own name)
  proper : ∀ name, (rules name).isCall = false

namespace Defines

theorem standsFor (h : g.Defines rules ref own) (name : ι) :
    g.StandsFor (ref name) (own name) :=
  .forward (h.bound name) (.self ((h.lays name).isPlain (h.proper name)).not_reference)

/-- What is reached from a layout is the layout of something. -/
theorem lays_of_reaches (h : g.Defines rules ref own) (hl : g.Lays false ref rule root)
    (hr : g.Reaches root n) : ∃ part, g.Lays false ref part n := by
  induction hr with
  | refl => exact ⟨rule, hl⟩
  | @tail b c _ hlink ih =>
    obtain ⟨part, hpart⟩ := ih
    cases hcall : part.isCall with
    | false => exact hpart.linked hcall hlink
    | true =>
      cases hpart with
      | made hcall' => rw [hcall'] at hcall; cases hcall
      | call name =>
        have hf := forwards_of_linked (h.bound name).isReference hlink
        cases (h.bound name).unique hf
        exact ⟨rules name, h.lays name⟩

theorem cases_of_reaches (h : g.Defines rules ref own) (hl : g.Lays false ref rule root)
    (hr : g.Reaches root n) : (∃ name, n = ref name) ∨ (g.node n).IsPlain false := by
  obtain ⟨part, hpart⟩ := h.lays_of_reaches hl hr
  cases hcall : part.isCall with
  | false => exact .inr (hpart.isPlain hcall)
  | true =>
    cases hpart with
    | call name => exact .inl ⟨name, rfl⟩
    | made hcall' => rw [hcall'] at hcall; cases hcall

theorem fresh (h : g.Defines rules ref own) (hl : g.Lays false ref rule root) : g.Fresh root := by
  intro n hr
  rcases h.cases_of_reaches hl hr with ⟨name, rfl⟩ | hplain
  · obtain ⟨_, heq⟩ := h.bound name
    rw [heq]
    rfl
  · cases hm : (g.node n).compressed with
    | false => rfl
    | true =>
      rw [hplain.compressed_eq (Node.isComposite_of_compressed hm)] at hm
      cases hm

theorem complete (h : g.Defines rules ref own) (hl : g.Lays false ref rule root) :
    g.Complete root := by
  intro n hr
  rcases h.cases_of_reaches hl hr with ⟨name, rfl⟩ | hplain
  · refine ⟨fun heq => ?_, fun _ => ⟨own name, h.standsFor name⟩⟩
    have href := (h.bound name).isReference
    rw [heq] at href
    cases href
  · refine ⟨hplain.not_abstract, fun href => ?_⟩
    rw [hplain.not_reference] at href
    cases href

end Defines

/-! ## §5 Compression -/

/-- Names lead to nodes, and from each on the rule of the name is laid out, in
marked nodes. -/
def Settles (g : Grammar) (rules : ι → Rule ι) (own : ι → NodeId) : Prop :=
  ∀ name, g.Lays true own (rules name) (own name)

/-- Compression takes the references out of a layout that reaches every name. -/
theorem Defines.compress (h : g.Defines rules ref own) (hl : g.Lays false ref rule root)
    (hall : ∀ name, g.Reaches root (ref name)) :
    ∃ g', g.compress root = (.ok (g.target root), g') ∧ g'.Settles rules own ∧
      g'.Lays true own rule (g.target root) := by
  obtain ⟨u, g', hu⟩ := (h.complete hl).compress_succeeds
  have hdone := (h.fresh hl).compressed hu
  have htarget : ∀ {n}, (g.node n).isReference = false → g.target n = n := fun href =>
    (StandsFor.self href).target_eq
  have hroot : g.target root = u := (compress_settled hu).1.target_eq
  have ht : Transport g g' false true ref own g.target (g.Reaches root) := by
    refine ⟨fun n hr hn => ?_, fun n l hr hl => hr.tail hl, fun n _ => htarget, fun name _ => ?_⟩
    · cases hc : (g.node n).isComposite with
      | true => exact hdone.composites n hr hc
      | false =>
        rw [hdone.leaves n hc]
        generalize g.node n = node at hc
        cases node <;> first | rfl | cases hc
    · exact (h.standsFor name).target_eq
  refine ⟨g', by rw [hroot, hu], fun name => ?_, hl.transport ht .refl⟩
  have hlays := (h.lays name).transport ht
    ((hall name).tail (Forwards.linked (h.bound name)))
  rwa [htarget ((h.lays name).isPlain (h.proper name)).not_reference] at hlays

/-- Preparation finds nothing unbound. -/
theorem Defines.prepare (h : g.Defines rules ref own) (hl : g.Lays false ref rule root)
    (hall : ∀ name, g.Reaches root (ref name)) (config : Parser.Config) :
    ∃ parser g', Parser.prepare root config g = (.ok parser, g') ∧ parser.config = config ∧
      g'.Settles rules own ∧ g'.Lays true own rule parser.root := by
  obtain ⟨g', hcompress, hsettles, hlays⟩ := h.compress hl hall
  refine ⟨⟨g.target root, config, g'.count (g.target root)⟩, g', ?_, rfl, hsettles, hlays⟩
  unfold Parser.prepare
  rw [(h.complete hl).unboundReferences_eq, hcompress]

/-! ## §6 Parses -/

variable {source : Source} {limit : Int}

/-- A layout is that of a rule other than a name. -/
theorem Settles.body (h : g.Settles rules own) (hproper : ∀ name, (rules name).isCall = false)
    (hl : g.Lays true own rule id) :
    g.Lays true own (rule.body rules) id ∧ (rule.body rules).isCall = false := by
  cases hl with
  | call name => exact ⟨h name, hproper name⟩
  | made hcall hnode hlength hparts =>
    have hbody : rule.body rules = rule := by
      unfold Rule.body
      split
      · cases hcall
      · rfl
    rw [hbody]
    exact ⟨.made hcall hnode hlength hparts, hcall⟩

/-- What is reached from a layout is the layout of something. -/
theorem Settles.lays_of_reaches (h : g.Settles rules own)
    (hproper : ∀ name, (rules name).isCall = false) (hl : g.Lays true own rule root)
    (hr : g.Reaches root n) : ∃ part, g.Lays true own part n := by
  induction hr with
  | refl => exact ⟨rule, hl⟩
  | tail _ hlink ih =>
    obtain ⟨part, hpart⟩ := ih
    obtain ⟨hbody, hcall⟩ := h.body hproper hpart
    exact hbody.linked hcall hlink

/-- Layouts hold pure actions alone. -/
theorem Settles.actsPurely (h : g.Settles rules own)
    (hproper : ∀ name, (rules name).isCall = false) (hl : g.Lays true own rule root) :
    g.ActsPurely root := by
  intro n hr
  obtain ⟨part, hpart⟩ := h.lays_of_reaches hproper hl hr
  obtain ⟨hpart, hcall⟩ := h.body hproper hpart
  obtain ⟨ids, hnode, _⟩ := hpart.exists_parts hcall
  rw [hnode]
  exact Rule.isPure_node ..

/-- The node of a rule matches what the rule does, if its links match what the
parts do. -/
theorem evalNode_node {inner : NodeId → Matcher Value} {inner' : Rule ι → Matcher Value}
    (hcall : rule.isCall = false)
    (h : List.Forall₂ (fun part a => inner a = inner' part) rule.parts ids) :
    Peg.evalNode source inner id (rule.node mark ids) = rule.evalParts source inner' := by
  cases rule with
  | call => cases hcall
  | range | endOfInput => rfl
  | sequence parts =>
    have hmap : ids.map inner = parts.map inner' := by
      change List.Forall₂ _ parts ids at h
      induction h with
      | nil => rfl
      | cons ha _ ih => rw [List.map_cons, List.map_cons, ha, ih rfl]
    simp only [Rule.node, Peg.evalNode, Rule.evalParts, hmap]
  | choice =>
    obtain _ | ⟨ha, _ | ⟨hb, _ | _⟩⟩ := h
    simp only [Rule.node, Peg.evalNode, Rule.evalParts, ha, hb]
  | repetition =>
    obtain _ | ⟨ha, _ | _⟩ := h
    simp only [Rule.node, Peg.evalNode, Rule.evalParts, ha]
  | action =>
    obtain _ | ⟨ha, _ | _⟩ := h
    simp only [Rule.node, Peg.evalNode, Rule.evalParts, ha]
    rfl

/-- **A layout matches what its rule does**, with the same headroom. -/
theorem Settles.eval_eq (h : g.Settles rules own) (hproper : ∀ name, (rules name).isCall = false)
    (hl : g.Lays true own rule id) (headroom : Nat) :
    Peg.eval g source limit headroom id = rule.eval rules source limit headroom := by
  induction headroom generalizing rule id with
  | zero =>
    obtain ⟨hbody, hcall⟩ := h.body hproper hl
    obtain ⟨ids, hnode, hparts⟩ := hbody.exists_parts hcall
    unfold Peg.eval Rule.eval
    rw [hnode, Rule.isComposite_node hparts.length_eq.symm]
    rw [evalNode_node hcall (hparts.imp fun _ _ _ => rfl)]
  | succ headroom ih =>
    obtain ⟨hbody, hcall⟩ := h.body hproper hl
    obtain ⟨ids, hnode, hparts⟩ := hbody.exists_parts hcall
    unfold Peg.eval Rule.eval
    rw [hnode]
    exact evalNode_node hcall (hparts.imp fun part a ha => ih ha)

/-- A parser whose root lays out a rule tries a source as the rule does, with the
headroom of its own limit, unless the source is too large. -/
theorem Settles.tryParse_eq (h : g.Settles rules own)
    (hproper : ∀ name, (rules name).isCall = false) {parser : Parser}
    (hl : g.Lays true own rule parser.root) (readDepth : Int → String → Option Int)
    (source : Source) : (parser.tryParse g readDepth source).1 =
      if parser.config.tooLarge source then
        .failed (.sourceTooLarge source.length parser.config.maxSourceSize)
      else (rule.eval rules source (clampDepth parser.config.maxDepth)
        (clampDepth parser.config.maxDepth).toNat 0).outcome := by
  unfold Parser.tryParse Parser.cursor
  cases parser.config.tooLarge source with
  | true => rfl
  | false =>
    have hcheck : Cursor.checkPosition source 0 = .ok () := if_pos ⟨Int.le_refl 0, by omega⟩
    let guard := DepthGuard.ofRequest parser.config.maxDepth
    have hroom : guard.headroom = (clampDepth parser.config.maxDepth).toNat := by
      unfold DepthGuard.headroom
      rw [show guard.currentDepth = 0 from rfl, Int.sub_zero]
      rfl
    have hagree := (Parse.follows_attempt ⟨g, source, .reject, readDepth⟩ rfl guard.headroom guard
      (Nat.le_refl _) (h.actsPurely hproper hl) { pos := (0 : Nat), guard, events := [] } 0
      (Nat.zero_le _) rfl rfl).outcome_eq
    rw [h.eval_eq hproper hl] at hagree
    simp only [Bool.false_eq_true, if_false, Cursor.new, hcheck]
    rw [← hroom]
    exact hagree

/-! ## §7 Building -/

/-- Nodes were added, and none was changed. -/
structure Extends (g g' : Grammar) : Prop where
  size_le : g.size ≤ g'.size
  node_eq : ∀ n, n < g.size → g'.node n = g.node n

namespace Extends

theorem refl (g : Grammar) : g.Extends g := ⟨Nat.le_refl _, fun _ _ => rfl⟩

theorem trans {k : Grammar} (h : g.Extends g') (h' : g'.Extends k) : g.Extends k := by
  refine ⟨h.size_le.trans h'.size_le, fun n hn => ?_⟩
  rw [h'.node_eq n (hn.trans_le h.size_le), h.node_eq n hn]

theorem add (g : Grammar) (node : Node) : g.Extends (Grammar.add node g).2 :=
  ⟨by rw [size_add]; exact Nat.le_succ _, fun _ hn => node_add_of_lt node hn⟩

theorem isReference (h : g.Extends g') (href : (g.node n).isReference = true) :
    (g'.node n).isReference = true := by
  rw [h.node_eq n (lt_size_of_isReference href), href]

theorem lays (h : g.Extends g') (hl : g.Lays false site rule id) :
    g'.Lays false site rule id := by
  refine hl.keep fun n hn => h.node_eq n (Nat.lt_of_not_le fun hle => ?_)
  exact hn.not_abstract (node_of_size_le hle)

end Extends

/-- A step of construction adds the nodes that a rule is laid out on, and yields
the first of them. -/
structure Builds (site : ι → NodeId) (rule : Rule ι) (step : Build NodeId) (g : Grammar) :
    Prop where
  grows : g.Extends (step g).2
  lays : (step g).2.Lays false site rule (step g).1

theorem builds_add {node : Node} (hcall : rule.isCall = false) (hnode : node = rule.node false ids)
    (h : List.Forall₂ (g.Lays false site) rule.parts ids) : Builds site rule (add node) g where
  grows := .add g node
  lays := by
    refine .of_parts hcall ((node_add_self node g).trans hnode) ?_
    exact h.imp fun _ _ => (Extends.add g node).lays

theorem Builds.bind {part : Rule ι} {step : Build NodeId} {next : NodeId → Build NodeId}
    (h : Builds site part step g) (h' : Builds site rule (next (step g).1) (step g).2) :
    Builds site rule (step >>= next) g :=
  ⟨h.grows.trans h'.grows, h'.lays⟩

theorem Builds.congr {step step' : Build NodeId} (h : Builds site rule step g)
    (heq : step' g = step g) : Builds site rule step' g := by
  refine ⟨?_, ?_⟩
  · rw [heq]
    exact h.grows
  · rw [heq]
    exact h.lays

variable {first second : Rule ι} {other : NodeId}

theorem builds_followedBy (hid : ∀ children mark, g.node id ≠ .sequence children mark)
    (hfirst : g.Lays false site first id) (hsecond : g.Lays false site second other) :
    Builds site (.sequence [first, second]) (followedBy id other) g := by
  refine Builds.congr (builds_add rfl rfl (.cons hfirst (.cons hsecond .nil))) ?_
  unfold followedBy
  split
  · next heq => exact absurd heq (hid _ _)
  · rfl

/-- A sequence is extended by one part. -/
theorem builds_followedBy_sequence {parts : List (Rule ι)}
    (hfirst : g.Lays false site (.sequence parts) id) (hsecond : g.Lays false site second other) :
    Builds site (.sequence (parts ++ [second])) (followedBy id other) g := by
  obtain ⟨ids, hnode, hparts⟩ := hfirst.exists_parts rfl
  refine Builds.congr (builds_add rfl rfl (List.rel_append hparts (.cons hsecond .nil))) ?_
  unfold followedBy
  rw [hnode]
  rfl

/-! ## §8 Sessions -/

/-- A reference without a target is bound, and the grammar is otherwise as it was. -/
theorem bind_session {s : Session} {label : Option String}
    (h : s.grammar.node id = .reference label none) (target : NodeId) :
    ∃ s', Session.bind id target s = (.ok (), s') ∧
      s'.grammar = s.grammar.set id (.reference label (some target)) := by
  let notice := Notice.referenceBound (s.grammar.label id) (s.describe target)
  refine ⟨{ s with
    grammar := s.grammar.set id (.reference label (some target))
    notices := notice :: s.notices }, ?_, rfl⟩
  unfold Session.bind Grammar.bind
  rw [h]

/-- A parser is prepared in a session that holds the definitions. -/
theorem Defines.prepareParser {s : Session} (h : s.grammar.Defines rules ref own)
    (hl : s.grammar.Lays false ref rule root) (hall : ∀ name, s.grammar.Reaches root (ref name))
    (config : Parser.Config) :
    ∃ parser s', Session.prepareParser root config s = (.ok parser, s') ∧
      parser.config = config ∧ s'.grammar.Settles rules own ∧
      s'.grammar.Lays true own rule parser.root := by
  obtain ⟨parser, g', hprepare, hconfig, hsettles, hlays⟩ := h.prepare hl hall config
  let compressed := Notice.grammarCompressed (g'.node parser.root).describe
  let ready := Notice.parserReady parser.nodeCount config.maxDepth config.maxSourceSize
  refine ⟨parser, { s with grammar := g', notices := ready :: compressed :: s.notices }, ?_,
    hconfig, hsettles, hlays⟩
  unfold Session.prepareParser
  rw [hprepare]

end Grammar

end PegGraph
