/-
PegGraph.Proofs.NestedList.Definition — the grammar of nested lists as a store
holds it.

  §1 Rules   — the notation, written down.
  §2 Stock   — the nodes that are added, one after another.
  §3 Parsers — `parser_settles`: a parser is made, and lays out the rules.

The grammar has one name, for values. All other rules are laid out on nodes of their
own, so one table of nodes shows the whole grammar; what each rule needs is looked
up in it.
-/
import PegGraph.NestedList
import PegGraph.Proofs.Layout

namespace PegGraph.NestedList

open Grammar (Lays Extends)

/-! ## §1 Rules -/

/-- The number that a first digit and a tuple of further digits stand for. -/
def numeral : Value → Except Fault Value := integerAction.apply fun _ => none

/-- The list of a first item and a tuple of further items. -/
def gather : Value → Except Fault Value := itemsAction.apply fun _ => none

def integerRule : Rule Unit :=
  .action (.sequence [.range .digits, .repetition (.range .digits)]) numeral

/-- A comma and an item. -/
def moreRule : Rule Unit := .sequence [.range (.single ','), .call ()]

def itemsRule : Rule Unit := .action (.sequence [.call (), .repetition moreRule]) gather

def emptyRule : Rule Unit :=
  .action (.sequence [.range (.single '['), .range (.single ']')]) fun _ => .ok (.list [])

def filledRule : Rule Unit :=
  .action (.sequence [.range (.single '['), itemsRule, .range (.single ']')]) (Value.part 1)

/-- What a value stands for. -/
def valueRule : Rule Unit := .choice integerRule (.choice emptyRule filledRule)

def documentRule : Rule Unit := .action (.sequence [.call (), .endOfInput]) (Value.part 0)

/-- The one name of the grammar, and what it stands for. -/
def rule : Unit → Rule Unit := fun _ => valueRule

/-! ## §2 Stock -/

/-- The nodes of the notation, where the first of them gets a given number. -/
def stock (base : Nat) : List Node :=
  [.range .digits,                                             -- 0
   .repetition base false,
   .sequence [base, base + 1] false,
   .action (base + 2) integerAction false,
   .reference (some "value") none,                             -- 4
   .range (.single ','),
   .sequence [base + 5, base + 4] false,
   .repetition (base + 6) false,
   .sequence [base + 4, base + 7] false,                       -- 8
   .action (base + 8) itemsAction false,
   .range (.single ']'),
   .range (.single '['),
   .sequence [base + 11, base + 10] false,                     -- 12
   .action (base + 12) (.const (.list [])) false,
   .range (.single '['),
   .sequence [base + 14, base + 9, base + 10] false,
   .action (base + 15) .second false,                          -- 16
   .choice (base + 13) (base + 16) false,
   .choice (base + 3) (base + 17) false,
   .endOfInput,
   .sequence [base + 4, base + 19] false,                      -- 20
   .action (base + 20) .first false]

/-- A store with further nodes at its end. -/
def extended (g : Grammar) (more : List Node) : Grammar := ⟨g.nodes ++ more.toArray⟩

variable {g : Grammar}

theorem extended_nil (g : Grammar) : extended g [] = g := by
  simp [extended]

theorem add_extended (node : Node) (g : Grammar) (more : List Node) :
    Grammar.add node (extended g more) =
      (g.size + more.length, extended g (more ++ [node])) := by
  simp [Grammar.add, extended, Grammar.size]

theorem node_extended (g : Grammar) {more : List Node} {i : Nat} {node : Node}
    (h : more[i]? = some node) : (extended g more).node (g.size + i) = node := by
  unfold Grammar.node extended Grammar.size
  rw [Array.getD_eq_getD_getElem?, Array.getElem?_append_right (Nat.le_add_right _ _),
    Nat.add_sub_cancel_left, List.getElem?_toArray, h]
  rfl

/-- The notation is added in the order of its stock. -/
theorem nodes_eq (g : Grammar) : nodes g =
    ((g.size + 4, g.size + 18, g.size + 21), extended g (stock g.size)) := by
  calc nodes g = nodes (extended g []) := by rw [extended_nil]
    _ = ((g.size + 4, g.size + 18, g.size + 21), extended g (stock g.size)) := by
      simp only [nodes, stock, Grammar.range, Grammar.character, Grammar.sequence, Grammar.choice,
        Grammar.repetition, Grammar.action, Grammar.endOfInput, Grammar.reference, bind,
        StateT.bind, add_extended, List.nil_append, List.cons_append, List.length_cons,
        List.length_nil, Nat.zero_add, Nat.reduceAdd, Nat.add_zero]
      rfl

/-- A rule is laid out from a node of the stock on. The reference is the name. -/
def Laid (g : Grammar) (rule : Rule Unit) (i : Nat) : Prop :=
  (extended g (stock g.size)).Lays false (fun _ => g.size + 4) rule (g.size + i)

section Layouts

variable {rule : Rule Unit} {i : Nat}

theorem laid_call : Laid g (.call ()) 4 := .call ()

/-- If the parts of a rule are laid out, so is the rule. -/
theorem laid (ids : List Nat) (hcall : rule.isCall = false)
    (hnode : (stock g.size)[i]? = some (rule.node false (ids.map (g.size + ·))))
    (hparts : List.Forall₂ (Laid g) rule.parts ids) : Laid g rule i :=
  .of_parts hcall (node_extended g hnode) (List.forall₂_map_right_iff.2 hparts)

end Layouts

theorem laid_integer (g : Grammar) : Laid g integerRule 3 := by
  have hdigit : Laid g (.range .digits) 0 := laid [] rfl rfl .nil
  have hdigits : Laid g (.repetition (.range .digits)) 1 :=
    laid [0] rfl rfl (.cons hdigit .nil)
  have hrun : Laid g (.sequence [.range .digits, .repetition (.range .digits)]) 2 :=
    laid [0, 1] rfl rfl (.cons hdigit (.cons hdigits .nil))
  exact laid [2] rfl rfl (.cons hrun .nil)

theorem laid_items (g : Grammar) : Laid g itemsRule 9 := by
  have hcomma : Laid g (.range (.single ',')) 5 := laid [] rfl rfl .nil
  have hmore : Laid g moreRule 6 :=
    laid [5, 4] rfl rfl (.cons hcomma (.cons laid_call .nil))
  have hrest : Laid g (.repetition moreRule) 7 := laid [6] rfl rfl (.cons hmore .nil)
  have hall : Laid g (.sequence [.call (), .repetition moreRule]) 8 :=
    laid [4, 7] rfl rfl (.cons laid_call (.cons hrest .nil))
  exact laid [8] rfl rfl (.cons hall .nil)

/-- The two kinds of lists share their closing bracket. -/
theorem laid_list (g : Grammar) : Laid g (.choice emptyRule filledRule) 17 := by
  have hclose : Laid g (.range (.single ']')) 10 := laid [] rfl rfl .nil
  have hopen : Laid g (.range (.single '[')) 11 := laid [] rfl rfl .nil
  have hopen' : Laid g (.range (.single '[')) 14 := laid [] rfl rfl .nil
  have hempty : Laid g emptyRule 13 :=
    laid [12] rfl rfl
      (.cons (laid [11, 10] rfl rfl (.cons hopen (.cons hclose .nil))) .nil)
  have hfilled : Laid g filledRule 16 :=
    laid [15] rfl rfl
      (.cons (laid [14, 9, 10] rfl rfl
        (.cons hopen' (.cons (laid_items g) (.cons hclose .nil)))) .nil)
  exact laid [13, 16] rfl rfl (.cons hempty (.cons hfilled .nil))

theorem laid_value (g : Grammar) : Laid g valueRule 18 :=
  laid [3, 17] rfl rfl (.cons (laid_integer g) (.cons (laid_list g) .nil))

theorem laid_document (g : Grammar) : Laid g documentRule 21 := by
  have hend : Laid g .endOfInput 19 := laid [] rfl rfl .nil
  have hall : Laid g (.sequence [.call (), .endOfInput]) 20 :=
    laid [4, 19] rfl rfl (.cons laid_call (.cons hend .nil))
  exact laid [20] rfl rfl (.cons hall .nil)

/-! ## §3 Parsers -/

/-- Binding the reference keeps what is laid out. -/
theorem Laid.bound {r : Rule Unit} {i : Nat} (h : Laid g r i) :
    ((extended g (stock g.size)).set (g.size + 4)
      (.reference (some "value") (some (g.size + 18)))).Lays false (fun _ => g.size + 4) r
      (g.size + i) := by
  refine h.keep fun n hn => Grammar.node_set_ne ?_ _
  rintro rfl
  have href := hn.not_reference
  rw [node_extended g (rfl : (stock g.size)[4]? = some (.reference (some "value") none))] at href
  cases href

/-- **A parser of nested lists is made** in any session, and the rules of the grammar are
laid out in what it parses with. -/
theorem parser_settles (s : Session) :
    ∃ (parser : Parser) (s' : Session) (own : Unit → NodeId),
      NestedList.parser s = (.ok parser, s') ∧ parser.config = .default ∧
      s'.grammar.Settles rule own ∧ s'.grammar.Lays true own documentRule parser.root := by
  let g := s.grammar
  let s₁ : Session := { s with grammar := extended g (stock g.size) }
  have hbuild : Session.build nodes s = ((g.size + 4, g.size + 18, g.size + 21), s₁) := by
    unfold Session.build
    rw [nodes_eq]
  have hunbound : s₁.grammar.node (g.size + 4) = .reference (some "value") none :=
    node_extended g rfl
  obtain ⟨s₂, hbind, hset⟩ := Grammar.bind_session hunbound (g.size + 18)
  have hdefines : s₂.grammar.Defines rule (fun _ => g.size + 4) (fun _ => g.size + 18) := by
    rw [hset]
    have hlt : g.size + 4 < s₁.grammar.size := Grammar.lt_size_of_isReference (by
      rw [hunbound]
      rfl)
    exact ⟨fun _ => ⟨_, Grammar.node_set_self hlt _⟩, fun _ => (laid_value g).bound, fun _ => rfl⟩
  have hlays : s₂.grammar.Lays false (fun _ => g.size + 4) documentRule (g.size + 21) := by
    rw [hset]
    exact (laid_document g).bound
  obtain ⟨parser, s', hprepare, hconfig, hsettles, hroot⟩ := hdefines.prepareParser hlays
    (fun _ => hlays.reaches_site (.part (List.mem_singleton_self _)
      (.part List.mem_cons_self .call))) .default
  refine ⟨parser, s', _, ?_, hconfig, hsettles, hroot⟩
  unfold NestedList.parser
  simp only [bind, StateT.bind, hbuild, hbind, hprepare]

end PegGraph.NestedList
