/-
PegGraph.Proofs.Arithmetic.Expression — arithmetic expressions, apart from any
way to parse them.

  §1 Operators — sums and products, one as the operand of the other.
  §2 Trees     — an expression, its text and its value.
  §3 Language  — the context-free grammar of expressions.
  §4 Agreement — `mem_language_iff_tree`: it derives the texts of the trees.

A chain of operands is a first operand and a rest, so that the star of the
grammar is a recursion like any other. The words of a phrase are the texts of its
trees; that a derivation leads to nothing else takes one look at each rule.
-/
import PegGraph.Arithmetic.Sample
import PegGraph.Proofs.ContextFree

namespace PegGraph.Arithmetic

open ContextFree (derives_of_mem derives_append Spelled Closed)

/-! ## §1 Operators -/

/-- The two operators. -/
inductive Operator where
  | add
  | mul
  deriving DecidableEq

/-- What a part of an expression can be. -/
inductive Phrase where
  /-- A digit, or an expression in parentheses. -/
  | factor
  /-- Operands with operators between them. -/
  | chain (op : Operator)
  /-- What follows the first operand of a chain. -/
  | rest (op : Operator)
  deriving DecidableEq

namespace Operator

/-- Products are summed, and factors are multiplied. -/
def operand : Operator → Phrase
  | .add => .chain .mul
  | .mul => .factor

/-- How an operator is written. -/
def symbol : Operator → Char
  | .add => '+'
  | .mul => '*'

/-- What an operator does to two numbers. -/
def apply : Operator → Int → Int → Int
  | .add => (· + ·)
  | .mul => (· * ·)

/-- The number that makes no difference. -/
def unit : Operator → Int
  | .add => 0
  | .mul => 1

theorem apply_unit (op : Operator) (n : Int) : op.apply n op.unit = n := by
  cases op
  · exact Int.add_zero n
  · exact Int.mul_one n

theorem apply_assoc (op : Operator) (a b c : Int) :
    op.apply (op.apply a b) c = op.apply a (op.apply b c) := by
  cases op
  · exact Int.add_assoc a b c
  · exact Int.mul_assoc a b c

/-- Operands may be reduced at any time. -/
theorem apply_emod (op : Operator) (a b m : Int) :
    op.apply (a % m) (b % m) % m = op.apply a b % m := by
  cases op
  · exact (Int.add_emod a b m).symm
  · exact (Int.mul_emod a b m).symm

end Operator

/-! ## §2 Trees -/

/-- A part of an expression, as a tree. -/
inductive Tree : Phrase → Type where
  | digit (d : Fin 10) : Tree .factor
  | group (inner : Tree (.chain .add)) : Tree .factor
  | chain {op : Operator} (first : Tree op.operand) (rest : Tree (.rest op)) : Tree (.chain op)
  | nil {op : Operator} : Tree (.rest op)
  | cons {op : Operator} (operand : Tree op.operand) (rest : Tree (.rest op)) : Tree (.rest op)

/-- A non-empty sum of non-empty products. -/
abbrev Expression := Tree (.chain .add)

namespace Tree

/-- How a tree is written. -/
def text : {phrase : Phrase} → Tree phrase → List Char
  | _, .digit d => [digitChar d]
  | _, .group inner => '(' :: inner.text ++ [')']
  | _, .chain first rest => first.text ++ rest.text
  | _, .nil => []
  | _, @cons op operand rest => op.symbol :: operand.text ++ rest.text

/-- The number that a tree stands for. The rest of a chain stands for what the
operator makes of its operands. -/
def value : {phrase : Phrase} → Tree phrase → Int
  | _, .digit d => d
  | _, .group inner => inner.value
  | _, @chain op first rest => op.apply first.value rest.value
  | _, @nil op => op.unit
  | _, @cons op operand rest => op.apply operand.value rest.value

end Tree

/-! ## §3 Language -/

/-- The sides of the rules are made of characters and of phrases, or of the start
symbol, which is no phrase. -/
abbrev Sign := Symbol Char (Option Phrase)

/-- A character in a side of a rule. -/
abbrev char (c : Char) : Sign := .terminal c

/-- A phrase in a side of a rule. -/
abbrev phrase (p : Phrase) : Sign := .nonterminal (some p)

/-- A chain is an operand and a rest, which is empty or has an operator, an
operand and a rest. -/
def chainProductions (op : Operator) : List (ContextFreeRule Char (Option Phrase)) :=
  [⟨some (.chain op), [phrase op.operand, phrase (.rest op)]⟩,
   ⟨some (.rest op), []⟩,
   ⟨some (.rest op), [char op.symbol, phrase op.operand, phrase (.rest op)]⟩]

/-- All rules of the language. -/
def productions : List (ContextFreeRule Char (Option Phrase)) :=
  ⟨none, [phrase (.chain .add)]⟩ ::
  ⟨some .factor, [char '(', phrase (.chain .add), char ')']⟩ ::
  (List.finRange 10).map (fun d => ⟨some .factor, [char (digitChar d)]⟩) ++
  chainProductions .add ++ chainProductions .mul

/-- The grammar of arithmetic expressions. -/
abbrev expressionGrammar : ContextFreeGrammar Char where
  NT := Option Phrase
  initial := none
  rules := productions.toFinset

/-! ## §4 Agreement -/

theorem mem_productions_of_chain {op : Operator} {r : ContextFreeRule Char (Option Phrase)}
    (h : r ∈ chainProductions op) : r ∈ productions := by
  unfold productions
  cases op with
  | add => exact List.mem_append_left _ (List.mem_append_right _ h)
  | mul => exact List.mem_append_right _ h

/-- A rule takes its left side to its right side. -/
theorem derives_production {r : ContextFreeRule Char (Option Phrase)} (h : r ∈ productions) :
    expressionGrammar.Derives [.nonterminal r.input] r.output :=
  derives_of_mem (g := expressionGrammar) (List.mem_toFinset.2 h)

/-- A tree is a derivation of its text. -/
theorem Tree.derives {p : Phrase} (t : Tree p) :
    expressionGrammar.Derives [phrase p] (t.text.map char) := by
  induction t with
  | digit d =>
    refine derives_production (r := ⟨some .factor, [char (digitChar d)]⟩) ?_
    refine List.mem_append_left _ (List.mem_append_left _ ?_)
    exact List.mem_cons_of_mem _ (List.mem_cons_of_mem _
      (List.mem_map.2 ⟨d, List.mem_finRange d, rfl⟩))
  | group inner ih =>
    have hrule : _ ∈ productions := List.mem_cons_of_mem _ List.mem_cons_self
    refine (derives_production hrule).trans ?_
    rw [Tree.text, List.map_append, List.map_cons]
    exact derives_append (ih.append_left [char '(']) (.refl _)
  | @chain op first rest ihf ihr =>
    have hrule : _ ∈ chainProductions op := List.mem_cons_self
    refine (derives_production (mem_productions_of_chain hrule)).trans ?_
    rw [Tree.text, List.map_append]
    exact derives_append ihf ihr
  | @nil op =>
    have hrule : _ ∈ chainProductions op := List.mem_cons_of_mem _ List.mem_cons_self
    exact derives_production (mem_productions_of_chain hrule)
  | @cons op operand rest iho ihr =>
    have hrule : _ ∈ chainProductions op :=
      List.mem_cons_of_mem _ (List.mem_cons_of_mem _ List.mem_cons_self)
    refine (derives_production (mem_productions_of_chain hrule)).trans ?_
    rw [Tree.text, List.map_append, List.map_cons]
    exact (derives_append iho ihr).append_left [char op.symbol]

/-- The words of a phrase are the texts of its trees. The start symbol has those of an
expression. -/
def Words : Option Phrase → List Char → Prop
  | none, text => ∃ e : Expression, e.text = text
  | some p, text => ∃ t : Tree p, t.text = text

section Rules

variable {w : List Char}

/-- What the right side of a rule of a chain spells is one tree. -/
theorem words_of_mem_chain {op : Operator} {r : ContextFreeRule Char (Option Phrase)}
    (hr : r ∈ chainProductions op) (h : Spelled Words r.output w) : Words r.input w := by
  unfold chainProductions at hr
  rcases List.mem_cons.1 hr with rfl | hr
  · obtain ⟨_, _, rfl, ⟨first, rfl⟩, hrest⟩ := h.of_nonterminal
    obtain ⟨_, _, rfl, ⟨rest, rfl⟩, hnil⟩ := hrest.of_nonterminal
    rw [hnil.of_nil, List.append_nil]
    exact ⟨.chain first rest, rfl⟩
  · rcases List.mem_cons.1 hr with rfl | hr
    · rw [h.of_nil]
      exact ⟨.nil, rfl⟩
    · cases List.mem_singleton.1 hr
      obtain ⟨_, rfl, hoperand⟩ := h.of_terminal
      obtain ⟨_, _, rfl, ⟨operand, rfl⟩, hrest⟩ := hoperand.of_nonterminal
      obtain ⟨_, _, rfl, ⟨rest, rfl⟩, hnil⟩ := hrest.of_nonterminal
      rw [hnil.of_nil, List.append_nil]
      exact ⟨.cons operand rest, rfl⟩

/-- What the right side of a rule spells is one tree. -/
theorem closed_words : Closed expressionGrammar Words := by
  intro r hr w h
  have hr := List.mem_toFinset.1 hr
  unfold productions at hr
  rcases List.mem_append.1 hr with hr | hr
  · rcases List.mem_append.1 hr with hr | hr
    · rcases List.mem_cons.1 hr with rfl | hr
      · obtain ⟨_, _, rfl, ⟨e, rfl⟩, hnil⟩ := h.of_nonterminal
        rw [hnil.of_nil, List.append_nil]
        exact ⟨e, rfl⟩
      · rcases List.mem_cons.1 hr with rfl | hr
        · obtain ⟨_, rfl, hinner⟩ := h.of_terminal
          obtain ⟨_, _, rfl, ⟨inner, rfl⟩, hclose⟩ := hinner.of_nonterminal
          obtain ⟨_, rfl, hnil⟩ := hclose.of_terminal
          rw [hnil.of_nil]
          exact ⟨.group inner, rfl⟩
        · obtain ⟨d, _, rfl⟩ := List.mem_map.1 hr
          obtain ⟨_, rfl, hnil⟩ := h.of_terminal
          rw [hnil.of_nil]
          exact ⟨.digit d, rfl⟩
    · exact words_of_mem_chain hr h
  · exact words_of_mem_chain hr h

end Rules

/-- **The language of the grammar** is made of the texts of the trees. -/
theorem mem_language_iff_tree {text : List Char} :
    text ∈ expressionGrammar.language ↔ ∃ e : Expression, e.text = text := by
  refine ⟨fun h => closed_words.of_mem_language h, ?_⟩
  rintro ⟨e, rfl⟩
  have hrule : _ ∈ productions := List.mem_cons_self
  exact (ContextFreeGrammar.mem_language_iff ..).2 ((derives_production hrule).trans e.derives)

end PegGraph.Arithmetic
