/-
PegGraph.Proofs.ContextFree — context-free grammars and the words of their names.

  §1 Derivations — rules as derivations, and derivations side by side.
  §2 Spelling    — a row of signs, with a word for each sign.

That a grammar derives the words it should is an induction on them. The converse is here
for all grammars at once: a derivation is undone step by step, and each step joins the
neighbours in a row that the right side of a rule stands for. So it is enough that
whatever a right side spells is a word of the left side.
-/
import Mathlib.Computability.ContextFreeGrammar

namespace PegGraph.ContextFree

variable {α : Type} {g : ContextFreeGrammar α}

/-! ## §1 Derivations -/

/-- A rule takes its left side to its right side. -/
theorem derives_of_mem {r : ContextFreeRule α g.NT} (h : r ∈ g.rules) :
    g.Derives [.nonterminal r.input] r.output :=
  ContextFreeGrammar.Produces.single ⟨r, h, ContextFreeRule.Rewrites.input_output⟩

theorem derives_append {a b u v : List (Symbol α g.NT)} (h : g.Derives a u)
    (h' : g.Derives b v) : g.Derives (a ++ b) (u ++ v) :=
  (h.append_right b).trans (h'.append_left u)

/-! ## §2 Spelling -/

section Rows

variable {N : Type} {words : N → List α → Prop} {u v : List (Symbol α N)} {w w' : List α}

/-- A row of signs spells a word: each character itself, and each name one of its
words. -/
inductive Spelled (words : N → List α → Prop) : List (Symbol α N) → List α → Prop where
  | nil : Spelled words [] []
  | terminal {signs : List (Symbol α N)} {word : List α} (c : α) (h : Spelled words signs word) :
    Spelled words (.terminal c :: signs) (c :: word)
  | nonterminal {signs : List (Symbol α N)} {name : N} {part word : List α}
    (hpart : words name part) (h : Spelled words signs word) :
    Spelled words (.nonterminal name :: signs) (part ++ word)

namespace Spelled

theorem of_terminals (word : List α) : Spelled words (word.map .terminal) word := by
  induction word with
  | nil => exact .nil
  | cons c word ih => exact .terminal c ih

theorem append (h : Spelled words u w) (h' : Spelled words v w') :
    Spelled words (u ++ v) (w ++ w') := by
  induction h with
  | nil => exact h'
  | terminal c _ ih => exact .terminal c ih
  | nonterminal hpart _ ih =>
    rw [List.append_assoc]
    exact .nonterminal hpart ih

/-- A row is cut where its signs are. -/
theorem split (h : Spelled words (u ++ v) w) :
    ∃ a b, w = a ++ b ∧ Spelled words u a ∧ Spelled words v b := by
  induction u generalizing w with
  | nil => exact ⟨[], w, rfl, .nil, h⟩
  | cons sign u ih =>
    cases h with
    | terminal c h =>
      obtain ⟨a, b, rfl, ha, hb⟩ := ih h
      exact ⟨c :: a, b, rfl, .terminal c ha, hb⟩
    | nonterminal hpart h =>
      obtain ⟨a, b, rfl, ha, hb⟩ := ih h
      exact ⟨_ ++ a, b, (List.append_assoc ..).symm, .nonterminal hpart ha, hb⟩

theorem of_word {name : N} (h : words name w) : Spelled words [.nonterminal name] w := by
  have h := Spelled.nonterminal h .nil
  rwa [List.append_nil] at h

theorem of_nil (h : Spelled words [] w) : w = [] := by
  cases h
  rfl

theorem of_terminal {c : α} (h : Spelled words (.terminal c :: u) w) :
    ∃ w', w = c :: w' ∧ Spelled words u w' := by
  cases h with
  | terminal _ h => exact ⟨_, rfl, h⟩

theorem of_nonterminal {name : N} (h : Spelled words (.nonterminal name :: u) w) :
    ∃ part w', w = part ++ w' ∧ words name part ∧ Spelled words u w' := by
  cases h with
  | nonterminal hpart h => exact ⟨_, _, rfl, hpart, h⟩

end Spelled

end Rows

/-- Whatever a right side spells is a word of the left side. -/
def Closed (g : ContextFreeGrammar α) (words : g.NT → List α → Prop) : Prop :=
  ∀ r ∈ g.rules, ∀ w, Spelled words r.output w → words r.input w

section Closed

variable {words : g.NT → List α → Prop} {u v : List (Symbol α g.NT)} {w : List α}

/-- A step of a derivation is undone by joining. -/
theorem Closed.of_produces (h : Closed g words) (hp : g.Produces u v) (hv : Spelled words v w) :
    Spelled words u w := by
  obtain ⟨r, hr, hrewrites⟩ := hp
  obtain ⟨p, q, rfl, rfl⟩ := hrewrites.exists_parts
  obtain ⟨a, c, rfl, hpa, hqc⟩ := hv.split
  obtain ⟨a, b, rfl, ha, hb⟩ := hpa.split
  exact (ha.append (.of_word (h r hr b hb))).append hqc

theorem Closed.of_derives (h : Closed g words) (hd : g.Derives u v) (hv : Spelled words v w) :
    Spelled words u w := by
  induction hd using Relation.ReflTransGen.head_induction_on with
  | refl => exact hv
  | head hp _ ih => exact h.of_produces hp ih

/-- **The language of a grammar** is made of words of its first name. -/
theorem Closed.of_mem_language (h : Closed g words) (hw : w ∈ g.language) :
    words g.initial w := by
  have hd := (ContextFreeGrammar.mem_language_iff g w).1 hw
  obtain ⟨part, rest, rfl, hpart, hrest⟩ := (h.of_derives hd (.of_terminals w)).of_nonterminal
  rw [hrest.of_nil, List.append_nil]
  exact hpart

end Closed

end PegGraph.ContextFree
