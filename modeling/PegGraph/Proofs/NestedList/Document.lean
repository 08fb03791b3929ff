/-
PegGraph.Proofs.NestedList.Document — the notation of nested lists, apart from any way
to parse it.

  §1 Numerals  — runs of digits.
  §2 Trees     — a value, its text and what the text denotes.
  §3 Language  — the context-free grammar of documents.
  §4 Agreement — `mem_language_iff_tree`: it derives the texts of the trees.

The grammar is written down with characters as its terminals, digit by digit. A tree
keeps a numeral in one piece, as a reader of the text would, and says of every value
what it is.
-/
import PegGraph.Proofs.ContextFree
import PegGraph.Value

namespace PegGraph.NestedList

open ContextFree (derives_of_mem derives_append Spelled Closed)

/-! ## §1 Numerals -/

/-- One or more decimal digits, the most significant first. Leading zeros are
allowed. -/
structure Numeral where
  chars : List Char
  ne_nil : chars ≠ []
  isDigit : ∀ c ∈ chars, c.isDigit = true

namespace Numeral

/-- The number that a numeral stands for. -/
def value (n : Numeral) : Nat := Nat.ofDigitChars 10 n.chars 0

/-- The numeral of a number, without leading zeros. -/
def ofNat (n : Nat) : Numeral where
  chars := Nat.toDigits 10 n
  ne_nil := Nat.toDigits_ne_nil
  isDigit _ h := Nat.isDigit_of_mem_toDigits (by decide) (by decide) h

@[simp] theorem chars_ofNat (n : Nat) : (ofNat n).chars = Nat.toDigits 10 n := rfl

@[simp] theorem value_ofNat (n : Nat) : (ofNat n).value = n :=
  Nat.ofDigitChars_toDigits (by decide) (by decide)

end Numeral

/-! ## §2 Trees -/

/-- What a part of a document can be. -/
inductive Phrase where
  | value
  /-- What follows the first item of a list. -/
  | more
  deriving DecidableEq

/-- A part of a document, as a tree. -/
inductive Tree : Phrase → Type where
  | number (n : Numeral) : Tree .value
  | empty : Tree .value
  | list (first : Tree .value) (rest : Tree .more) : Tree .value
  | last : Tree .more
  | next (item : Tree .value) (rest : Tree .more) : Tree .more

/-- What a part of a document denotes: a value, or the items that it adds. -/
abbrev Phrase.Meaning : Phrase → Type
  | .value => Value
  | .more => List Value

namespace Tree

/-- How a tree is written. -/
def text : {phrase : Phrase} → Tree phrase → List Char
  | _, .number n => n.chars
  | _, .empty => ['[', ']']
  | _, .list first rest => '[' :: first.text ++ rest.text ++ [']']
  | _, .last => []
  | _, .next item rest => ',' :: item.text ++ rest.text

/-- What a tree denotes. Items are in the order of the text. -/
def meaning : {phrase : Phrase} → Tree phrase → phrase.Meaning
  | _, .number n => Value.int n.value
  | _, .empty => Value.list []
  | _, .list first rest => Value.list (first.meaning :: rest.meaning)
  | _, .last => []
  | _, .next item rest => item.meaning :: rest.meaning

end Tree

/-- A text is that of a value. -/
def Denotes (text : List Char) (v : Value) : Prop :=
  ∃ t : Tree .value, t.text = text ∧ t.meaning = v

/-! ## §3 Language -/

/-- The names of the grammar. -/
inductive Name where
  | document
  | value
  | digits
  | more
  deriving DecidableEq

/-- The sides of the rules are made of characters and of names. -/
abbrev Sign := Symbol Char Name

abbrev char (c : Char) : Sign := .terminal c

abbrev name (n : Name) : Sign := .nonterminal n

/-- The ten digits. -/
def digitChars : List Char := ['0', '1', '2', '3', '4', '5', '6', '7', '8', '9']

/-- A name and a digit lead to a further row of digits. -/
def digitProductions (n : Name) : List (ContextFreeRule Char Name) :=
  digitChars.map fun c => ⟨n, [char c, name .digits]⟩

/-- All rules of the language: a document is a value; a value is a digit and further
digits, or a pair of brackets, which is empty or has a value and further values in it,
each behind a comma. -/
def productions : List (ContextFreeRule Char Name) :=
  ⟨.document, [name .value]⟩ ::
  ⟨.value, [char '[', char ']']⟩ ::
  ⟨.value, [char '[', name .value, name .more, char ']']⟩ ::
  ⟨.more, []⟩ ::
  ⟨.more, [char ',', name .value, name .more]⟩ ::
  ⟨.digits, []⟩ ::
  (digitProductions .value ++ digitProductions .digits)

/-- The grammar of documents. -/
abbrev documentGrammar : ContextFreeGrammar Char where
  NT := Name
  initial := .document
  rules := productions.toFinset

/-! ## §4 Agreement -/

theorem mem_digitChars {c : Char} : c ∈ digitChars ↔ c.isDigit = true := by
  constructor
  · have hall : digitChars.all Char.isDigit = true := by decide
    exact List.all_eq_true.1 hall c
  · intro h
    obtain ⟨hlower, hupper⟩ := Char.isDigit_iff_toNat.1 h
    have hall : ∀ n < 58, 48 ≤ n → Char.ofNat n ∈ digitChars := by decide
    have hmem := hall c.toNat (Nat.lt_succ_of_le hupper) hlower
    rwa [Char.ofNat_toNat] at hmem

/-- A rule takes its left side to its right side. -/
theorem derives_production {r : ContextFreeRule Char Name} (h : r ∈ productions) :
    documentGrammar.Derives [.nonterminal r.input] r.output :=
  derives_of_mem (g := documentGrammar) (List.mem_toFinset.2 h)

theorem derives_digit {n : Name} (hn : n = .value ∨ n = .digits) {c : Char}
    (hc : c.isDigit = true) :
    documentGrammar.Derives [name n] [char c, name .digits] := by
  have hmem : ⟨n, [char c, name .digits]⟩ ∈ digitProductions n :=
    List.mem_map.2 ⟨c, mem_digitChars.2 hc, rfl⟩
  refine derives_production (r := ⟨n, [char c, name .digits]⟩) ?_
  unfold productions
  rcases hn with rfl | rfl
  · simp only [List.mem_cons, List.mem_append, hmem, true_or, or_true]
  · simp only [List.mem_cons, List.mem_append, hmem, or_true]

/-- A row of digits is derived digit by digit. -/
theorem derives_digits {chars : List Char} (h : ∀ c ∈ chars, c.isDigit = true) :
    documentGrammar.Derives [name .digits] (chars.map char) := by
  induction chars with
  | nil => exact derives_production (r := ⟨.digits, []⟩) (by simp [productions])
  | cons c chars ih =>
    rw [List.forall_mem_cons] at h
    exact (derives_digit (.inr rfl) h.1).trans ((ih h.2).append_left [char c])

theorem Numeral.derives (n : Numeral) :
    documentGrammar.Derives [name .value] (n.chars.map char) := by
  have hdigit := n.isDigit
  cases hchars : n.chars with
  | nil => exact absurd hchars n.ne_nil
  | cons c chars =>
    rw [hchars, List.forall_mem_cons] at hdigit
    exact (derives_digit (.inl rfl) hdigit.1).trans
      ((derives_digits hdigit.2).append_left [char c])

/-- The name that a phrase goes by in the grammar. -/
def Phrase.name : Phrase → Name
  | .value => .value
  | .more => .more

/-- A tree is a derivation of its text. -/
theorem Tree.derives {p : Phrase} (t : Tree p) :
    documentGrammar.Derives [NestedList.name p.name] (t.text.map char) := by
  induction t with
  | number n => exact n.derives
  | empty =>
    exact derives_production (r := ⟨.value, [char '[', char ']']⟩) (by simp [productions])
  | list first rest ihf ihr =>
    refine (derives_production (r := ⟨.value, [char '[', NestedList.name .value,
      NestedList.name .more, char ']']⟩) (by simp [productions])).trans ?_
    rw [Tree.text, List.map_append, List.map_cons, List.map_append]
    exact derives_append ((derives_append ihf ihr).append_left [char '[']) (.refl _)
  | last => exact derives_production (r := ⟨.more, []⟩) (by simp [productions])
  | next item rest ihi ihr =>
    refine (derives_production (r := ⟨.more, [char ',', NestedList.name .value,
      NestedList.name .more]⟩) (by simp [productions])).trans ?_
    rw [Tree.text, List.map_append, List.map_cons]
    exact (derives_append ihi ihr).append_left [char ',']

/-- The words of each name: the texts of trees, or rows of digits. -/
def Words : Name → List Char → Prop
  | .document, w | .value, w => ∃ t : Tree .value, t.text = w
  | .digits, w => ∀ c ∈ w, c.isDigit = true
  | .more, w => ∃ t : Tree .more, t.text = w

section Rules

variable {r : ContextFreeRule Char Name} {w : List Char}

/-- A digit before a row of digits makes a longer row, which is not empty. -/
theorem words_of_mem_digits {n : Name} (hr : r ∈ digitProductions n)
    (h : Spelled Words r.output w) : r.input = n ∧ w ≠ [] ∧ ∀ c ∈ w, c.isDigit = true := by
  obtain ⟨c, hc, rfl⟩ := List.mem_map.1 hr
  obtain ⟨_, rfl, hdigits⟩ := h.of_terminal
  obtain ⟨_, _, rfl, hrest, hnil⟩ := hdigits.of_nonterminal
  rw [hnil.of_nil, List.append_nil]
  exact ⟨rfl, List.cons_ne_nil _ _, List.forall_mem_cons.2 ⟨mem_digitChars.1 hc, hrest⟩⟩

/-- What the right side of a rule spells is one tree, or one row of digits. -/
theorem closed_words : Closed documentGrammar Words := by
  intro r hr w h
  have hr := List.mem_toFinset.1 hr
  unfold productions at hr
  simp only [List.mem_cons, List.mem_append] at hr
  rcases hr with rfl | rfl | rfl | rfl | rfl | rfl | hr | hr
  · obtain ⟨_, _, rfl, hvalue, hnil⟩ := h.of_nonterminal
    rw [hnil.of_nil, List.append_nil]
    exact hvalue
  · obtain ⟨_, rfl, hclose⟩ := h.of_terminal
    obtain ⟨_, rfl, hnil⟩ := hclose.of_terminal
    rw [hnil.of_nil]
    exact ⟨.empty, rfl⟩
  · obtain ⟨_, rfl, hfirst⟩ := h.of_terminal
    obtain ⟨_, _, rfl, ⟨first, rfl⟩, hmore⟩ := hfirst.of_nonterminal
    obtain ⟨_, _, rfl, ⟨rest, rfl⟩, hclose⟩ := hmore.of_nonterminal
    obtain ⟨_, rfl, hnil⟩ := hclose.of_terminal
    rw [hnil.of_nil, ← List.append_assoc, ← List.cons_append]
    exact ⟨.list first rest, rfl⟩
  · rw [h.of_nil]
    exact ⟨.last, rfl⟩
  · obtain ⟨_, rfl, hitem⟩ := h.of_terminal
    obtain ⟨_, _, rfl, ⟨item, rfl⟩, hmore⟩ := hitem.of_nonterminal
    obtain ⟨_, _, rfl, ⟨rest, rfl⟩, hnil⟩ := hmore.of_nonterminal
    rw [hnil.of_nil, List.append_nil]
    exact ⟨.next item rest, rfl⟩
  · rw [h.of_nil]
    exact fun _ hc => absurd hc List.not_mem_nil
  · obtain ⟨hinput, hne, hdigits⟩ := words_of_mem_digits hr h
    rw [hinput]
    exact ⟨.number ⟨w, hne, hdigits⟩, rfl⟩
  · obtain ⟨hinput, -, hdigits⟩ := words_of_mem_digits hr h
    rw [hinput]
    exact hdigits

end Rules

/-- **The language of the grammar** is made of the texts of the trees. -/
theorem mem_language_iff_tree {text : List Char} :
    text ∈ documentGrammar.language ↔ ∃ t : Tree .value, t.text = text := by
  refine ⟨fun h => closed_words.of_mem_language h, ?_⟩
  rintro ⟨t, rfl⟩
  have hrule : _ ∈ productions := List.mem_cons_self
  exact (ContextFreeGrammar.mem_language_iff ..).2 ((derives_production hrule).trans t.derives)

end PegGraph.NestedList
