/-
PegGraph.Proofs.Arithmetic.Reading — what the rules of the arithmetic grammar do
with a text.

  §1 Values     — the values of trees, and chains of them folded.
  §2 Factors    — a digit, or a sum in parentheses.
  §3 Chains     — operands, and operators before them.
  §4 Trees      — `reads`: the text of a tree is read as that tree.
  §5 Positions  — `total_of_le`: from every position a tree is read, or nothing.

§2 and §3 say what a rule answers by what its parts do, in every case that there
is. §4 goes by induction on the tree, where the character after a text tells that
the text does not go on. §5 goes by induction on what is left of the source; what
is read there may be followed by anything, by an operator without an operand for
one.
-/
import PegGraph.Proofs.Arithmetic.Definition
import PegGraph.Proofs.Arithmetic.Expression
import PegGraph.Proofs.Spelling

namespace PegGraph.Arithmetic

open Limits (arithmeticModulus)

/-! ## §1 Values -/

namespace Operator

/-- The production of the chains of an operator. -/
def chainName : Operator → Production
  | .add => .sum
  | .mul => .product

/-- The production of the operands of an operator. -/
def operandName : Operator → Production
  | .add => .product
  | .mul => .factor

/-- The production of an operator itself. -/
def signName : Operator → Production
  | .add => .plus
  | .mul => .times

/-- An operator and an operand. -/
def more (op : Operator) : Rule Production :=
  .sequence [.call op.signName, .call op.operandName]

theorem rule_chainName (op : Operator) :
    rule op.chainName = chainRule op.operandName op.signName (Value.foldChain op.apply) := by
  cases op <;> rfl

theorem rule_signName (op : Operator) : rule op.signName = .range (.single op.symbol) := by
  cases op <;> rfl

end Operator

namespace Tree

/-- The values that are read for the operators and operands of a rest. -/
def pairs : {phrase : Phrase} → Tree phrase → List Value
  | _, @cons op operand rest =>
    .tuple [.text (String.singleton op.symbol), .int (operand.value % arithmeticModulus)] ::
      rest.pairs
  | _, .nil => []
  | _, .digit _ => []
  | _, .group _ => []
  | _, .chain _ _ => []

theorem foldPairs_pairs {op : Operator} (n : Int) : (rest : Tree (.rest op)) →
    Value.foldPairs op.apply (.int (n % arithmeticModulus)) rest.pairs =
      .ok (.int (op.apply n rest.value % arithmeticModulus))
  | .nil => by rw [pairs, Value.foldPairs, value, op.apply_unit]
  | .cons operand rest => by
    have ih := foldPairs_pairs (op.apply n operand.value) rest
    rw [pairs, Value.foldPairs, Value.pair_tuple]
    simp only [Value.combine, Value.number?_int, op.apply_emod, ih, value, op.apply_assoc]

theorem value_digit_emod (d : Fin 10) :
    (Tree.digit d).value % arithmeticModulus = (d : Int) := by
  revert d
  decide

/-- Folding step by step gives the number of the chain, reduced once. -/
theorem foldChain_pairs {op : Operator} (first : Tree op.operand) (rest : Tree (.rest op)) :
    Value.foldChain op.apply
      (.tuple [.int (first.value % arithmeticModulus), .tuple rest.pairs]) =
        .ok (.int ((Tree.chain first rest).value % arithmeticModulus)) := by
  unfold Value.foldChain
  rw [Value.pair_tuple]
  simp only [Value.items?_tuple, foldPairs_pairs, value]

/-- The levels of composites that it takes to read a tree: as many as its parts
take, and those that are around them. -/
def levels : {phrase : Phrase} → Tree phrase → Nat
  | _, .digit _ => 2
  | _, .group inner => inner.levels + 3
  | _, .chain first rest => max first.levels (rest.levels + 1) + 2
  | _, .nil => 1
  | _, .cons operand rest => max (operand.levels + 1) rest.levels

end Tree

/-! ## §2 Factors -/

open Rule (Yields YieldsAll YieldsMany yields_call yields_range yields_range_noMatch yields_single
  yields_single_noMatch yields_action yields_action_noMatch yields_sequence yieldsAll_nil
  yieldsAll_cons yieldsAll_noMatch yields_first yields_second yields_repetition yieldsMany_nil
  yieldsMany_cons yields_behind yields_between yields_between_unfinished yields_chain yields_whole)

variable {source : Source} {limit : Int} {need need' p q r : Nat} {v v' result : Value} {c : Char}
  {op : Operator} {vs : List Value}

theorem digits_contains (d : Fin 10) : CharRange.digits.contains (digitChar d) = true := by
  revert d
  decide

theorem digitNumber_digitChar (d : Fin 10) :
    digitNumber (.text (String.singleton (digitChar d))) = .ok (.int d) := by
  have hdigit : (digitChar d).isDigit = true := by
    revert d
    decide
  have hvalue : Value.readDigits [digitChar d] = d := by
    revert d
    decide
  change Value.readNumeral _ = _
  unfold Value.readNumeral
  rw [String.toList_singleton, if_pos ⟨List.cons_ne_nil _ _, by simp [hdigit]⟩,
    if_neg (by rw [List.length_singleton]; decide), hvalue]

/-- A character in the range of the digits is one of them. -/
theorem exists_digit (h : CharRange.digits.contains c = true) : ∃ d : Fin 10, c = digitChar d := by
  unfold CharRange.contains at h
  rw [Bool.and_eq_true, decide_eq_true_eq, decide_eq_true_eq] at h
  have hlower : 48 ≤ c.toNat := h.1
  have hupper : c.toNat ≤ 57 := h.2
  refine ⟨⟨c.toNat - 48, by omega⟩, ?_⟩
  unfold digitChar
  rw [show '0'.toNat + (c.toNat - 48) = c.toNat from Nat.add_sub_cancel' hlower,
    Char.ofNat_toNat]

/-- A terminal of one character where that character is. -/
theorem yields_terminal {name : Production} (hrule : rule name = .range (.single c))
    (hc : source.chars[p]? = some c) :
    Yields rule source limit (.call name) p 0 (.matched (.text (String.singleton c)) (p + 1)) := by
  refine yields_call (isCall_rule name) ?_
  rw [hrule]
  exact yields_single hc

/-- A terminal of one character where that character is not. -/
theorem yields_terminal_noMatch {name : Production} (hrule : rule name = .range (.single c))
    (hc : source.chars[p]? ≠ some c) : Yields rule source limit (.call name) p 0 .noMatch := by
  refine yields_call (isCall_rule name) ?_
  rw [hrule]
  exact yields_single_noMatch hc

theorem number_digit {d : Fin 10} (hc : source.chars[p]? = some (digitChar d)) :
    Yields rule source limit (.call .number) p 1 (.matched (.int d) (p + 1)) :=
  yields_call rfl (yields_action (yields_call rfl (yields_range hc (digits_contains d)))
    (digitNumber_digitChar d))

theorem number_noMatch
    (h : ∀ c, source.chars[p]? = some c → CharRange.digits.contains c = false) :
    Yields rule source limit (.call .number) p 1 .noMatch :=
  yields_call rfl (yields_action_noMatch (yields_call rfl (yields_range_noMatch h)))

/-- A digit is a factor. -/
theorem factor_digit {d : Fin 10} (hc : source.chars[p]? = some (digitChar d)) :
    Yields rule source limit (.call .factor) p 2 (.matched (.int d) (p + 1)) :=
  yields_call rfl (yields_first (number_digit hc))

/-- Where there is no digit, a factor is what is in parentheses. -/
theorem factor_of_parenthesised {a : Peg.Answer Value}
    (h : ∀ c, source.chars[p]? = some c → CharRange.digits.contains c = false)
    (hparen : Yields rule source limit (.call .parenthesised) p (need + 2) a) :
    Yields rule source limit (.call .factor) p (need + 3) a := by
  have hfactor := yields_second (number_noMatch h) hparen
  rw [Nat.max_eq_right (by omega)] at hfactor
  exact yields_call rfl hfactor

theorem digits_not_contains_leftParen : CharRange.digits.contains '(' = false := by decide

/-- A sum between parentheses is a factor. -/
theorem factor_group (hopen : source.chars[p]? = some '(')
    (hsum : Yields rule source limit (.call .sum) (p + 1) need (.matched v q))
    (hclose : source.chars[q]? = some ')') :
    Yields rule source limit (.call .factor) p (need + 3) (.matched v (q + 1)) := by
  refine factor_of_parenthesised (fun c hc => ?_) ?_
  · rw [hopen] at hc
    cases hc
    exact digits_not_contains_leftParen
  · have hleft : Yields rule source limit (.call .leftParen) p 0 _ := yields_terminal rfl hopen
    have hright : Yields rule source limit (.call .rightParen) q 0 _ := yields_terminal rfl hclose
    exact yields_call rfl (yields_between hleft hsum hright)

/-- Where neither a digit nor a parenthesis is, there is no factor. -/
theorem factor_noMatch (h : ∀ c, source.chars[p]? = some c → CharRange.digits.contains c = false)
    (hopen : source.chars[p]? ≠ some '(') :
    Yields rule source limit (.call .factor) p 3 .noMatch := by
  refine factor_of_parenthesised h ?_
  have hleft : Yields rule source limit (.call .leftParen) p 0 .noMatch :=
    yields_terminal_noMatch rfl hopen
  exact yields_call rfl (yields_action_noMatch (yields_sequence (yieldsAll_noMatch hleft)))

/-- Without the sum, or without the closing parenthesis, there is no factor in
parentheses either. -/
theorem factor_unclosed (hopen : source.chars[p]? = some '(')
    (hsum : Yields rule source limit (.call .sum) (p + 1) need .noMatch ∨
      ∃ v q, Yields rule source limit (.call .sum) (p + 1) need (.matched v q) ∧
        source.chars[q]? ≠ some ')') :
    Yields rule source limit (.call .factor) p (need + 3) .noMatch := by
  refine factor_of_parenthesised (fun c hc => ?_) ?_
  · rw [hopen] at hc
    cases hc
    exact digits_not_contains_leftParen
  · have hleft : Yields rule source limit (.call .leftParen) p 0 _ := yields_terminal rfl hopen
    refine yields_call rfl (yields_between_unfinished hleft (hsum.imp id ?_))
    rintro ⟨v, q, hsum, hclose⟩
    exact ⟨v, q, hsum, yields_terminal_noMatch rfl hclose⟩

/-! ## §3 Chains -/

/-- An operator and an operand after it. -/
theorem more_matched (hc : source.chars[p]? = some op.symbol)
    (h : Yields rule source limit (.call op.operandName) (p + 1) need (.matched v q)) :
    Yields rule source limit op.more p (need + 1)
      (.matched (.tuple [.text (String.singleton op.symbol), v]) q) :=
  yields_behind (yields_terminal op.rule_signName hc) h

/-- An operator without an operand. -/
theorem more_unfinished (hc : source.chars[p]? = some op.symbol)
    (h : Yields rule source limit (.call op.operandName) (p + 1) need .noMatch) :
    Yields rule source limit op.more p (need + 1) .noMatch :=
  yields_behind (yields_terminal op.rule_signName hc) h

/-- No operator. -/
theorem more_noMatch (hc : source.chars[p]? ≠ some op.symbol) :
    Yields rule source limit op.more p 1 .noMatch :=
  yields_sequence (yieldsAll_noMatch (yields_terminal_noMatch op.rule_signName hc))

/-- A first operand, and what follows it. -/
theorem chain_matched
    (h : Yields rule source limit (.call op.operandName) p need (.matched v q))
    (hrest : YieldsMany rule source limit op.more q need' (.matched vs r))
    (hfold : Value.foldChain op.apply (.tuple [v, .tuple vs]) = .ok result) :
    Yields rule source limit (.call op.chainName) p (max need (need' + 1) + 2)
      (.matched result r) := by
  refine yields_call (isCall_rule _) ?_
  rw [op.rule_chainName]
  exact yields_chain h hrest hfold

theorem chain_noMatch (h : Yields rule source limit (.call op.operandName) p need .noMatch) :
    Yields rule source limit (.call op.chainName) p (need + 2) .noMatch := by
  refine yields_call (isCall_rule _) ?_
  rw [op.rule_chainName]
  exact yields_action_noMatch (yields_sequence (yieldsAll_noMatch h))

/-- A whole source is a sum that ends where the source does. -/
theorem start_matched (h : Yields rule source limit (.call .sum) 0 need (.matched v q)) :
    Yields rule source limit (.call .start) 0 (need + 2)
      (if q = source.length then .matched v q else .noMatch) :=
  yields_call rfl (yields_whole h)

theorem start_noMatch (h : Yields rule source limit (.call .sum) 0 need .noMatch) :
    Yields rule source limit (.call .start) 0 (need + 2) .noMatch :=
  yields_call rfl (yields_action_noMatch (yields_sequence (yieldsAll_noMatch h)))

/-! ## §4 Trees -/

/-- The operators that go on with a phrase, if they follow it. -/
def Phrase.operators : Phrase → List Operator
  | .factor => []
  | .chain .mul | .rest .mul => [.mul]
  | .chain .add | .rest .add => [.mul, .add]

/-- At a position nothing goes on with a phrase. -/
def Phrase.StopsAt (phrase : Phrase) (source : Source) (q : Nat) : Prop :=
  ∀ op ∈ phrase.operators, source.chars[q]? ≠ some op.symbol

namespace Tree

/-- A tree is read from a position to another: its number, or the operators and
operands of a rest. -/
def ReadFrom (source : Source) (limit : Int) : {phrase : Phrase} → Tree phrase → Nat → Nat → Prop
  | .factor, t, p, q => Yields rule source limit (.call .factor) p t.levels
      (.matched (.int (t.value % arithmeticModulus)) q)
  | .chain op, t, p, q => Yields rule source limit (.call op.chainName) p t.levels
      (.matched (.int (t.value % arithmeticModulus)) q)
  | .rest op, t, p, q => YieldsMany rule source limit op.more p t.levels (.matched t.pairs q)

theorem readFrom_operand {t : Tree op.operand} (h : t.ReadFrom source limit p q) :
    Yields rule source limit (.call op.operandName) p t.levels
      (.matched (.int (t.value % arithmeticModulus)) q) := by
  cases op <;> exact h

/-- An operand ends where a rest begins: the operator of the rest does not go on
with it. -/
theorem stopsAt_operand {rest : Tree (.rest op)} (h : source.Spells p rest.text q)
    (hstop : (Phrase.rest op).StopsAt source q) : op.operand.StopsAt source p := by
  cases rest with
  | nil =>
    cases h
    cases op with
    | add =>
      intro op hop
      cases List.mem_singleton.1 hop
      exact hstop .mul List.mem_cons_self
    | mul => exact nofun
  | cons operand rest =>
    cases h with
    | cons hc _ =>
      intro other hother heq
      rw [hc] at heq
      cases op with
      | add =>
        cases List.mem_singleton.1 hother
        cases heq
      | mul => cases hother

/-- **The text of a tree is read as that tree**, where nothing goes on with it. -/
theorem reads {phrase : Phrase} (t : Tree phrase) (h : source.Spells p t.text q)
    (hstop : phrase.StopsAt source q) : t.ReadFrom source limit p q := by
  induction t generalizing p q with
  | digit d =>
    cases h with
    | cons hc h =>
      cases h
      rw [ReadFrom, value_digit_emod]
      exact factor_digit hc
  | group inner ih =>
    cases h with
    | cons hopen h =>
      obtain ⟨m, hinner, hclose⟩ := h.split
      cases hclose with
      | cons hclose h =>
        cases h
        have hsum := ih hinner fun op _ heq => by
          rw [hclose] at heq
          cases op <;> cases heq
        exact factor_group hopen hsum hclose
  | @chain op first rest ihf ihr =>
    have hstop : (Phrase.rest op).StopsAt source q := by cases op <;> exact hstop
    obtain ⟨m, hfirst, hrest⟩ := h.split
    have hone := readFrom_operand (ihf hfirst (stopsAt_operand hrest hstop))
    exact chain_matched hone (ihr hrest hstop) (foldChain_pairs first rest)
  | @nil op =>
    cases h
    exact yieldsMany_nil (more_noMatch (hstop op (by cases op <;> decide)))
  | @cons op operand rest iho ihr =>
    cases h with
    | cons hc h =>
      obtain ⟨m, hoperand, hrest⟩ := h.split
      have hone := readFrom_operand (iho hoperand (stopsAt_operand hrest hstop))
      have hle := hoperand.le
      exact yieldsMany_cons (more_matched hc hone) (by omega) hoperand.le_length (ihr hrest hstop)

end Tree

/-! ## §5 Positions -/

/-- From a position a tree is read as what a production stands for, or nothing
is. -/
def Total (source : Source) (limit : Int) (phrase : Phrase) (name : Production) (p : Nat) : Prop :=
  (∃ (t : Tree phrase) (q need : Nat), source.Spells p t.text q ∧
    Yields rule source limit (.call name) p need
      (.matched (.int (t.value % arithmeticModulus)) q)) ∨
  ∃ need, Yields rule source limit (.call name) p need .noMatch

/-- Where sums are total further on, so are factors. -/
theorem factor_total
    (h : p + 1 ≤ source.length → Total source limit (.chain .add) .sum (p + 1)) :
    Total source limit .factor .factor p := by
  cases hc : source.chars[p]? with
  | none =>
    refine .inr ⟨_, factor_noMatch (fun c hc' => ?_) ?_⟩
    · rw [hc] at hc'
      cases hc'
    · rw [hc]
      exact nofun
  | some c =>
    obtain ⟨hlt, _⟩ := Array.getElem?_eq_some_iff.1 hc
    cases hdigit : CharRange.digits.contains c with
    | true =>
      obtain ⟨d, rfl⟩ := exists_digit hdigit
      refine .inl ⟨.digit d, p + 1, 2, .single hc, ?_⟩
      rw [Tree.value_digit_emod]
      exact factor_digit hc
    | false =>
      by_cases hopen : c = '('
      · subst hopen
        rcases h hlt with ⟨t, q, need, hspell, hsum⟩ | ⟨need, hsum⟩
        · by_cases hclose : source.chars[q]? = some ')'
          · refine .inl ⟨.group t, q + 1, need + 3, ?_, factor_group hc hsum hclose⟩
            exact .cons hc (hspell.append (.single hclose))
          · exact .inr ⟨need + 3, factor_unclosed hc (.inr ⟨_, q, hsum, hclose⟩)⟩
        · exact .inr ⟨need + 3, factor_unclosed hc (.inl hsum)⟩
      · refine .inr ⟨3, factor_noMatch (fun c' hc' => ?_) fun heq => ?_⟩
        · rw [hc] at hc'
          cases hc'
          exact hdigit
        · rw [hc] at heq
          cases heq
          exact hopen rfl

/-- Where operands are total further on, a rest is read. -/
theorem rest_total (hp : p ≤ source.length)
    (h : ∀ m, p < m → m ≤ source.length → Total source limit op.operand op.operandName m) :
    ∃ (rest : Tree (.rest op)) (q need : Nat), source.Spells p rest.text q ∧
      YieldsMany rule source limit op.more p need (.matched rest.pairs q) := by
  induction hleft : source.length - p using Nat.strongRecOn generalizing p with
  | ind left ih =>
    by_cases hc : source.chars[p]? = some op.symbol
    · obtain ⟨hlt, _⟩ := Array.getElem?_eq_some_iff.1 hc
      rcases h (p + 1) (Nat.lt_succ_self p) hlt with ⟨t, m, need, hspell, hone⟩ | ⟨need, hone⟩
      · have hlt := hspell.le
        have hle := hspell.le_length
        obtain ⟨rest, q, need', hrest, hmany⟩ := ih (source.length - m) (by omega) hle
          (fun m' hm' => h m' (by omega)) rfl
        have hmany := yieldsMany_cons (more_matched hc hone) (by omega) hle hmany
        exact ⟨.cons t rest, q, _, .cons hc (hspell.append hrest), hmany⟩
      · exact ⟨.nil, p, _, .nil hp, yieldsMany_nil (more_unfinished hc hone)⟩
    · exact ⟨.nil, p, _, .nil hp, yieldsMany_nil (more_noMatch hc)⟩

/-- Where operands are total from here on, so are chains. -/
theorem chain_total
    (h : ∀ m, p ≤ m → m ≤ source.length → Total source limit op.operand op.operandName m)
    (hp : p ≤ source.length) : Total source limit (.chain op) op.chainName p := by
  rcases h p (Nat.le_refl p) hp with ⟨first, m, need, hspell, hone⟩ | ⟨need, hone⟩
  · have hle := hspell.le
    obtain ⟨rest, q, need', hrest, hmany⟩ := rest_total hspell.le_length fun m' hm' =>
      h m' (by omega)
    exact .inl ⟨.chain first rest, q, _, hspell.append hrest,
      chain_matched hone hmany (Tree.foldChain_pairs first rest)⟩
  · exact .inr ⟨_, chain_noMatch hone⟩

/-- **From every position** of every source an expression is read, or nothing
is. -/
theorem total_of_le (hp : p ≤ source.length) :
    Total source limit (.chain .add) .sum p := by
  induction hleft : source.length - p using Nat.strongRecOn generalizing p with
  | ind left ih =>
    have hfactor : ∀ m, p ≤ m → m ≤ source.length → Total source limit .factor .factor m := by
      intro m hm hle
      exact factor_total fun hle' => ih (source.length - (m + 1)) (by omega) hle' rfl
    have hproduct : ∀ m, p ≤ m → m ≤ source.length →
        Total source limit (.chain .mul) .product m := fun m hm hle =>
      chain_total (fun m' hm' => hfactor m' (hm.trans hm')) hle
    exact chain_total hproduct hp

end PegGraph.Arithmetic
