/-
PegGraph.Proofs.NestedList.Reading — what the rules of nested lists do with a text.

  §1 Digits    — runs of digits, and the numbers that they stand for.
  §2 Lists     — items, and the commas and brackets around them.
  §3 Trees     — `reads`: the text of a tree is read as that tree.
  §4 Positions — `total_of_le`: from every position a value is read, or nothing.

An opening bracket is read twice where a list has items: the empty list is tried
first, and goes back when the next character does not close it. So what is in the
brackets must not begin with a closing one, which no value does.

A run of digits is read up to its end, however long it is, and only then turned into a
number. A run that is too long for that is the one fault of the grammar.
-/
import PegGraph.Proofs.NestedList.Definition
import PegGraph.Proofs.NestedList.Document
import PegGraph.Proofs.Spelling

namespace PegGraph.NestedList

open Limits (maxNumeralDigits)
open Rule (Yields YieldsAll YieldsMany yields_call yields_range yields_range_noMatch yields_single
  yields_single_noMatch yields_action yields_action_noMatch yields_sequence yieldsAll_nil
  yieldsAll_cons yieldsAll_noMatch yields_first yields_second yields_repetition yieldsMany_nil
  yieldsMany_cons yields_behind yields_between yields_between_unfinished yields_chain yields_whole)

variable {source : Source} {limit : Int} {need need' p q r : Nat} {v : Value} {vs : List Value}
  {c : Char} {chars : List Char}

/-! ## §1 Digits -/

/-- No digit stands at a position. -/
def NoDigitAt (source : Source) (p : Nat) : Prop :=
  ∀ c, source.chars[p]? = some c → c.isDigit = false

theorem NoDigitAt.of_eq (hc : source.chars[p]? = some c) (h : c.isDigit = false) :
    NoDigitAt source p := by
  intro c' hc'
  rw [hc] at hc'
  cases hc'
  exact h

/-- What is read for a character. -/
def letter (c : Char) : Value := .text (String.singleton c)

theorem digit_matched (hc : source.chars[p]? = some c) (h : c.isDigit = true) :
    Yields rule source limit (.range .digits) p 0 (.matched (letter c) (p + 1)) :=
  yields_range hc h

theorem digit_noMatch (h : NoDigitAt source p) :
    Yields rule source limit (.range .digits) p 0 .noMatch :=
  yields_range_noMatch h

theorem join_letter_append (c : Char) (chars : List Char) :
    (letter c).join ++ String.ofList chars = String.ofList (c :: chars) := by
  rw [letter, Value.join_text, String.singleton_eq_ofList, ← String.ofList_append,
    List.singleton_append]

theorem joinAll_letters (chars : List Char) :
    Value.joinAll (chars.map letter) = String.ofList chars := by
  induction chars with
  | nil => exact Value.joinAll_nil
  | cons c chars ih => rw [List.map_cons, Value.joinAll_cons, ih, join_letter_append]

theorem readDigits_eq (chars : List Char) :
    Value.readDigits chars = Nat.ofDigitChars 10 chars 0 := by
  unfold Value.readDigits Nat.ofDigitChars
  simp only [Nat.mul_comm]

/-- A numeral that is not too long is turned into its number. -/
theorem numeral_letters {n : Numeral} (hchars : n.chars = c :: chars)
    (hlength : n.chars.length ≤ maxNumeralDigits) :
    numeral (.tuple [letter c, .tuple (chars.map letter)]) = .ok (.int n.value) := by
  have htext : (letter c).join ++ (Value.tuple (chars.map letter)).join =
      String.ofList n.chars := by
    rw [Value.join, joinAll_letters, join_letter_append, hchars]
  have hall : n.chars.all Char.isDigit = true := List.all_eq_true.2 n.isDigit
  change Value.readNumeral ((letter c).join ++ (Value.tuple (chars.map letter)).join) = _
  rw [htext]
  unfold Value.readNumeral
  rw [String.toList_ofList, if_pos ⟨n.ne_nil, hall⟩, if_neg (Nat.not_lt.2 hlength),
    readDigits_eq]
  rfl

/-- Digits are read one after another, up to the first character that is none. -/
theorem digits_matched (hspell : source.Spells p chars q) (h : ∀ c ∈ chars, c.isDigit = true)
    (hstop : NoDigitAt source q) :
    YieldsMany rule source limit (.range .digits) p 0 (.matched (chars.map letter) q) := by
  induction chars generalizing p with
  | nil =>
    cases hspell
    exact yieldsMany_nil (digit_noMatch hstop)
  | cons c chars ih =>
    rw [List.forall_mem_cons] at h
    cases hspell with
    | cons hc hrest =>
      have hle := hrest.le
      have hlength := hrest.le_length
      exact yieldsMany_cons (digit_matched hc h.1) (Nat.lt_succ_self p) (hle.trans hlength)
        (ih hrest h.2)

theorem integer_matched {n : Numeral} (hspell : source.Spells p n.chars q)
    (hstop : NoDigitAt source q) (hlength : n.chars.length ≤ maxNumeralDigits) :
    Yields rule source limit integerRule p 3 (.matched (.int n.value) q) := by
  have hdigit := n.isDigit
  cases hchars : n.chars with
  | nil => exact absurd hchars n.ne_nil
  | cons c chars =>
    rw [hchars] at hspell
    rw [hchars, List.forall_mem_cons] at hdigit
    cases hspell with
    | cons hc hrest =>
      exact yields_chain (digit_matched hc hdigit.1) (digits_matched hrest hdigit.2 hstop)
        (numeral_letters hchars hlength)

theorem integer_noMatch (h : NoDigitAt source p) :
    Yields rule source limit integerRule p 2 .noMatch :=
  yields_action_noMatch (yields_sequence (yieldsAll_noMatch (digit_noMatch h)))

/-! ## §2 Lists -/

theorem empty_matched (hopen : source.chars[p]? = some '[')
    (hclose : source.chars[p + 1]? = some ']') :
    Yields rule source limit emptyRule p 2 (.matched (.list []) (p + 2)) :=
  yields_action (yields_sequence (yieldsAll_cons (yields_single hopen)
    (yieldsAll_cons (yields_single hclose) yieldsAll_nil))) rfl

theorem empty_noMatch (hopen : source.chars[p]? ≠ some '[') :
    Yields rule source limit emptyRule p 2 .noMatch :=
  yields_action_noMatch (yields_sequence (yieldsAll_noMatch (yields_single_noMatch hopen)))

theorem empty_unclosed (hopen : source.chars[p]? = some '[')
    (hclose : source.chars[p + 1]? ≠ some ']') :
    Yields rule source limit emptyRule p 2 .noMatch := by
  have hrest : YieldsAll rule source limit [.range (.single ']')] (p + 1) 0 .noMatch :=
    yieldsAll_noMatch (yields_single_noMatch hclose)
  exact yields_action_noMatch (yields_sequence (yieldsAll_cons (yields_single hopen) hrest))

/-- What is read for an item after a comma. -/
def afterComma (v : Value) : Value := .tuple [letter ',', v]

theorem seconds_afterComma (vs : List Value) : seconds (vs.map afterComma) = .ok vs := by
  induction vs with
  | nil => rfl
  | cons v vs ih =>
    rw [List.map_cons, seconds, afterComma, Value.pair_tuple]
    simp only [ih]

theorem gather_afterComma (v : Value) (vs : List Value) :
    gather (.tuple [v, .tuple (vs.map afterComma)]) = .ok (.list (v :: vs)) := by
  simp only [gather, itemsAction, Action.apply, Value.part, List.getElem?_cons_zero,
    List.getElem?_cons_succ, Value.items?_tuple, seconds_afterComma]

/-- A comma and an item after it. -/
theorem more_matched (hcomma : source.chars[p]? = some ',')
    (h : Yields rule source limit (.call ()) (p + 1) need (.matched v q)) :
    Yields rule source limit moreRule p (need + 1) (.matched (afterComma v) q) :=
  yields_behind (yields_single hcomma) h

/-- A comma without an item. -/
theorem more_unfinished (hcomma : source.chars[p]? = some ',')
    (h : Yields rule source limit (.call ()) (p + 1) need .noMatch) :
    Yields rule source limit moreRule p (need + 1) .noMatch :=
  yields_behind (yields_single hcomma) h

theorem more_noMatch (hcomma : source.chars[p]? ≠ some ',') :
    Yields rule source limit moreRule p 1 .noMatch :=
  yields_sequence (yieldsAll_noMatch (yields_single_noMatch hcomma))

theorem items_matched (h : Yields rule source limit (.call ()) p need (.matched v q))
    (hrest : YieldsMany rule source limit moreRule q need' (.matched (vs.map afterComma) r)) :
    Yields rule source limit itemsRule p (max need (need' + 1) + 2)
      (.matched (.list (v :: vs)) r) :=
  yields_chain h hrest (gather_afterComma v vs)

theorem items_noMatch (h : Yields rule source limit (.call ()) p need .noMatch) :
    Yields rule source limit itemsRule p (need + 2) .noMatch :=
  yields_action_noMatch (yields_sequence (yieldsAll_noMatch h))

theorem filled_matched (hopen : source.chars[p]? = some '[')
    (h : Yields rule source limit itemsRule (p + 1) need (.matched v q))
    (hclose : source.chars[q]? = some ']') :
    Yields rule source limit filledRule p (need + 2) (.matched v (q + 1)) :=
  yields_between (yields_single hopen) h (yields_single hclose)

theorem filled_noMatch (hopen : source.chars[p]? ≠ some '[') :
    Yields rule source limit filledRule p 2 .noMatch :=
  yields_action_noMatch (yields_sequence (yieldsAll_noMatch (yields_single_noMatch hopen)))

/-- Without items, or without a closing bracket after them, there is no list. -/
theorem filled_unfinished (hopen : source.chars[p]? = some '[')
    (h : Yields rule source limit itemsRule (p + 1) need .noMatch ∨
      ∃ v q, Yields rule source limit itemsRule (p + 1) need (.matched v q) ∧
        source.chars[q]? ≠ some ']') :
    Yields rule source limit filledRule p (need + 2) .noMatch := by
  refine yields_between_unfinished (yields_single hopen) (h.imp id ?_)
  rintro ⟨v, q, h, hclose⟩
  exact ⟨v, q, h, yields_single_noMatch hclose⟩

/-- A numeral is a value. -/
theorem value_number {n : Numeral} (hspell : source.Spells p n.chars q)
    (hstop : NoDigitAt source q) (hlength : n.chars.length ≤ maxNumeralDigits) :
    Yields rule source limit (.call ()) p 4 (.matched (.int n.value) q) :=
  yields_call rfl (yields_first (integer_matched hspell hstop hlength))

/-- A pair of brackets with nothing between them is a value. -/
theorem value_empty (hopen : source.chars[p]? = some '[')
    (hclose : source.chars[p + 1]? = some ']') :
    Yields rule source limit (.call ()) p 4 (.matched (.list []) (p + 2)) :=
  yields_call rfl (yields_second (integer_noMatch (.of_eq hopen rfl))
    (yields_first (empty_matched hopen hclose)))

/-- Where there is neither of these, a value is a list with items. -/
theorem value_of_filled {a : Peg.Answer Value} (hdigit : NoDigitAt source p)
    (hempty : Yields rule source limit emptyRule p 2 .noMatch)
    (h : Yields rule source limit filledRule p (need + 2) a) :
    Yields rule source limit (.call ()) p (need + 4) a := by
  have hlist := yields_second hempty h
  rw [Nat.max_eq_right (Nat.le_add_left 2 need)] at hlist
  have hvalue := yields_second (integer_noMatch hdigit) hlist
  rw [Nat.max_eq_right (by omega)] at hvalue
  exact yields_call rfl hvalue

/-- Items between brackets are a value, where the first of them is not taken for the end
of the list. -/
theorem value_list (hopen : source.chars[p]? = some '[')
    (hnonempty : source.chars[p + 1]? ≠ some ']')
    (h : Yields rule source limit itemsRule (p + 1) (need + 2) (.matched v q))
    (hclose : source.chars[q]? = some ']') :
    Yields rule source limit (.call ()) p (need + 6) (.matched v (q + 1)) :=
  value_of_filled (.of_eq hopen rfl) (empty_unclosed hopen hnonempty)
    (filled_matched hopen h hclose)

/-- Without items, or without a closing bracket after them, there is no value. -/
theorem value_unfinished (hopen : source.chars[p]? = some '[')
    (hnonempty : source.chars[p + 1]? ≠ some ']')
    (h : Yields rule source limit itemsRule (p + 1) need .noMatch ∨
      ∃ v q, Yields rule source limit itemsRule (p + 1) need (.matched v q) ∧
        source.chars[q]? ≠ some ']') :
    Yields rule source limit (.call ()) p (need + 4) .noMatch :=
  value_of_filled (.of_eq hopen rfl) (empty_unclosed hopen hnonempty) (filled_unfinished hopen h)

theorem value_noMatch (hdigit : NoDigitAt source p) (hopen : source.chars[p]? ≠ some '[') :
    Yields rule source limit (.call ()) p 4 .noMatch :=
  value_of_filled hdigit (empty_noMatch hopen) (filled_noMatch hopen)

/-- A whole source is a value that ends where the source does. -/
theorem document_matched (h : Yields rule source limit (.call ()) 0 need (.matched v q)) :
    Yields rule source limit documentRule 0 (need + 2)
      (if q = source.length then .matched v q else .noMatch) :=
  yields_whole h

theorem document_noMatch (h : Yields rule source limit (.call ()) 0 need .noMatch) :
    Yields rule source limit documentRule 0 (need + 2) .noMatch :=
  yields_action_noMatch (yields_sequence (yieldsAll_noMatch h))

/-! ## §3 Trees -/

/-- At a position nothing goes on with a phrase. What follows the first item of a list
ends at the bracket that closes the list. -/
def Phrase.StopsAt : Phrase → Source → Nat → Prop
  | .value, source, q => NoDigitAt source q
  | .more, source, q => source.chars[q]? = some ']'

namespace Tree

/-- The numerals of a tree, from left to right. -/
def numerals : {phrase : Phrase} → Tree phrase → List Numeral
  | _, .number n => [n]
  | _, .empty => []
  | _, .list first rest => first.numerals ++ rest.numerals
  | _, .last => []
  | _, .next item rest => item.numerals ++ rest.numerals

/-- The levels of composites that it takes to read a tree. A list is around its items,
and a comma around the item after it. -/
def levels : {phrase : Phrase} → Tree phrase → Nat
  | _, .number _ => 4
  | _, .empty => 4
  | _, .list first rest => max first.levels (rest.levels + 1) + 6
  | _, .last => 1
  | _, .next item rest => max (item.levels + 1) rest.levels

/-- A tree is read from a position to another: its value, or further items with their
commas. -/
def ReadFrom (source : Source) (limit : Int) : {phrase : Phrase} → Tree phrase → Nat → Nat → Prop
  | .value, t, p, q => Yields rule source limit (.call ()) p t.levels (.matched t.meaning q)
  | .more, t, p, q =>
    YieldsMany rule source limit moreRule p t.levels (.matched (t.meaning.map afterComma) q)

/-- A value begins with a digit or an opening bracket. -/
theorem exists_head (t : Tree .value) (h : source.Spells p t.text q) :
    ∃ c, source.chars[p]? = some c ∧ (c.isDigit = true ∨ c = '[') := by
  cases t with
  | number n =>
    have hdigit := n.isDigit
    cases hchars : n.chars with
    | nil => exact absurd hchars n.ne_nil
    | cons c chars =>
      rw [text, hchars] at h
      rw [hchars] at hdigit
      cases h with
      | cons hc _ => exact ⟨c, hc, .inl (hdigit c List.mem_cons_self)⟩
  | empty => cases h with | cons hc _ => exact ⟨'[', hc, .inr rfl⟩
  | list => cases h with | cons hc _ => exact ⟨'[', hc, .inr rfl⟩

/-- So it is not taken for the end of a list. -/
theorem not_closing (t : Tree .value) (h : source.Spells p t.text q) :
    source.chars[p]? ≠ some ']' := by
  obtain ⟨c, hc, hhead⟩ := t.exists_head h
  intro heq
  rw [hc] at heq
  cases heq
  rcases hhead with hdigit | hbracket
  · cases hdigit
  · cases hbracket

/-- Where a list goes on or ends, no digit is. -/
theorem noDigitAt_of_more (t : Tree .more) (h : source.Spells p t.text q)
    (hstop : source.chars[q]? = some ']') : NoDigitAt source p := by
  cases t with
  | last =>
    cases h
    exact .of_eq hstop rfl
  | next => cases h with | cons hc _ => exact .of_eq hc rfl

/-- **The text of a tree is read as that tree**, where nothing goes on with it and no
numeral is too long. -/
theorem reads {phrase : Phrase} (t : Tree phrase) (h : source.Spells p t.text q)
    (hstop : phrase.StopsAt source q)
    (hlength : ∀ n ∈ t.numerals, n.chars.length ≤ maxNumeralDigits) :
    t.ReadFrom source limit p q := by
  induction t generalizing p q with
  | number n => exact value_number h hstop (hlength n List.mem_cons_self)
  | empty =>
    cases h with
    | cons hopen h =>
      cases h with
      | cons hclose h =>
        cases h
        exact value_empty hopen hclose
  | list first rest ihf ihr =>
    rw [numerals, List.forall_mem_append] at hlength
    obtain ⟨m, hitems, hclose⟩ := h.split
    cases hitems with
    | cons hopen hitems =>
      obtain ⟨k, hfirst, hrest⟩ := hitems.split
      cases hclose with
      | cons hclose h =>
        cases h
        have hone := ihf hfirst (rest.noDigitAt_of_more hrest hclose) hlength.1
        have hmany := ihr hrest hclose hlength.2
        exact value_list hopen (first.not_closing hfirst) (items_matched hone hmany) hclose
  | last =>
    cases h
    refine yieldsMany_nil (more_noMatch fun heq => ?_)
    rw [show source.chars[p]? = some ']' from hstop] at heq
    cases heq
  | next item rest ihi ihr =>
    rw [numerals, List.forall_mem_append] at hlength
    cases h with
    | cons hcomma h =>
      obtain ⟨m, hitem, hrest⟩ := h.split
      have hone := ihi hitem (rest.noDigitAt_of_more hrest hstop) hlength.1
      have hle := hitem.le
      exact yieldsMany_cons (more_matched hcomma hone) (by omega) hitem.le_length
        (ihr hrest hstop hlength.2)

end Tree

/-! ## §4 Positions -/

/-- No run of digits in a source is too long to be read as a number. -/
def HasShortRuns (source : Source) : Prop :=
  ∀ run, run <:+: source.chars.toList → (∀ c ∈ run, c.isDigit = true) →
    run.length ≤ maxNumeralDigits

/-- From a position a value is read, or nothing is. -/
def Total (source : Source) (limit : Int) (p : Nat) : Prop :=
  (∃ (t : Tree .value) (q need : Nat), source.Spells p t.text q ∧
    Yields rule source limit (.call ()) p need (.matched t.meaning q)) ∨
  ∃ need, Yields rule source limit (.call ()) p need .noMatch

/-- From every position a run of digits goes up to where no digit is. -/
theorem exists_run (hp : p ≤ source.length) : ∃ chars q, source.Spells p chars q ∧
    (∀ c ∈ chars, c.isDigit = true) ∧ NoDigitAt source q := by
  induction hleft : source.length - p generalizing p with
  | zero =>
    refine ⟨[], p, .nil hp, nofun, fun c hc => ?_⟩
    obtain ⟨hlt, _⟩ := Array.getElem?_eq_some_iff.1 hc
    exact absurd hlt (by rw [← Source.length]; omega)
  | succ left ih =>
    by_cases hdigit : NoDigitAt source p
    · exact ⟨[], p, .nil hp, nofun, hdigit⟩
    · obtain ⟨c, hc⟩ := not_forall.1 hdigit
      rw [Classical.not_imp, Bool.not_eq_false] at hc
      obtain ⟨hc, hdigit⟩ := hc
      obtain ⟨hlt, _⟩ := Array.getElem?_eq_some_iff.1 hc
      obtain ⟨chars, q, hspell, hall, hstop⟩ := ih hlt (by omega)
      exact ⟨c :: chars, q, .cons hc hspell, List.forall_mem_cons.2 ⟨hdigit, hall⟩, hstop⟩

/-- Where a digit is, a numeral is read. -/
theorem number_total (hruns : HasShortRuns source) (hp : p ≤ source.length)
    (hdigit : ¬ NoDigitAt source p) : Total source limit p := by
  obtain ⟨chars, q, hspell, hall, hstop⟩ := exists_run hp
  have hne : chars ≠ [] := by
    rintro rfl
    cases hspell
    exact hdigit hstop
  let n : Numeral := ⟨chars, hne, hall⟩
  exact .inl ⟨.number n, q, 4, hspell, value_number (n := n) hspell hstop
    (hruns chars hspell.isInfix hall)⟩

/-- Where values are total further on, further items are read. -/
theorem more_total (hp : p ≤ source.length)
    (h : ∀ m, p < m → m ≤ source.length → Total source limit m) :
    ∃ (t : Tree .more) (q need : Nat), source.Spells p t.text q ∧
      YieldsMany rule source limit moreRule p need (.matched (t.meaning.map afterComma) q) := by
  induction hleft : source.length - p using Nat.strongRecOn generalizing p with
  | ind left ih =>
    by_cases hc : source.chars[p]? = some ','
    · obtain ⟨hlt, _⟩ := Array.getElem?_eq_some_iff.1 hc
      rcases h (p + 1) (Nat.lt_succ_self p) hlt with ⟨item, m, need, hspell, hone⟩ | ⟨need, hone⟩
      · have hlt := hspell.le
        have hle := hspell.le_length
        obtain ⟨rest, q, need', hrest, hmany⟩ := ih (source.length - m) (by omega) hle
          (fun m' hm' => h m' (by omega)) rfl
        have hmany := yieldsMany_cons (more_matched hc hone) (by omega) hle hmany
        exact ⟨.next item rest, q, _, .cons hc (hspell.append hrest), hmany⟩
      · exact ⟨.last, p, _, .nil hp, yieldsMany_nil (more_unfinished hc hone)⟩
    · exact ⟨.last, p, _, .nil hp, yieldsMany_nil (more_noMatch hc)⟩

/-- Where values are total further on, a list is read at an opening bracket, or nothing
is. -/
theorem list_total (hopen : source.chars[p]? = some '[')
    (h : ∀ m, p < m → m ≤ source.length → Total source limit m) : Total source limit p := by
  obtain ⟨hlt, _⟩ := Array.getElem?_eq_some_iff.1 hopen
  by_cases hempty : source.chars[p + 1]? = some ']'
  · exact .inl ⟨.empty, p + 2, 4, .cons hopen (.single hempty), value_empty hopen hempty⟩
  · rcases h (p + 1) (Nat.lt_succ_self p) hlt with ⟨first, m, need, hspell, hone⟩ | ⟨need, hone⟩
    · have hle := hspell.le
      obtain ⟨rest, q, need', hrest, hmany⟩ := more_total hspell.le_length fun m' hm' =>
        h m' (by omega)
      have hitems := items_matched hone hmany
      by_cases hclose : source.chars[q]? = some ']'
      · refine .inl ⟨.list first rest, q + 1, _, ?_, value_list hopen hempty hitems hclose⟩
        exact .append (.cons hopen (hspell.append hrest)) (.single hclose)
      · exact .inr ⟨_, value_unfinished hopen hempty (.inr ⟨_, q, hitems, hclose⟩)⟩
    · exact .inr ⟨_, value_unfinished hopen hempty (.inl (items_noMatch hone))⟩

/-- **From every position** of every source a value is read, or nothing is. -/
theorem total_of_le (hruns : HasShortRuns source) (hp : p ≤ source.length) :
    Total source limit p := by
  induction hleft : source.length - p using Nat.strongRecOn generalizing p with
  | ind left ih =>
    by_cases hdigit : NoDigitAt source p
    · by_cases hopen : source.chars[p]? = some '['
      · exact list_total hopen fun m hm hle => ih (source.length - m) (by omega) hle rfl
      · exact .inr ⟨4, value_noMatch hdigit hopen⟩
    · exact number_total hruns hp hdigit

end PegGraph.NestedList
