/-
PegGraph.Proofs.NestedList.Parsing — what the parser of nested lists accepts, and what
it makes of it.

  §1 Sources — a source is read as a document as a whole, or not at all.
  §2 Parsers — tries in any session.

A text may be that of several trees as far as §1 goes. That it denotes one value only is
a consequence: the parser yields the value of each of them.
-/
import PegGraph.Proofs.NestedList.Reading

namespace PegGraph.NestedList

open Limits (maxNumeralDigits)
open Rule (Yields)

variable {source : Source} {limit : Int}

/-! ## §1 Sources -/

/-- The numerals of a tree stand in its text. -/
theorem Tree.isInfix_of_mem_numerals {phrase : Phrase} (t : Tree phrase) {n : Numeral}
    (h : n ∈ t.numerals) : n.chars <:+: t.text := by
  induction t with
  | number m =>
    cases List.mem_singleton.1 h
    exact List.infix_rfl
  | empty | last => cases h
  | list first rest ihf ihr =>
    rw [text]
    refine .trans ?_ (List.prefix_append ..).isInfix
    rcases List.mem_append.1 h with h | h
    · exact ((ihf h).trans (List.prefix_append ..).isInfix).trans (List.suffix_cons ..).isInfix
    · exact ((ihr h).trans (List.suffix_append ..).isInfix).trans (List.suffix_cons ..).isInfix
  | next item rest ihi ihr =>
    rw [text]
    rcases List.mem_append.1 h with h | h
    · exact ((ihi h).trans (List.prefix_append ..).isInfix).trans (List.suffix_cons ..).isInfix
    · exact ((ihr h).trans (List.suffix_append ..).isInfix).trans (List.suffix_cons ..).isInfix

/-- A source that is the text of a value is read to its end, unless a numeral in it is too
long. -/
theorem document_of_text {t : Tree .value} (h : source.chars.toList = t.text)
    (hlength : ∀ n ∈ t.numerals, n.chars.length ≤ maxNumeralDigits) :
    Yields rule source limit documentRule 0 (t.levels + 2)
      (.matched t.meaning source.length) := by
  have hstop : NoDigitAt source source.length := by
    intro c hc
    have hnone : source.chars[source.length]? = none := Array.getElem?_eq_none (Nat.le_refl _)
    rw [hnone] at hc
    cases hc
  have hvalue : t.ReadFrom source limit 0 source.length :=
    t.reads (Source.Spells.iff_toList.2 h.symm) hstop hlength
  have hdocument := document_matched hvalue
  rwa [if_pos rfl] at hdocument

/-- Any other source is not matched. -/
theorem document_of_not_text (hruns : HasShortRuns source)
    (h : ¬ ∃ t : Tree .value, t.text = source.chars.toList) :
    ∃ need, Yields rule source limit documentRule 0 need .noMatch := by
  rcases total_of_le hruns (Nat.zero_le source.length) with
    ⟨t, q, need, hspell, hvalue⟩ | ⟨need, hvalue⟩
  · have hq : q ≠ source.length := by
      rintro rfl
      exact h ⟨t, Source.Spells.iff_toList.1 hspell⟩
    have hdocument := document_matched hvalue
    rw [if_neg hq] at hdocument
    exact ⟨need + 2, hdocument⟩
  · exact ⟨need + 2, document_noMatch hvalue⟩

/-! ## §2 Parsers -/

/-- A parser is made in any session. Sources that are not too large it tries as the rules
do, with the default headroom. -/
theorem parser_tries (s : Session) :
    ∃ (parser : Parser) (s' : Session), NestedList.parser s = (.ok parser, s') ∧
      ∀ (names : Session.GuardNames) (source : Source), source.length ≤ 10485760 →
        (Session.tryParse names parser source s').1 =
          (Rule.eval rule source 500 500 documentRule 0).outcome := by
  obtain ⟨parser, s', own, hmake, hconfig, hsettles, hlays⟩ := parser_settles s
  refine ⟨parser, s', hmake, fun names source hsize => ?_⟩
  have htry : (Session.tryParse names parser source s').1 = _ :=
    hsettles.tryParse_eq (fun _ => rfl) hlays (s'.depthOf names none) source
  have hlarge : parser.config.tooLarge source = false := by
    have hmax : Parser.Config.default.maxSourceSize = 10485760 := rfl
    unfold Parser.Config.tooLarge
    rw [hconfig, hmax, Bool.and_eq_false_iff, decide_eq_false_iff_not, decide_eq_false_iff_not]
    exact .inr (by omega)
  rw [htry, hlarge, hconfig]
  rfl

/-- **The parser accepts the language of its grammar**, and yields what a text denotes.
Where runs of digits are short, it stops in no other way than at the depth limit. -/
theorem tryParse_denotes (s : Session) :
    ∃ (parser : Parser) (s' : Session), NestedList.parser s = (.ok parser, s') ∧
      ∀ (names : Session.GuardNames) (source : Source) (outcome : Outcome),
        (Session.tryParse names parser source s').1 = outcome →
        source.length ≤ 10485760 →
        (∀ run, run <:+: source.chars.toList → (∀ c ∈ run, c.isDigit = true) →
          run.length ≤ 4300) →
        (∀ limit, outcome ≠ .failed (.depthLimitExceeded limit)) →
        (∀ fault, outcome ≠ .failed fault) ∧
          ((∃ v q, outcome = .matched v q) ↔ source.chars.toList ∈ documentGrammar.language) ∧
          ∀ v q, outcome = .matched v q ↔ Denotes source.chars.toList v ∧ q = source.length := by
  obtain ⟨parser, s', hmake, htry⟩ := parser_tries s
  refine ⟨parser, s', hmake, fun names source outcome houtcome hsize hruns hdepth => ?_⟩
  have hruns : HasShortRuns source := hruns
  rw [htry names source hsize] at houtcome
  have hne : Rule.eval rule source 500 500 documentRule 0 ≠ .failed (.depthLimitExceeded 500) := by
    intro heq
    rw [heq] at houtcome
    exact hdepth 500 houtcome.symm
  have hmatched : ∀ t : Tree .value, t.text = source.chars.toList →
      outcome = .matched t.meaning source.length := by
    intro t ht
    have hlength : ∀ n ∈ t.numerals, n.chars.length ≤ maxNumeralDigits := fun n hn =>
      hruns n.chars (ht ▸ t.isInfix_of_mem_numerals hn) n.isDigit
    rw [← houtcome, (document_of_text ht.symm hlength).eq_of_ne hne]
    rfl
  rw [mem_language_iff_tree]
  by_cases htext : ∃ t : Tree .value, t.text = source.chars.toList
  · obtain ⟨t, ht⟩ := htext
    rw [hmatched t ht]
    refine ⟨nofun, ⟨fun _ => ⟨t, ht⟩, fun _ => ⟨_, _, rfl⟩⟩, fun v q => ⟨fun h => ?_, ?_⟩⟩
    · cases h
      exact ⟨⟨t, ht, rfl⟩, rfl⟩
    · rintro ⟨⟨t', ht', rfl⟩, rfl⟩
      rw [← hmatched t ht, hmatched t' ht']
  · obtain ⟨need, hdocument⟩ := document_of_not_text hruns htext
    rw [← houtcome, hdocument.eq_of_ne hne]
    refine ⟨nofun, ⟨nofun, fun h => absurd h htext⟩, fun v q => ⟨nofun, ?_⟩⟩
    rintro ⟨⟨t, ht, -⟩, -⟩
    exact absurd ⟨t, ht⟩ htext

/-- Whether a parser that was made tries a source without a fault. -/
def isFaultless (made : Except Fault Parser × Session) (source : Source) : Bool :=
  match made with
  | (.ok parser, s) =>
    match (Session.tryParse (fun _ => none) parser source s).1 with
    | .matched .. | .noMatch => true
    | .failed _ => false
  | (.error _, _) => false

/-- The value of `[1,[022,333],[]]`, with the zero in front of one number kept in the
numeral. -/
def sample : Tree .value :=
  .list (.number (.ofNat 1))
    (.next (.list (.number ⟨['0', '2', '2'], by decide, List.all_eq_true.1 rfl⟩)
      (.next (.number (.ofNat 333)) .last))
      (.next .empty .last))

/-- A list within a list, and an empty one. -/
theorem tryParse_denotes_sample :
    ∃ (parser : Parser) (s' : Session), NestedList.parser .empty = (.ok parser, s') ∧
      ∀ outcome,
        (Session.tryParse (fun _ => none) parser (.ofString "[1,[022,333],[]]") s').1 = outcome →
        (Source.ofString "[1,[022,333],[]]").length ≤ 10485760 ∧
        (∀ run, run <:+: (Source.ofString "[1,[022,333],[]]").chars.toList →
          (∀ c ∈ run, c.isDigit = true) → run.length ≤ 4300) ∧
        (∀ limit, outcome ≠ .failed (.depthLimitExceeded limit)) ∧
        outcome = .matched (.list [.int 1, .list [.int 22, .int 333], .list []]) 16 := by
  obtain ⟨parser, s', hmake, h⟩ := tryParse_denotes .empty
  refine ⟨parser, s', hmake, fun outcome houtcome => ?_⟩
  have hlength : (Source.ofString "[1,[022,333],[]]").length = 16 := by decide +kernel
  have hsize : (Source.ofString "[1,[022,333],[]]").length ≤ 10485760 := by
    rw [hlength]
    decide
  have hruns : ∀ run, run <:+: (Source.ofString "[1,[022,333],[]]").chars.toList →
      (∀ c ∈ run, c.isDigit = true) → run.length ≤ 4300 := by
    intro run hrun _
    have hle : run.length ≤ (Source.ofString "[1,[022,333],[]]").length := hrun.length_le
    omega
  have hfaultless : isFaultless (NestedList.parser .empty)
      (.ofString "[1,[022,333],[]]") = true := by decide +kernel
  rw [hmake, isFaultless, houtcome] at hfaultless
  have hdepth : ∀ limit, outcome ≠ .failed (.depthLimitExceeded limit) := by
    rintro limit rfl
    cases hfaultless
  have hdenotes : Denotes (Source.ofString "[1,[022,333],[]]").chars.toList sample.meaning :=
    ⟨sample, by decide +kernel, rfl⟩
  have hmatched := (h (fun _ => none) _ outcome houtcome hsize hruns hdepth).2.2
  refine ⟨hsize, hruns, hdepth, (hmatched _ _).2 ⟨hdenotes, ?_⟩⟩
  rw [hlength]
  rfl

end PegGraph.NestedList
