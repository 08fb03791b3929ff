/-
PegGraph.Proofs.Arithmetic.Evaluation — what the parser of arithmetic expressions
accepts, and what it makes of it.

  §1 Sources — a source is read as an expression as a whole, or not at all.
  §2 Parsers — tries and parses, in any session and under any configuration.

The two ways in which a parser may stop short are its limits: the depth and the
size of a source. Whatever is not stopped by them is settled by §1.
-/
import PegGraph.Proofs.Arithmetic.Reading

namespace PegGraph.Arithmetic

open Limits (arithmeticModulus)
open Rule (Yields)

variable {source : Source} {limit : Int}

/-! ## §1 Sources -/

/-- A source that is the text of an expression is read to its end. -/
theorem start_of_text {e : Expression} (h : source.chars.toList = e.text) :
    Yields rule source limit (.call .start) 0 (e.levels + 2)
      (.matched (.int (e.value % arithmeticModulus)) source.length) := by
  have hstop : (Phrase.chain .add).StopsAt source source.length := by
    intro op _
    have hnone : source.chars[source.length]? = none := Array.getElem?_eq_none (Nat.le_refl _)
    rw [hnone]
    exact nofun
  have hsum : e.ReadFrom source limit 0 source.length :=
    e.reads (Source.Spells.iff_toList.2 h.symm) hstop
  have hstart := start_matched hsum
  rwa [if_pos rfl] at hstart

/-- Any other source is not matched. -/
theorem start_of_not_text (h : ¬ ∃ e : Expression, source.chars.toList = e.text) :
    ∃ need, Yields rule source limit (.call .start) 0 need .noMatch := by
  rcases total_of_le (Nat.zero_le source.length) with ⟨e, q, need, hspell, hsum⟩ | ⟨need, hsum⟩
  · have hq : q ≠ source.length := by
      rintro rfl
      exact h ⟨e, (Source.Spells.iff_toList.1 hspell).symm⟩
    have hstart := start_matched hsum
    rw [if_neg hq] at hstart
    exact ⟨need + 2, hstart⟩
  · exact ⟨need + 2, start_noMatch hsum⟩

/-! ## §2 Parsers -/

/-- What a source is parsed to, if neither limit is exceeded: the text of an
expression to the number that it stands for, and any other text to nothing. -/
structure Evaluates (source : Source) (outcome : Outcome) : Prop where
  matched : ∀ e : Expression, source.chars.toList = e.text →
    outcome = .matched (.int (e.value % arithmeticModulus)) source.length
  noMatch : (¬ ∃ e : Expression, source.chars.toList = e.text) → outcome = .noMatch

/-- With any headroom the start of the grammar evaluates a source, or exceeds the
depth limit. -/
theorem eval_start_cases (source : Source) (limit : Int) (headroom : Nat) :
    (Rule.eval rule source limit headroom (.call .start) 0).outcome =
        .failed (.depthLimitExceeded limit) ∨
      Evaluates source (Rule.eval rule source limit headroom (.call .start) 0).outcome := by
  by_cases hdepth : (Rule.eval rule source limit headroom (.call .start) 0).outcome =
      .failed (.depthLimitExceeded limit)
  · exact .inl hdepth
  · have hne : Rule.eval rule source limit headroom (.call .start) 0 ≠
        .failed (.depthLimitExceeded limit) := fun heq => hdepth (by rw [heq]; rfl)
    refine .inr ⟨fun e he => ?_, fun h => ?_⟩
    · exact congrArg Peg.Answer.outcome ((start_of_text he).eq_of_ne hne)
    · obtain ⟨need, hstart⟩ := start_of_not_text h
      exact congrArg Peg.Answer.outcome (hstart.eq_of_ne hne)

/-- A parser is made in any session under any configuration. It stops at one of
its two limits, or evaluates the source. -/
theorem parser_evaluates (config : Parser.Config) (s : Session) :
    ∃ (parser : Parser) (s' : Session), Arithmetic.parser config s = (.ok parser, s') ∧
      ∀ names source,
        (Session.tryParse names parser source s').1 =
          .failed (.sourceTooLarge source.length config.maxSourceSize) ∨
        (Session.tryParse names parser source s').1 =
          .failed (.depthLimitExceeded (clampDepth config.maxDepth)) ∨
        Evaluates source (Session.tryParse names parser source s').1 := by
  obtain ⟨parser, s', own, hmake, rfl, hsettles, hlays⟩ := parser_settles config s
  refine ⟨parser, s', hmake, fun names source => ?_⟩
  have htry : (Session.tryParse names parser source s').1 = _ :=
    hsettles.tryParse_eq isCall_rule hlays (s'.depthOf names none) source
  rw [htry]
  split
  · exact .inl rfl
  · exact .inr (eval_start_cases source _ _)

/-- **The parser computes ordinary arithmetic**: unless a limit is exceeded, the
text of an expression is parsed to the number that the expression stands for,
reduced once. -/
theorem parseWith_text (config : Parser.Config) (s : Session) (e : Expression) :
    ∃ (parser : Parser) (s' : Session), Arithmetic.parser config s = (.ok parser, s') ∧
      ∀ (names : Session.GuardNames) (answer : Except Fault Value),
        (Session.parseWith names parser (.ofString (String.ofList e.text)) s').1 = answer →
        (∀ limit, answer ≠ .error (.depthLimitExceeded limit)) →
        (∀ size limit, answer ≠ .error (.sourceTooLarge size limit)) →
        answer = .ok (.int (e.value % 65535)) ∧ 0 ≤ e.value % 65535 ∧ e.value % 65535 ≤ 65534 := by
  obtain ⟨parser, s', hmake, htry⟩ := parser_evaluates config s
  refine ⟨parser, s', hmake, fun names answer hanswer hdepth hsize => ⟨?_, by omega, by omega⟩⟩
  have htext : (Source.ofString (String.ofList e.text)).chars.toList = e.text := by
    simp [Source.ofString]
  change (Session.tryParse names parser _ s').1.value = answer at hanswer
  rcases htry names (.ofString (String.ofList e.text)) with hlarge | hdeep | heval
  · rw [hlarge] at hanswer
    exact absurd hanswer.symm (hsize _ _)
  · rw [hdeep] at hanswer
    exact absurd hanswer.symm (hdepth _)
  · rw [heval.matched e htext] at hanswer
    exact hanswer.symm

/-- The expression `9*9*9*9*9*(9+1)`. -/
def nines : Expression :=
  .chain (.chain (.digit 9) (.cons (.digit 9) (.cons (.digit 9) (.cons (.digit 9) (.cons (.digit 9)
    (.cons (.group (.chain (.chain (.digit 9) .nil) (.cons (.chain (.digit 1) .nil) .nil)))
      .nil)))))) .nil

/-- It stands for 590490, which is reduced to 675. -/
theorem parseWith_text_nines :
    ∃ (parser : Parser) (s' : Session), Arithmetic.parser .default .empty = (.ok parser, s') ∧
      ∀ answer, answer = (Session.parseWith (fun _ => none) parser
          (.ofString (String.ofList nines.text)) s').1 →
        (∀ limit, answer ≠ .error (.depthLimitExceeded limit)) ∧
        (∀ size limit, answer ≠ .error (.sourceTooLarge size limit)) ∧
        answer = .ok (.int 675) := by
  obtain ⟨parser, s', hmake, h⟩ := parseWith_text .default .empty nines
  refine ⟨parser, s', hmake, fun answer hanswer => ?_⟩
  have hok : (evaluate (.ofString (String.ofList nines.text)) .empty).1.isOk = true := by
    decide +kernel
  have heq : (evaluate (.ofString (String.ofList nines.text)) .empty).1 = answer := by
    unfold evaluate
    simp only [bind, StateT.bind, hmake, hanswer]
  rw [heq] at hok
  have hdepth : ∀ limit, answer ≠ .error (.depthLimitExceeded limit) := by
    rintro limit rfl
    cases hok
  have hsize : ∀ size limit, answer ≠ .error (.sourceTooLarge size limit) := by
    rintro size limit rfl
    cases hok
  exact ⟨hdepth, hsize, (h (fun _ => none) answer hanswer.symm hdepth hsize).1⟩

/-- **The parser accepts the language of its grammar**, and stops in no other way
than at its limits. -/
theorem tryParse_matched_iff (config : Parser.Config) (s : Session) :
    ∃ (parser : Parser) (s' : Session), Arithmetic.parser config s = (.ok parser, s') ∧
      ∀ (names : Session.GuardNames) (source : Source) (outcome : Outcome),
        (Session.tryParse names parser source s').1 = outcome →
        (∀ limit, outcome ≠ .failed (.depthLimitExceeded limit)) →
        (∀ size limit, outcome ≠ .failed (.sourceTooLarge size limit)) →
        (∀ fault, outcome ≠ .failed fault) ∧
          ((∃ v q, outcome = .matched v q) ↔
            source.chars.toList ∈ expressionGrammar.language) ∧
          ∀ v q, outcome = .matched v q → q = source.length := by
  obtain ⟨parser, s', hmake, htry⟩ := parser_evaluates config s
  refine ⟨parser, s', hmake, fun names source outcome houtcome hdepth hsize => ?_⟩
  have heval : Evaluates source outcome := by
    rcases htry names source with hlarge | hdeep | heval
    · exact absurd (houtcome.symm.trans hlarge) (hsize _ _)
    · exact absurd (houtcome.symm.trans hdeep) (hdepth _)
    · rwa [houtcome] at heval
  rw [mem_language_iff_tree]
  by_cases htext : ∃ e : Expression, source.chars.toList = e.text
  · obtain ⟨e, he⟩ := htext
    rw [heval.matched e he]
    refine ⟨nofun, ⟨fun _ => ⟨e, he.symm⟩, fun _ => ⟨_, _, rfl⟩⟩, fun v q h => ?_⟩
    cases h
    rfl
  · rw [heval.noMatch htext]
    exact ⟨nofun, ⟨nofun, fun ⟨e, he⟩ => absurd ⟨e, he.symm⟩ htext⟩, nofun⟩

/-- Whether a source is not matched by a parser that was made. -/
def isRejected (made : Except Fault Parser × Session) (source : Source) : Bool :=
  match made with
  | (.ok parser, s) =>
    match (Session.tryParse (fun _ => none) parser source s).1 with
    | .noMatch => true
    | .matched .. | .failed _ => false
  | (.error _, _) => false

/-- A product is read before the source turns out to go on. -/
theorem tryParse_matched_iff_unfinished :
    ∃ (parser : Parser) (s' : Session), Arithmetic.parser .default .empty = (.ok parser, s') ∧
      ∀ outcome, outcome = (Session.tryParse (fun _ => none) parser (.ofString "2*3+") s').1 →
        (∀ limit, outcome ≠ .failed (.depthLimitExceeded limit)) ∧
        (∀ size limit, outcome ≠ .failed (.sourceTooLarge size limit)) ∧
        (¬ ∃ v q, outcome = .matched v q) ∧ "2*3+".toList ∉ expressionGrammar.language := by
  obtain ⟨parser, s', hmake, h⟩ := tryParse_matched_iff .default .empty
  refine ⟨parser, s', hmake, fun outcome houtcome => ?_⟩
  have hnone : isRejected (Arithmetic.parser .default .empty) (.ofString "2*3+") = true := by
    decide +kernel
  rw [hmake, isRejected, ← houtcome] at hnone
  cases outcome with
  | matched | failed => cases hnone
  | noMatch =>
    have hdepth : ∀ limit, Outcome.noMatch ≠ .failed (.depthLimitExceeded limit) := by
      intro limit h
      cases h
    have hsize : ∀ size limit, Outcome.noMatch ≠ .failed (.sourceTooLarge size limit) := by
      intro size limit h
      cases h
    have hmatch : ¬ ∃ v q, Outcome.noMatch = .matched v q := by
      rintro ⟨v, q, h⟩
      cases h
    have hiff := (h (fun _ => none) (.ofString "2*3+") .noMatch houtcome.symm hdepth hsize).2.1
    exact ⟨hdepth, hsize, hmatch, fun hmem => hmatch (hiff.2 hmem)⟩

end PegGraph.Arithmetic
