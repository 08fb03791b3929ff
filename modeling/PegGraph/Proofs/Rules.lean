/-
PegGraph.Proofs.Rules — grammars as they are written down: rules that call one
another by name.

  §1 Rules      — the notation, and what a rule matches.
  §2 Needs      — an answer, and the levels of composites that it takes.
  §3 Reckoning  — the need of a rule from the needs of its parts.
  §4 Idioms     — a part behind a sign, between two of them, before others of its
                  kind, or before the end.

A rule is tried with some headroom, as a node is. For many a rule and position
there is one answer that it gives whenever the headroom lasts, and a number of
levels from which on it lasts. §3 finds both by the form of the rule, so that
whoever knows a grammar never counts levels down a graph.
-/
import PegGraph.Proofs.Peg

namespace PegGraph

variable {ι : Type}

/-! ## §1 Rules -/

/-- The right-hand side of a definition, or a part of it. Definitions have names
of the given type. -/
inductive Rule (ι : Type) where
  /-- What the name stands for. -/
  | call (name : ι)
  | range (bounds : CharRange)
  | sequence (parts : List (Rule ι))
  | choice (first second : Rule ι)
  | repetition (part : Rule ι)
  | action (part : Rule ι) (f : Value → Except Fault Value)
  | endOfInput

namespace Rule

/-- Whether a rule is nothing but a name. -/
def isCall : Rule ι → Bool
  | .call _ => true
  | _ => false

/-- Whether a rule is made of parts. -/
def isComposite : Rule ι → Bool
  | .sequence _ | .choice _ _ | .repetition _ | .action _ _ => true
  | _ => false

/-- A rule with a name replaced by what it stands for. -/
def body (rules : ι → Rule ι) : Rule ι → Rule ι
  | .call name => rules name
  | rule => rule

open Peg (Matcher)

/-- The matcher of a rule, over matchers for its parts. A name has none. -/
def evalParts (source : Source) (inner : Rule ι → Matcher Value) : Rule ι → Matcher Value
  | .call _ => fun _ => .noMatch
  | .range bounds => Peg.character source bounds
  | .sequence parts => fun p => (Peg.inOrder (parts.map inner) p).map .tuple
  | .choice first second => Peg.either (inner first) (inner second)
  | .repetition part => fun p => (Peg.many source.length (inner part) p).map .tuple
  | .action part f => Peg.acting f (inner part)
  | .endOfInput => Peg.atEnd source

/-- The matcher of a rule, where composites may nest as deeply as the headroom
allows. A name takes no level. -/
def eval (rules : ι → Rule ι) (source : Source) (limit : Int) : Nat → Rule ι → Matcher Value
  | 0, rule =>
    if (rule.body rules).isComposite then fun _ => .failed (.depthLimitExceeded limit)
    else evalParts source (fun _ _ => .noMatch) (rule.body rules)
  | headroom + 1, rule => evalParts source (eval rules source limit headroom) (rule.body rules)

end Rule

/-! ## §2 Needs -/

namespace Peg

variable {α β : Type} {limit : Int} {need need' : Nat} {a : Answer α} {m : Nat → Answer α}

/-- An answer that is given wherever there is the headroom that it needs. Where
there is less, the depth limit is exceeded. -/
def Takes (limit : Int) (m : Nat → Answer α) (need : Nat) (a : Answer α) : Prop :=
  ∀ headroom, m headroom = if need ≤ headroom then a else .failed (.depthLimitExceeded limit)

theorem Takes.eq (h : Takes limit m need a) {headroom : Nat} (hroom : need ≤ headroom) :
    m headroom = a := by
  rw [h, if_pos hroom]

theorem Takes.eq_failed (h : Takes limit m need a) {headroom : Nat} (hroom : ¬ need ≤ headroom) :
    m headroom = .failed (.depthLimitExceeded limit) := by
  rw [h, if_neg hroom]

/-- The answer is given wherever the depth limit is not exceeded. -/
theorem Takes.eq_of_ne (h : Takes limit m need a) {headroom : Nat}
    (hne : m headroom ≠ .failed (.depthLimitExceeded limit)) : m headroom = a := by
  by_cases hroom : need ≤ headroom
  · exact h.eq hroom
  · exact absurd (h.eq_failed hroom) hne

theorem takes_const (a : Answer α) : Takes limit (fun _ => a) 0 a := by
  intro headroom
  rw [if_pos (Nat.zero_le _)]

theorem Takes.map (h : Takes limit m need a) (f : α → β) :
    Takes limit (fun headroom => (m headroom).map f) need (a.map f) := by
  intro headroom
  simp only [h headroom]
  split <;> rfl

/-- Going on from a match takes what either of the two takes. -/
theorem Takes.andThen {v : α} {q : Nat} {next : Nat → α → Nat → Answer β} {b : Answer β}
    (h : Takes limit m need (.matched v q)) (h' : Takes limit (next · v q) need' b) :
    Takes limit (fun headroom => (m headroom).andThen (next headroom)) (max need need') b := by
  intro headroom
  by_cases hroom : need ≤ headroom
  · simp only [h.eq hroom, Answer.andThen, h' headroom, Nat.max_le, hroom, true_and]
  · simp only [h.eq_failed hroom, Answer.andThen, Nat.max_le, hroom, false_and, if_false]

/-- No match is final for whoever goes on from a match. -/
theorem Takes.andThen_noMatch {next : Nat → α → Nat → Answer β} (h : Takes limit m need .noMatch) :
    Takes limit (fun headroom => (m headroom).andThen (next headroom)) need .noMatch := by
  intro headroom
  simp only [h headroom]
  split <;> rfl

/-- A composite takes one level more than its parts. -/
theorem Takes.succ (h : Takes limit m need a)
    {m' : Nat → Answer α} (hzero : m' 0 = .failed (.depthLimitExceeded limit))
    (hsucc : ∀ headroom, m' (headroom + 1) = m headroom) : Takes limit m' (need + 1) a := by
  intro headroom
  cases headroom with
  | zero => rw [hzero, if_neg (Nat.not_succ_le_zero _)]
  | succ headroom => simp only [hsucc, h headroom, Nat.succ_le_succ_iff]

end Peg

/-! ## §3 Reckoning -/

namespace Rule

open Peg (Answer Takes)

variable {rules : ι → Rule ι} {source : Source} {limit : Int} {rule part first second : Rule ι}
  {parts : List (Rule ι)} {need need' p q : Nat} {a : Answer Value} {v : Value}
  {vs : List Value}

/-- What a rule answers at a position, and the levels it takes. -/
abbrev Yields (rules : ι → Rule ι) (source : Source) (limit : Int) (rule : Rule ι) (p need : Nat)
    (a : Answer Value) : Prop :=
  Takes limit (fun headroom => rule.eval rules source limit headroom p) need a

/-- What rules answer one after another. -/
abbrev YieldsAll (rules : ι → Rule ι) (source : Source) (limit : Int) (parts : List (Rule ι))
    (p need : Nat) (a : Answer (List Value)) : Prop :=
  Takes limit
    (fun headroom => Peg.inOrder (parts.map (Rule.eval rules source limit headroom)) p) need a

/-- What a rule answers again and again. -/
abbrev YieldsMany (rules : ι → Rule ι) (source : Source) (limit : Int) (part : Rule ι)
    (p need : Nat) (a : Answer (List Value)) : Prop :=
  Takes limit
    (fun headroom => Peg.many source.length (part.eval rules source limit headroom) p) need a

/-- A name answers as what it stands for. -/
theorem yields_call {name : ι} (hcall : (rules name).isCall = false)
    (h : Yields rules source limit (rules name) p need a) :
    Yields rules source limit (.call name) p need a := by
  have hbody : (rules name).body rules = rules name := by
    unfold body
    split
    · next heq => rw [heq] at hcall; cases hcall
    · rfl
  intro headroom
  rw [← h headroom]
  cases headroom <;> simp only [eval, hbody] <;> rfl

theorem yields_range {c : Char} {bounds : CharRange} (hc : source.chars[p]? = some c)
    (hin : bounds.contains c = true) :
    Yields rules source limit (.range bounds) p 0
      (.matched (.text (String.singleton c)) (p + 1)) := by
  intro headroom
  cases headroom <;> simp [eval, body, isComposite, evalParts, Peg.character, hc, hin]

theorem yields_range_noMatch {bounds : CharRange}
    (h : ∀ c, source.chars[p]? = some c → bounds.contains c = false) :
    Yields rules source limit (.range bounds) p 0 .noMatch := by
  have hanswer : Peg.character source bounds p = .noMatch := by
    unfold Peg.character
    split
    · next c hc => rw [h c hc]; rfl
    · rfl
  intro headroom
  cases headroom <;> simp [eval, body, isComposite, evalParts, hanswer]

theorem single_contains (c c' : Char) : (CharRange.single c).contains c' = true ↔ c' = c := by
  unfold CharRange.contains CharRange.single
  rw [Bool.and_eq_true, decide_eq_true_eq, decide_eq_true_eq]
  constructor
  · rintro ⟨hlower, hupper⟩
    exact Char.le_antisymm hupper hlower
  · rintro rfl
    exact ⟨Char.le_refl _, Char.le_refl _⟩

/-- One given character, where it is. -/
theorem yields_single {c : Char} (hc : source.chars[p]? = some c) :
    Yields rules source limit (.range (.single c)) p 0
      (.matched (.text (String.singleton c)) (p + 1)) :=
  yields_range hc ((single_contains c c).2 rfl)

/-- One given character, where it is not. -/
theorem yields_single_noMatch {c : Char} (hc : source.chars[p]? ≠ some c) :
    Yields rules source limit (.range (.single c)) p 0 .noMatch := by
  refine yields_range_noMatch fun c' hc' => ?_
  rw [Bool.eq_false_iff]
  intro hin
  rw [(single_contains c c').1 hin] at hc'
  exact hc hc'

theorem yields_endOfInput : Yields rules source limit .endOfInput p 0
    (if p = source.length then .matched .none p else .noMatch) := by
  intro headroom
  cases headroom <;> rfl

theorem yieldsAll_nil : YieldsAll rules source limit [] p 0 (.matched [] p) :=
  Peg.takes_const _

theorem yieldsAll_cons (h : Yields rules source limit part p need (.matched v q))
    {a : Answer (List Value)} (h' : YieldsAll rules source limit parts q need' a) :
    YieldsAll rules source limit (part :: parts) p (max need need') (a.map (v :: ·)) :=
  h.andThen (h'.map _)

theorem yieldsAll_noMatch (h : Yields rules source limit part p need .noMatch) :
    YieldsAll rules source limit (part :: parts) p need .noMatch :=
  h.andThen_noMatch

theorem yields_sequence {a : Answer (List Value)}
    (h : YieldsAll rules source limit parts p need a) :
    Yields rules source limit (.sequence parts) p (need + 1) (a.map .tuple) :=
  (h.map _).succ rfl fun _ => rfl

theorem yields_first (h : Yields rules source limit first p need (.matched v q)) :
    Yields rules source limit (.choice first second) p (need + 1) (.matched v q) := by
  refine Takes.succ (m := fun headroom => Peg.either (first.eval rules source limit headroom)
    (second.eval rules source limit headroom) p) (fun headroom => ?_) rfl fun _ => rfl
  simp only [Peg.either, h headroom]
  split <;> rfl

theorem yields_second (h : Yields rules source limit first p need .noMatch)
    (h' : Yields rules source limit second p need' a) :
    Yields rules source limit (.choice first second) p (max need need' + 1) a := by
  refine Takes.succ (m := fun headroom => Peg.either (first.eval rules source limit headroom)
    (second.eval rules source limit headroom) p) (fun headroom => ?_) rfl fun _ => rfl
  by_cases hroom : need ≤ headroom
  · simp only [Peg.either, h.eq hroom, Answer.orElse, h' headroom, Nat.max_le, hroom, true_and]
  · simp only [Peg.either, h.eq_failed hroom, Answer.orElse, Nat.max_le, hroom, false_and,
      if_false]

/-- A run ends where nothing matches. -/
theorem yieldsMany_nil (h : Yields rules source limit part p need .noMatch) :
    YieldsMany rules source limit part p need (.matched [] p) := by
  intro headroom
  have hpart := h headroom
  by_cases hroom : need ≤ headroom
  · rw [if_pos hroom] at hpart ⊢
    exact Peg.many_of_noMatch hpart
  · rw [if_neg hroom] at hpart ⊢
    exact Peg.many_of_failed hpart

/-- A run goes on after a match that consumes something. -/
theorem yieldsMany_cons (h : Yields rules source limit part p need (.matched v q)) (hlt : p < q)
    (hq : q ≤ source.length) {a : Answer (List Value)}
    (h' : YieldsMany rules source limit part q need' a) :
    YieldsMany rules source limit part p (max need need') (a.map (v :: ·)) := by
  intro headroom
  have hpart := h headroom
  by_cases hroom : need ≤ headroom
  · rw [if_pos hroom] at hpart
    have hrest := h'.map (v :: ·) headroom
    simp only [Nat.max_le, hroom, true_and]
    exact (Peg.many_of_more hpart hlt hq).trans hrest
  · rw [if_neg hroom] at hpart
    simp only [Nat.max_le, hroom, false_and, if_false]
    exact Peg.many_of_failed hpart

theorem yields_repetition {a : Answer (List Value)}
    (h : YieldsMany rules source limit part p need a) :
    Yields rules source limit (.repetition part) p (need + 1) (a.map .tuple) :=
  (h.map _).succ rfl fun _ => rfl

/-- An action that is fit for the value of the match makes its own of it. -/
theorem yields_action {f : Value → Except Fault Value} {result : Value}
    (h : Yields rules source limit part p need (.matched v q)) (hf : f v = .ok result) :
    Yields rules source limit (.action part f) p (need + 1) (.matched result q) := by
  refine Takes.succ (m := fun headroom => Peg.acting f (part.eval rules source limit headroom) p)
    (fun headroom => ?_) rfl fun _ => rfl
  simp only [Peg.acting, h headroom]
  split
  · simp only [Answer.andThen, hf]
  · rfl

theorem yields_action_noMatch {f : Value → Except Fault Value}
    (h : Yields rules source limit part p need .noMatch) :
    Yields rules source limit (.action part f) p (need + 1) .noMatch :=
  Takes.succ h.andThen_noMatch rfl fun _ => rfl

/-! ## §4 Idioms -/

section Idioms

variable {sign opening closing more : Rule ι} {u w result : Value} {m r : Nat}

theorem yieldsAll_single (h : Yields rules source limit part p need a) :
    YieldsAll rules source limit [part] p need (a.map fun v => [v]) := by
  cases a with
  | matched v q =>
    have hall := yieldsAll_cons h yieldsAll_nil
    rwa [Nat.max_zero] at hall
  | noMatch => exact yieldsAll_noMatch h
  | failed fault =>
    intro headroom
    have hpart := h headroom
    simp only [List.map_cons, List.map_nil, Peg.inOrder, hpart]
    split <;> rfl

/-- A part behind a sign answers for both. -/
theorem yields_behind (hsign : Yields rules source limit sign p 0 (.matched u m))
    (h : Yields rules source limit part m need a) :
    Yields rules source limit (.sequence [sign, part]) p (need + 1)
      (a.map fun v => .tuple [u, v]) := by
  have hall := yieldsAll_cons hsign (yieldsAll_single h)
  rw [Nat.zero_max] at hall
  have hwhole := yields_sequence hall
  rwa [Peg.Answer.map_map, Peg.Answer.map_map] at hwhole

/-- A part between two signs. -/
theorem yields_between (hopening : Yields rules source limit opening p 0 (.matched u m))
    (h : Yields rules source limit part m need (.matched v q))
    (hclosing : Yields rules source limit closing q 0 (.matched w r)) :
    Yields rules source limit (.action (.sequence [opening, part, closing]) (Value.part 1)) p
      (need + 2) (.matched v r) := by
  have hall := yieldsAll_cons hopening (yieldsAll_cons h (yieldsAll_cons hclosing yieldsAll_nil))
  rw [Nat.max_zero, Nat.max_zero, Nat.zero_max] at hall
  exact yields_action (yields_sequence hall) rfl

/-- Without the part, or without the sign after it, there is no match. -/
theorem yields_between_unfinished
    (hopening : Yields rules source limit opening p 0 (.matched u m))
    (h : Yields rules source limit part m need .noMatch ∨
      ∃ v q, Yields rules source limit part m need (.matched v q) ∧
        Yields rules source limit closing q 0 .noMatch) :
    Yields rules source limit (.action (.sequence [opening, part, closing]) (Value.part 1)) p
      (need + 2) .noMatch := by
  have hrest : YieldsAll rules source limit [part, closing] m need .noMatch := by
    rcases h with h | ⟨v, q, h, hclosing⟩
    · exact yieldsAll_noMatch h
    · rw [← Nat.max_zero need]
      exact yieldsAll_cons h (yieldsAll_noMatch hclosing)
  have hall := yieldsAll_cons hopening hrest
  rw [Nat.zero_max] at hall
  exact yields_action_noMatch (yields_sequence hall)

/-- A part and as many more as there are. -/
theorem yields_chain {f : Value → Except Fault Value}
    (h : Yields rules source limit part p need (.matched v q))
    (hrest : YieldsMany rules source limit more q need' (.matched vs r))
    (hf : f (.tuple [v, .tuple vs]) = .ok result) :
    Yields rules source limit (.action (.sequence [part, .repetition more]) f) p
      (max need (need' + 1) + 2) (.matched result r) := by
  have hall := yieldsAll_cons h (yieldsAll_single (yields_repetition hrest))
  exact yields_action (yields_sequence hall) hf

/-- A part that ends where the source does. -/
theorem yields_whole (h : Yields rules source limit part p need (.matched v q)) :
    Yields rules source limit (.action (.sequence [part, .endOfInput]) (Value.part 0)) p (need + 2)
      (if q = source.length then .matched v q else .noMatch) := by
  have hend : Yields rules source limit .endOfInput q 0 _ := yields_endOfInput
  split
  · next heq =>
    rw [if_pos heq] at hend
    have hall := yieldsAll_cons h (yieldsAll_cons hend yieldsAll_nil)
    rw [Nat.max_zero, Nat.max_zero] at hall
    exact yields_action (yields_sequence hall) rfl
  · next hne =>
    rw [if_neg hne] at hend
    have hall : YieldsAll rules source limit [part, .endOfInput] p _ .noMatch :=
      yieldsAll_cons h (yieldsAll_noMatch hend)
    rw [Nat.max_zero] at hall
    exact yields_action_noMatch (yields_sequence hall)

end Idioms

end Rule

end PegGraph
