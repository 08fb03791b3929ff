/-
PegGraph.Proofs.Repetition — where a repetition ends, and a repetition of a
repetition.

  §1 Runs    — a run of matches goes on until nothing more is to be had.
  §2 Nesting — a run of runs is at most one run.
  §3 Levels  — repetitions by the levels of composites below them.
  §4 Parses  — `run_repetition_repetition`.

Two things end a run, a try without a match and a try with an empty match, and the
matcher has the same to say when it is tried again at the same position. So what comes
after a run is an empty run: this ends the outer of two repetitions, and the empty run
is not part of it. The inner repetition runs one level further down than the same
repetition does alone, and `run_deeper` takes its answer to where there is more room.
-/
import PegGraph.Proofs.Backtracking
import PegGraph.Proofs.Headroom

namespace PegGraph

namespace Peg

variable {α β : Type} {length p e : Nat} {m : Matcher α} {values : List α}

/-! ## §1 Runs -/

/-- Matches end where they start or later, inside a source of the given length. -/
def Advances (length : Nat) (m : Matcher α) : Prop :=
  ∀ p value q, p ≤ length → m p = .matched value q → p ≤ q ∧ q ≤ length

/-- A matcher has nothing more at a position: it does not match there, or it matches
the empty text. -/
inductive Rests (m : Matcher α) (p : Nat) : Prop
  | noMatch (h : m p = .noMatch)
  | empty (value : α) (h : m p = .matched value p)

theorem Rests.many_eq (h : Rests m p) : many length m p = .matched [] p := by
  cases h with
  | noMatch h => exact many_of_noMatch h
  | empty value h => exact many_of_empty h

/-- **A run goes on** until nothing more is to be had, unless a try fails. -/
theorem many_cases (hm : Advances length m) (hp : p ≤ length) :
    (∃ fault, many length m p = .failed fault) ∨
      ∃ values e, many length m p = .matched values e ∧ p ≤ e ∧ e ≤ length ∧ Rests m e := by
  induction hleft : length - p using Nat.strongRecOn generalizing p with
  | ind left ih =>
    cases hone : m p with
    | noMatch =>
      exact .inr ⟨[], p, many_of_noMatch hone, Nat.le_refl p, hp, .noMatch hone⟩
    | failed fault => exact .inl ⟨fault, many_of_failed hone⟩
    | matched value q =>
      obtain ⟨hle, hin⟩ := hm p value q hp hone
      rcases hle.eq_or_lt with rfl | hlt
      · exact .inr ⟨[], p, many_of_empty hone, Nat.le_refl p, hp, .empty value hone⟩
      · rw [many_of_more hone hlt hin]
        rcases ih (length - q) (by omega) hin rfl with ⟨fault, h⟩ | ⟨values, e, h, hqe, he, hrests⟩
        · exact .inl ⟨fault, by rw [h]; rfl⟩
        · exact .inr ⟨value :: values, e, by rw [h]; rfl, hle.trans hqe, he, hrests⟩

/-! ## §2 Nesting -/

/-- **A run of runs** is the one run, where that consumes anything, and else it is
empty. -/
theorem many_many (f : List α → β) (h : many length m p = .matched values e) (hle : p ≤ e)
    (he : e ≤ length) (hrests : Rests m e) :
    many length (fun q => (many length m q).map f) p =
      .matched (if e = p then [] else [f values]) e := by
  have hrun : (many length m p).map f = .matched (f values) e := by rw [h]; rfl
  rcases hle.eq_or_lt with rfl | hlt
  · rw [many_of_empty hrun, if_pos rfl]
  · have hagain : (many length m e).map f = .matched (f []) e := by rw [hrests.many_eq]; rfl
    rw [many_of_more hrun hlt he, many_of_empty hagain, if_neg (Nat.ne_of_gt hlt)]
    rfl

end Peg

/-! ## §3 Levels -/

/-- A guard as it is so many sections further down. -/
def DepthGuard.below (guard : DepthGuard) (levels : Nat) : DepthGuard :=
  { guard with currentDepth := guard.currentDepth + levels }

@[simp] theorem DepthGuard.below_maxDepth (guard : DepthGuard) (levels : Nat) :
    (guard.below levels).maxDepth = guard.maxDepth := rfl

theorem DepthGuard.headroom_below (guard : DepthGuard) (levels : Nat) :
    (guard.below levels).headroom = guard.headroom - levels := by
  simp only [headroom, below]
  omega

/-- Below a pure node act pure nodes alone. -/
theorem Grammar.actsPurely_of_links {g : Grammar} {n : NodeId} (hn : (g.node n).isPure = true)
    (h : ∀ l, g.Linked n l → g.ActsPurely l) : g.ActsPurely n := by
  intro m hr
  rcases Relation.ReflTransGen.cases_head hr with rfl | ⟨l, hl, hr⟩
  · exact hn
  · exact h l hl m hr

theorem Grammar.ActsPurely.of_repetition {g : Grammar} {child n : NodeId} {mark : Bool}
    (h : g.ActsPurely child) (hn : g.node n = .repetition child mark) : g.ActsPurely n := by
  refine actsPurely_of_links (by rw [hn]; rfl) fun l hl => ?_
  unfold Linked links at hl
  rw [hn] at hl
  cases List.mem_singleton.1 hl
  exact h

namespace Peg

variable {g : Grammar} {n child star nested : NodeId} {mark mark' : Bool}

theorem advances_eval (hpure : g.ActsPurely n) (source : Source) (limit : Int) (headroom : Nat) :
    Advances source.length (eval g source limit headroom n) := by
  intro p value q hp h
  have hroom : DepthGuard.headroom ⟨limit, limit - headroom⟩ = headroom := by
    simp only [DepthGuard.headroom]
    omega
  have hagree := Parse.follows_attempt ⟨g, source, .reject, fun _ _ => none⟩ rfl headroom
    ⟨limit, limit - headroom⟩ (Nat.le_of_eq hroom) hpure ⟨p, ⟨limit, limit - headroom⟩, []⟩ p hp
    rfl rfl
  simp only [hroom, h] at hagree
  generalize Parse.attempt _ _ _ _ = r at hagree
  cases hagree with
  | matched _ hle hin => exact ⟨hle, hin⟩

/-- A repetition that is not refused is a run of its child, one level down. -/
theorem eval_repetition (hn : g.node n = .repetition child mark) (source : Source) (limit : Int)
    (headroom p : Nat) : eval g source limit (headroom + 1) n p =
      (many source.length (eval g source limit headroom child) p).map .tuple := by
  rw [eval, hn]
  rfl

theorem eval_repetition_zero (hn : g.node n = .repetition child mark) (source : Source)
    (limit : Int) (p : Nat) : eval g source limit 0 n p = .failed (.depthLimitExceeded limit) := by
  rw [eval, hn]
  rfl

/-- A repetition of a repetition without a fault has entered both, and the inner one
had its full run. -/
theorem eval_repetition_repetition (hstar : g.node star = .repetition child mark)
    (hnested : g.node nested = .repetition star mark') (hpure : g.ActsPurely child)
    {source : Source} {limit : Int} {headroom k : Nat} (hk : k ≤ source.length)
    (hquiet : ∀ fault, eval g source limit headroom nested k ≠ .failed fault) :
    ∃ room values e, headroom = room + 2 ∧ e ≤ source.length ∧
      eval g source limit (room + 1) star k = .matched (.tuple values) e ∧
      eval g source limit headroom nested k =
        .matched (.tuple (if e = k then [] else [.tuple values])) e ∧
      Rests (eval g source limit room child) e := by
  match headroom with
  | 0 => exact absurd (eval_repetition_zero hnested source limit k) (hquiet _)
  | 1 =>
    refine absurd ?_ (hquiet (.depthLimitExceeded limit))
    rw [eval_repetition hnested, many_of_failed (eval_repetition_zero hstar source limit k)]
    rfl
  | room + 2 =>
    have hinner := eval_repetition hstar source limit room
    rcases many_cases (advances_eval hpure source limit room) hk with
      ⟨fault, h⟩ | ⟨values, e, h, hle, he, hrests⟩
    · have hfail : eval g source limit (room + 1) star k = .failed fault := by
        rw [hinner, h]
        rfl
      refine absurd ?_ (hquiet fault)
      rw [eval_repetition hnested, many_of_failed hfail]
      rfl
    · refine ⟨room, values, e, rfl, he, ?_, ?_, hrests⟩
      · rw [hinner, h]
        rfl
      · rw [eval_repetition hnested, funext hinner, many_many Value.tuple h hle he hrests]
        rfl

theorem Answer.outcome_eq_failed {a : Answer Value} {fault : Fault} :
    a.outcome = .failed fault ↔ a = .failed fault := by
  cases a <;> simp [Answer.outcome]

end Peg

/-! ## §4 Parses -/

namespace Parse

open Peg (eval many Rests)

variable {g : Grammar} {n p star nested : NodeId} {mark mark' : Bool}

/-- Where there is more room, a parse still ends as the matcher of its root says with
less, if that is not a refusal. -/
theorem run_eq_eval_of_le (hpure : g.ActsPurely n) (source : Source)
    (readDepth : Int → String → Option Int) (guard guard' : DepthGuard) {k : Nat}
    (hk : k ≤ source.length) (hroom : guard.headroom ≤ guard'.headroom)
    (hcut : eval g source guard.maxDepth guard.headroom n k ≠
      .failed (.depthLimitExceeded guard.maxDepth)) :
    (run ⟨g, source, .reject, readDepth⟩ n k guard').1 =
      (eval g source guard.maxDepth guard.headroom n k).outcome := by
  have hrun := run_eq_eval hpure source readDepth guard hk
  refine (run_deeper rfl hpure k hroom fun hfail => hcut ?_).1.trans hrun
  exact Peg.Answer.outcome_eq_failed.1 (hrun.symm.trans hfail)

/-- **A repetition of a repetition** that raises nothing ends where the repetition
alone does, which raises nothing either, and has its value as its only part, or no
part if nothing was consumed. What is repeated is at rest there: tried again, it does
not match or matches the empty text. -/
theorem run_repetition_repetition (hstar : g.node star = .repetition p mark)
    (hnested : g.node nested = .repetition star mark') (hpure : g.ActsPurely p) (source : Source)
    (readDepth : Int → String → Option Int) (guard : DepthGuard) {k : Nat}
    (hk : k ≤ source.length)
    (hquiet : ∀ fault, (run ⟨g, source, .reject, readDepth⟩ nested k guard).1 ≠ .failed fault) :
    ∃ (values : List Value) (e : Nat),
      (run ⟨g, source, .reject, readDepth⟩ star k guard).1 = .matched (.tuple values) e ∧
      (run ⟨g, source, .reject, readDepth⟩ star k guard).2.pos = e ∧
      (run ⟨g, source, .reject, readDepth⟩ nested k guard).1 =
        .matched (.tuple (if e = k then [] else [.tuple values])) e ∧
      (run ⟨g, source, .reject, readDepth⟩ nested k guard).2.pos = e ∧
      ∀ guard' : DepthGuard, guard.headroom ≤ guard'.headroom + 2 →
        (run ⟨g, source, .reject, readDepth⟩ p e guard').1 = .noMatch ∨
        ∃ value, (run ⟨g, source, .reject, readDepth⟩ p e guard').1 = .matched value e := by
  have hpureStar := hpure.of_repetition hstar
  have hrun := run_eq_eval (hpureStar.of_repetition hnested) source readDepth guard hk
  obtain ⟨room, values, e, hroom, he, hone, hall, hrests⟩ :=
    Peg.eval_repetition_repetition hstar hnested hpure hk fun fault h =>
      hquiet fault (hrun.trans (Peg.Answer.outcome_eq_failed.2 h))
  -- The repetition alone starts with the level that the outer one takes from it.
  have hstarRun : (run ⟨g, source, .reject, readDepth⟩ star k guard).1 =
      .matched (.tuple values) e := by
    have hbelow : (guard.below 1).headroom = room + 1 := by
      rw [DepthGuard.headroom_below]
      omega
    have halike := run_eq_eval_of_le hpureStar source readDepth (guard.below 1) guard hk
      (by omega) (by rw [hbelow, DepthGuard.below_maxDepth, hone]; nofun)
    rw [halike, hbelow, DepthGuard.below_maxDepth, hone]
    rfl
  have hnestedRun : (run ⟨g, source, .reject, readDepth⟩ nested k guard).1 =
      .matched (.tuple (if e = k then [] else [.tuple values])) e := by
    rw [hrun, hall]
    rfl
  refine ⟨values, e, hstarRun, (run_ends ..).anchored _ _ hstarRun, hnestedRun,
    (run_ends ..).anchored _ _ hnestedRun, fun guard' hroom' => ?_⟩
  have hbelow : (guard.below 2).headroom = room := by
    rw [DepthGuard.headroom_below]
    omega
  rw [← hbelow, ← guard.below_maxDepth 2] at hrests
  have halike := run_eq_eval_of_le hpure source readDepth (guard.below 2) guard' he (by omega)
  cases hrests with
  | noMatch h =>
    rw [h] at halike
    exact .inl (halike nofun)
  | empty value h =>
    rw [h] at halike
    exact .inr ⟨value, halike nofun⟩

/-- An `a` and a `b` or else any number of `a`, as often as may be (5), and that as
often as may be (6). -/
def runsOfRuns : Grammar :=
  ⟨#[.choice 1 2 false, .sequence [3, 4] false, .repetition 3 false, .range (.single 'a'),
    .range (.single 'b'), .repetition 0 false, .repetition 5 false]⟩

/-- A text of four letters for it, and a fifth that is too much. -/
def runsSetting : Setting := ⟨runsOfRuns, .ofString "abaab", .reject, fun _ _ => none⟩

/-- Behind the first two letters a pair is tried in vain, then a run is found. The last
letter is left, where the empty text is all that there is. -/
theorem run_repetition_repetition_runs :
    runsOfRuns.node 5 = .repetition 0 false ∧ runsOfRuns.node 6 = .repetition 5 false ∧
      runsOfRuns.ActsPurely 0 ∧ 0 ≤ (Source.ofString "abaab").length ∧
      (∀ fault, (run runsSetting 6 (0 : Nat) ⟨9, 0⟩).1 ≠ .failed fault) ∧
      ∃ values, (run runsSetting 5 (0 : Nat) ⟨9, 0⟩).1 = .matched (.tuple values) 4 ∧
        (run runsSetting 5 (0 : Nat) ⟨9, 0⟩).2.pos = 4 ∧
        (run runsSetting 6 (0 : Nat) ⟨9, 0⟩).1 = .matched (.tuple [.tuple values]) 4 ∧
        (run runsSetting 6 (0 : Nat) ⟨9, 0⟩).2.pos = 4 ∧
        ((run runsSetting 0 (4 : Nat) ⟨20, 13⟩).1 = .noMatch ∨
          ∃ value, (run runsSetting 0 (4 : Nat) ⟨20, 13⟩).1 = .matched value 4) := by
  have hpure : runsOfRuns.ActsPurely 0 := by
    intro m hr
    have hall : ∀ k ∈ [0, 1, 2, 3, 4], (runsOfRuns.node k).isPure = true := by decide
    exact hall m (hr.mem_of_closed (by decide) (by decide))
  have hjoined : joined (run runsSetting 6 (0 : Nat) ⟨9, 0⟩).1 = some ("abaa", 4) := by
    decide +kernel
  have hquiet : ∀ fault, (run runsSetting 6 (0 : Nat) ⟨9, 0⟩).1 ≠ .failed fault :=
    ne_failed_of_joined hjoined
  have hstar : runsOfRuns.node 5 = .repetition 0 false := rfl
  have hnested : runsOfRuns.node 6 = .repetition 5 false := rfl
  have hboth := run_repetition_repetition hstar hnested hpure (.ofString "abaab")
    (fun _ _ => none) ⟨9, 0⟩ (Nat.zero_le _) hquiet
  rw [← runsSetting] at hboth
  obtain ⟨values, e, hone, hpos, hall, hpos', hrest⟩ := hboth
  have hfour : (run runsSetting 6 (0 : Nat) ⟨9, 0⟩).2.pos = 4 := by decide +kernel
  obtain rfl : e = 4 := by exact_mod_cast hpos'.symm.trans hfour
  rw [if_neg (by decide)] at hall
  exact ⟨hstar, hnested, hpure, Nat.zero_le _, hquiet, values, hone, hpos, hall, hpos',
    hrest ⟨20, 13⟩ (by decide)⟩

end Parse

end PegGraph
