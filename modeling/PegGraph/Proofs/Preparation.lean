/-
PegGraph.Proofs.Preparation — prepared parsers, and the references that may be
left behind marks.

  §1 Exposure — a completed pass leaves no reference exactly where no mark
                hides one from it (`compress_referenceFree_iff`).
  §2 Parsers  — `prepare_clear_iff`, and a history after which a
                prepared parser still meets a reference.

A pass takes a mark to mean that everything below is done. A pass that fails
takes the marks away from the composites that it is inside, but composites that
it has completed before keep theirs, also where they link back to one that lost
its mark. A later pass from such a composite stops at once, and what is behind
it keeps its references. Only a pass that enters the unmarked one on a way of
its own puts this right. As long as no pass fails, marks can be trusted
(`Sealed.exposed`).
-/
import PegGraph.Proofs.Causes
import PegGraph.Proofs.History

namespace PegGraph

open Relation (ReflTransGen)

namespace Grammar

variable {g g' : Grammar} {root u n : NodeId} {config : Parser.Config} {p : Parser}

/-! ## §1 Exposure -/

/-- Every node that is reached with references taken out, and still links to a
reference, is reached through unmarked composites alone: no mark hides it. -/
def Exposed (g : Grammar) (u : NodeId) : Prop :=
  ∀ n, ReflTransGen g.Joined u n → (∃ l, g.Linked n l ∧ (g.node l).isReference = true) →
    g.Explores u n

theorem reaches_of_joined (h : ReflTransGen g.Joined u n) : g.Reaches u n := by
  induction h with
  | refl => exact .refl
  | tail _ hj ih => exact ih.trans hj.reaches

/-- **A completed pass takes out all references** exactly where none was hidden
from it. -/
theorem compress_referenceFree_iff (h : g.compress root = (.ok u, g')) :
    g'.ReferenceFree u ↔ g.Exposed u := by
  have hspl := (pass_iff_compress.2 h).spliced
  constructor
  · rintro hfree n hpath ⟨l, hl, href⟩
    by_contra hex
    have hpath' : ReflTransGen g'.Joined u n :=
      ReflTransGen.mono (fun _ _ => hspl.joined_iff.2) u n hpath
    have hl' : g'.Linked n l := (linked_congr (compress_node_eq h hex)).2 hl
    have hnot := hfree l ((reaches_of_joined hpath').tail hl')
    rw [hspl.isReference, href] at hnot
    cases hnot
  · intro hexp n hr
    -- What is reached now was reached before with references taken out.
    have hreached : ReflTransGen g.Joined u n ∧ (g'.node n).isReference = false := by
      induction hr with
      | refl => exact ⟨.refl, (compress_settled h).2.not_reference⟩
      | @tail b c _ hl ih =>
        obtain ⟨hpath, hb⟩ := ih
        by_cases hex : g.Explores u b
        · have hc := (isOpen_iff.1 hex.2).1
          obtain ⟨l, hlink, hs, hset⟩ := (compress_finished h hex).exists_link hc hl
          exact ⟨hpath.tail ⟨l, hlink, hs⟩, (hset u rfl).not_reference⟩
        · have hlink : g.Linked b c := (linked_congr (compress_node_eq h hex)).1 hl
          have hc : (g.node c).isReference = false := by
            cases href : (g.node c).isReference with
            | false => rfl
            | true => exact absurd (hexp b hpath ⟨c, hlink, href⟩) hex
          exact ⟨hpath.tail ⟨c, hlink, .self hc⟩, by rw [hspl.isReference, hc]⟩
    exact hreached.2

/-- In a sealed store a path either consists of open nodes, or has led past a mark
and is among settled nodes since. -/
theorem Sealed.openPath_or_settled (hs : g.Sealed) (hu : (g.node u).isReference = false)
    (hpath : ReflTransGen g.Joined u n) :
    (g.node n).isReference = false ∧ (g.OpenPath u n ∨ g.Settled n) := by
  induction hpath with
  | refl => exact ⟨hu, .inl .refl⟩
  | @tail b c _ hj ih =>
    obtain ⟨hb, hpath⟩ := ih
    obtain ⟨k, hk, hkc⟩ := hj
    refine ⟨hkc.not_reference, ?_⟩
    cases hm : (g.node b).compressed with
    | true =>
      have hset := hs b hm k hk
      cases (standsFor_self_iff hset.not_reference).1 hkc
      exact .inr hset
    | false =>
      have ho : g.isOpen b = true := isOpen_iff.2 ⟨Linked.isComposite hb hk, hm⟩
      rcases hpath with hpath | hset
      · exact .inl (hpath.tail ⟨ho, k, hk, hkc⟩)
      · rw [hset.not_open] at ho
        cases ho

/-- Behind a mark that can be trusted there is nothing to hide. -/
theorem Sealed.exposed (hs : g.Sealed) (hu : (g.node u).isReference = false) : g.Exposed u := by
  rintro n hpath ⟨l, hl, href⟩
  obtain ⟨hn, hway⟩ := hs.openPath_or_settled hu hpath
  have hm : (g.node n).compressed = false := by
    cases hm : (g.node n).compressed with
    | false => rfl
    | true =>
      rw [(hs n hm l hl).not_reference] at href
      cases href
  have ho : g.isOpen n = true := isOpen_iff.2 ⟨hl.isComposite hn, hm⟩
  rcases hway with hopen | hset
  · exact ⟨hopen, ho⟩
  · rw [hset.not_open] at ho
    cases ho

/-! ## §2 Parsers -/

theorem prepare_eq_ok (h : Parser.prepare root config g = (.ok p, g')) :
    g.compress root = (.ok p.root, g') := by
  unfold Parser.prepare at h
  split at h
  · split at h
    · next heq => cases h; exact heq
    · cases h
  · cases h

/-- Trying a source complains of a reference only where an action does. -/
theorem tryParse_uncompressed {readDepth : Int → String → Option Int} {source : Source}
    {label : String} (hfree : g.ReferenceFree p.root)
    (h : (p.tryParse g readDepth source).1.value = .error (.uncompressedReference label)) :
    g.Throws p.root (.uncompressedReference label) := by
  have hfailed : (p.tryParse g readDepth source).1 = .failed (.uncompressedReference label) := by
    cases hout : (p.tryParse g readDepth source).1 with
    | matched => rw [hout] at h; cases h
    | noMatch => rw [hout] at h; cases h
    | failed fault => rw [hout] at h; cases h; rfl
  unfold Parser.tryParse at hfailed
  split at hfailed
  · next heq =>
    cases hfailed
    unfold Parser.cursor Cursor.new at heq
    split at heq
    · cases heq
    · split at heq
      · cases heq
      · next hcheck =>
        cases heq
        cases Cursor.checkPosition_eq_error hcheck
  · next cursor _ =>
    have hm : (⟨g, cursor.source, .reject, readDepth⟩ : Parse.Setting).mode = .reject := rfl
    exact Parse.run_uncompressed hm hfree hfailed

end Grammar

/-- What a parser is prepared for: from now on, whatever else becomes of the
store, it reaches no reference, and no source makes it complain of one. -/
structure Parser.Clear (p : Parser) (g : Grammar) : Prop where
  referenceFree : ∀ later, Grammar.History .any g later → later.ReferenceFree p.root
  parses : ∀ later, Grammar.History .any g later → ∀ readDepth source label,
    (p.tryParse later readDepth source).1.value = .error (.uncompressedReference label) →
      later.Throws p.root (.uncompressedReference label)

namespace Grammar

/-- **A prepared parser is clear** exactly where no mark hid a reference from its
preparation, whatever the store has been through; and no mark does as long as
no pass has failed. -/
theorem prepare_clear_iff (hist : History .any .empty g)
    (h : Parser.prepare root config g = (.ok p, g')) :
    (p.Clear g' ↔ g.Exposed p.root) ∧ (History .successful .empty g → g.Exposed p.root) := by
  have hpass := prepare_eq_ok h
  obtain ⟨_, hset⟩ := compress_settled hpass
  have hinside : g.LinksInside := Moves.linksInside (hist.moves linksInside_empty) linksInside_empty
  have hmove : Move .any g g' := .pass hpass trivial
  have hinside' : g'.LinksInside := hmove.linksInside hinside
  refine ⟨⟨fun hclear => ?_, fun hexp => ?_⟩, fun hok => ?_⟩
  · exact (compress_referenceFree_iff hpass).1 (hclear.referenceFree g' .refl)
  · have hfree := (compress_referenceFree_iff hpass).2 hexp
    have hlater : ∀ later, History .any g' later → later.ReferenceFree p.root := fun later hl =>
      Moves.referenceFree (History.moves hl hinside') hinside' hset.lt_size hfree
    exact ⟨hlater, fun later hl _ _ _ => tryParse_uncompressed (hlater later hl)⟩
  · have hsealed : g.Sealed := Moves.isSealed (hok.moves linksInside_empty) sealed_empty
    refine hsealed.exposed ?_
    rw [← (pass_iff_compress.2 hpass).sameShape.isReference]
    exact hset.not_reference

/-- A sequence (4) completed inside a pass from a choice (5) that fails at its
second reference (1), which is bound after that. -/
def stalledCalls : List Call :=
  [.reference (some "a"), .reference (some "x"), .range (.single 'b'), .range (.single 'x'),
    .sequence [2, 0], .oneOf 4 1 [], .bind 0 5, .compress 5, .bind 1 3]

/-- The store that these calls leave. -/
def stalled : Grammar := stalledCalls.foldl Call.run .empty

/-- From the sequence, preparation finds everything done, and leaves the
reference behind the mark. -/
theorem prepare_stalled :
    History .any .empty stalled ∧
      Parser.prepare 4 .default stalled = (.ok ⟨4, .default, 5⟩, stalled) ∧
      ¬ stalled.ReferenceFree 4 ∧
      ((⟨4, .default, 5⟩ : Parser).tryParse stalled (fun _ _ => none) (.ofString "bx")).1 =
        .failed (.uncompressedReference (Node.labelOf 1 (some "x"))) := by
  refine ⟨history_of_admits stalledCalls .empty (by decide), rfl, fun hfree => ?_, rfl⟩
  have hfirst : 5 ∈ stalled.links 4 := by decide
  have hsecond : 1 ∈ stalled.links 5 := by decide
  have href := hfree 1 (.tail (.single hfirst) hsecond)
  cases href

/-- From the choice, which has lost its mark, the same store is completed. -/
theorem prepare_clear_iff_stalled :
    History .any .empty stalled ∧
      Parser.prepare 5 .default stalled = (.ok ⟨5, .default, 4⟩, (stalled.compress 5).2) ∧
      (⟨5, .default, 4⟩ : Parser).Clear (stalled.compress 5).2 := by
  have hist : History .any .empty stalled := history_of_admits stalledCalls .empty (by decide)
  have hprep : Parser.prepare 5 .default stalled =
    (.ok ⟨5, .default, 4⟩, (stalled.compress 5).2) := rfl
  refine ⟨hist, hprep, (prepare_clear_iff hist hprep).1.2 ?_⟩
  rintro n hpath ⟨l, hl, href⟩
  have hn : n ∈ [5, 4, 1, 2, 3] :=
    (reaches_of_joined hpath).mem_of_closed (by decide) (by decide)
  have hall : ∀ m ∈ [5, 4, 1, 2, 3],
      (∃ l ∈ stalled.links m, (stalled.node l).isReference = true) → m = 5 := by decide
  cases hall n hn ⟨l, hl, href⟩
  exact ⟨.refl, by decide⟩

end Grammar

end PegGraph
