/-
PegGraph.Proofs.Contraction — a walk before compression and one after it.

  §1 Links — what a compressed node links to.
  §2 Walks — a walk through the contracted store (`Compressed.visits`).
  §3 Count — `walk_compressed`: the second walk is the first without its
             references, and a parser has that many nodes.

The two walks go side by side, the second with the targets of what the first has
ahead. While the first is on a chain of references, their target is ahead of the
second; once it has left the chain, the second has visited the target. So what the
first has seen and the second has not are references, and the end of the chain that
the first is on.
-/
import Mathlib.Data.Set.Card
import PegGraph.Parser
import PegGraph.Proofs.Obstacle

namespace PegGraph.Grammar

open Relation (TransGen)

variable {g g' : Grammar} {seen seen' ahead order : List NodeId} {root u n l t : NodeId}

/-! ## §1 Links -/

/-- In a complete grammar everything that is reached stands for its target. -/
theorem Complete.standsFor_target (h : g.Complete root) (hr : g.Reaches root n) :
    g.StandsFor n (g.target n) := by
  cases href : (g.node n).isReference with
  | false =>
    have hself : g.StandsFor n n := .self href
    rwa [hself.target_eq]
  | true =>
    obtain ⟨t, hs⟩ := (h n hr).2 href
    rwa [hs.target_eq]

/-- References on the way to a node have its target. -/
theorem Complete.target_eq (h : g.Complete root) (hr : g.Reaches root l)
    (hlead : TransGen g.Forwards n l) : g.target n = g.target l :=
  ((Leads.standsFor_iff hlead.to_reflTransGen).2 (h.standsFor_target hr)).target_eq

/-- Whatever is not a reference links to the targets of its links afterwards. -/
theorem Compressed.links_eq (hd : Compressed g g' root u) (hr : g.Reaches root n)
    (href : (g.node n).isReference = false) : g'.links n = (g.links n).map g.target := by
  cases hc : (g.node n).isComposite with
  | true =>
    unfold links
    rw [hd.composites n hr hc, Node.links_setCompressed, Node.links_mapLinks hc]
  | false =>
    have hleaf := links_of_leaf hc href
    rw [hleaf, List.map_nil, ← hleaf]
    unfold links
    rw [hd.leaves n hc]

/-! ## §2 Walks -/

/-- **A walk with references taken out** is a walk of the contracted store. -/
theorem Compressed.visits (hd : Compressed g g' root u) (hall : g.Complete root)
    (hv : g.Visits seen ahead order) (hreach : ∀ n ∈ ahead, g.Reaches root n)
    (htargets : ∀ n ∈ seen, (g.node n).isReference = true →
      g.target n ∈ seen ∨ ∃ l, ahead.head? = some l ∧ TransGen g.Forwards n l)
    (hseen : ∀ n, (g.node n).isReference = false → (n ∈ seen' ↔ n ∈ seen)) :
    g'.Visits seen' (ahead.map g.target) (order.filter fun n => !(g.node n).isReference) := by
  induction hv generalizing seen' with
  | done => exact .done
  | @skip seen id ahead order hid _ ih =>
    have hs := hall.standsFor_target (hreach id List.mem_cons_self)
    have hin : g.target id ∈ seen := by
      cases href : (g.node id).isReference with
      | false => rwa [(standsFor_self_iff href).1 hs]
      | true =>
        rcases htargets id hid href with hin | ⟨_, hl, hcycle⟩
        · exact hin
        · cases hl
          exact absurd hcycle hs.acyclic
    refine .skip ((hseen _ hs.not_reference).2 hin) ?_
    refine ih (fun n hn => hreach n (List.mem_cons_of_mem _ hn)) (fun n hn href => .inl ?_) hseen
    rcases htargets n hn href with htarget | ⟨_, hl, hlead⟩
    · exact htarget
    · cases hl
      rwa [hall.target_eq (hreach id List.mem_cons_self) hlead]
  | @visit seen id ahead order hid _ ih =>
    have hr := hreach id List.mem_cons_self
    have hs := hall.standsFor_target hr
    have hbelow : ∀ n ∈ g.links id ++ ahead, g.Reaches root n := fun n hn =>
      (List.mem_append.1 hn).elim (fun hl => hr.tail hl)
        fun hn => hreach n (List.mem_cons_of_mem _ hn)
    cases href : (g.node id).isReference with
    | true =>
      obtain ⟨next, hf⟩ : ∃ next, g.Forwards id next := by
        obtain ⟨t, hst⟩ := (hall id hr).2 href
        cases hst with
        | self h => rw [href] at h; cases h
        | forward hf => exact ⟨_, hf⟩
      rw [hf.links_eq] at ih hbelow
      rw [List.filter_cons_of_neg (by simp [href]), List.map_cons,
        hall.target_eq (hbelow next List.mem_cons_self) (.single hf)]
      refine ih hbelow (fun n hn hn' => ?_) fun n hn => ?_
      · -- The chain goes on: what led to the reference leads to its target.
        rcases List.mem_cons.1 hn with rfl | hn
        · exact .inr ⟨next, rfl, .single hf⟩
        · rcases htargets n hn hn' with hin | ⟨_, hl, hlead⟩
          · exact .inl (List.mem_cons_of_mem id hin)
          · cases hl
            exact .inr ⟨next, rfl, hlead.tail hf⟩
      · have hne : n ≠ id := by
          rintro rfl
          rw [href] at hn
          cases hn
        rw [hseen n hn, List.mem_cons, or_iff_right hne]
    | false =>
      have htarget := (standsFor_self_iff href).1 hs
      rw [List.filter_cons_of_pos (by simp [href]), List.map_cons, htarget]
      refine .visit (fun hin => hid ((hseen id href).1 hin)) ?_
      rw [hd.links_eq hr href, ← List.map_append]
      refine ih hbelow (fun n hn hn' => .inl ?_) fun n hn => ?_
      · -- The chain is at its end, which has now been visited.
        rcases List.mem_cons.1 hn with rfl | hn
        · rw [href] at hn'
          cases hn'
        · rcases htargets n hn hn' with hin | ⟨_, hl, hlead⟩
          · exact List.mem_cons_of_mem id hin
          · cases hl
            rw [hall.target_eq hr hlead, htarget]
            exact List.mem_cons_self
      · rw [List.mem_cons, List.mem_cons, hseen n hn]

/-! ## §3 Count -/

/-- The number of different references that are reached. -/
noncomputable def referenceCount (g : Grammar) (root : NodeId) : Nat :=
  Set.ncard {n | g.Reaches root n ∧ (g.node n).isReference = true}

theorem length_filter_isReference (g : Grammar) (root : NodeId) :
    ((g.walk root).filter fun n => (g.node n).isReference).length = g.referenceCount root := by
  have hnodup := (nodup_walk g root).filter fun n => (g.node n).isReference
  rw [← List.toFinset_card_of_nodup hnodup, ← Set.ncard_coe_finset]
  unfold referenceCount
  congr 1
  ext n
  simp [mem_walk_iff]

/-- **A walk after compression** visits the same nodes in the same order as one
before it, references apart; a parser counts that many nodes less. -/
theorem walk_compressed (hu : g.Fresh root) (h : g.compress root = (.ok u, g')) :
    g'.walk u = (g.walk root).filter (fun n => !(g.node n).isReference) ∧
      ∀ config, ∃ p, Parser.prepare root config g = (.ok p, g') ∧ p.root = u ∧
        p.nodeCount + g.referenceCount root = g.count root := by
  have hd := hu.compressed h
  have hall := hu.complete h
  have hwalk : g'.walk u = (g.walk root).filter fun n => !(g.node n).isReference := by
    rw [← visits_iff_walk]
    have hv := hd.visits hall (walk_visits g root)
      (fun n hn => List.mem_singleton.1 hn ▸ .refl) nofun fun _ _ => Iff.rfl
    rwa [List.map_singleton, (compress_settled h).1.target_eq] at hv
  refine ⟨hwalk, fun config => ⟨⟨u, config, g'.count u⟩, ?_, rfl, ?_⟩⟩
  · unfold Parser.prepare
    rw [hall.unboundReferences_eq, h]
  · unfold count
    rw [hwalk, ← length_filter_isReference, Nat.add_comm,
      ← List.length_eq_length_filter_add]

/-- A sequence (3) that leads back to itself through two references (2, 0), and a
character (1) that it reaches through another one (5) before it does directly. -/
def folded : Grammar :=
  ⟨#[.reference (some "start") (some 3), .range (.single 'a'), .reference none (some 0),
    .sequence [5, 4, 2] false, .choice 1 6 false, .reference (some "later") (some 1),
    .repetition 5 false]⟩

/-- Three of seven nodes are references. -/
theorem walk_compressed_folded :
    folded.Fresh 0 ∧ folded.compress 0 = (.ok 3, (folded.compress 0).2) ∧
      folded.walk 0 = [0, 3, 5, 1, 4, 6, 2] ∧ (folded.compress 0).2.walk 3 = [3, 1, 4, 6] ∧
      ∃ p, Parser.prepare 0 .default folded = (.ok p, (folded.compress 0).2) ∧
        p.nodeCount + folded.referenceCount 0 = 7 := by
  have hfresh : folded.Fresh 0 := by
    intro n hr
    have hall : ∀ m ∈ [0, 3, 5, 1, 4, 6, 2], (folded.node m).compressed = false := by decide
    exact hall n (hr.mem_of_closed (by decide) (by decide))
  have hc : folded.compress 0 = (.ok 3, (folded.compress 0).2) := rfl
  obtain ⟨hwalk, hparser⟩ := walk_compressed hfresh hc
  obtain ⟨p, hp, _, hcount⟩ := hparser .default
  exact ⟨hfresh, hc, rfl, hwalk.trans rfl, p, hp, hcount⟩

end PegGraph.Grammar
