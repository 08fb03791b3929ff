/-
PegGraph.Proofs.Akin — stores between which compression sees no difference.

  §1 Targets — links that stand for the same node, and stores that have such
               links in all places.
  §2 Marks   — stores that carry the same marks.
  §3 Passes  — a pass can be run on an akin store with the same marks, and
               ends there with the same result and the same marks
               (`Pass.twin`).

Splicing has a direction: one of two stores is the earlier. Here neither is.
That is what is wanted of two runs which have replaced different links so far,
each of them from one store that neither knows any more.
-/
import PegGraph.Proofs.Marking

namespace PegGraph.Grammar

variable {g g' k k' : Grammar} {l l' l'' t id : NodeId} {index : Nat} {task : Task}
  {r : Except Fault NodeId}

/-! ## §1 Targets -/

/-- Links that are equal or stand for one node. -/
def SameTarget (g : Grammar) (l l' : NodeId) : Prop :=
  l = l' ∨ ∃ t, g.StandsFor l t ∧ g.StandsFor l' t

theorem SameTarget.symm (h : g.SameTarget l l') : g.SameTarget l' l := by
  rcases h with rfl | ⟨t, hl, hl'⟩
  · exact .inl rfl
  · exact .inr ⟨t, hl', hl⟩

theorem SameTarget.trans (h : g.SameTarget l l') (h' : g.SameTarget l' l'') :
    g.SameTarget l l'' := by
  rcases h with rfl | ⟨t, hl, hl'⟩
  · exact h'
  · rcases h' with rfl | ⟨u, hu, hu'⟩
    · exact .inr ⟨t, hl, hl'⟩
    · exact .inr ⟨t, hl, hl'.unique hu ▸ hu'⟩

theorem SameTarget.standsFor (h : g.SameTarget l l') (hs : g.StandsFor l t) :
    g.StandsFor l' t := by
  rcases h with rfl | ⟨u, hl, hl'⟩
  · exact hs
  · exact hl.unique hs ▸ hl'

theorem Substitutes.sameTarget (h : g.Substitutes l l') : g.SameTarget l l' := by
  rcases h with rfl | hs
  · exact .inl rfl
  · exact .inr ⟨l', hs, .self hs.not_reference⟩

theorem SameShape.sameTarget_iff (h : SameShape g g') :
    g'.SameTarget l l' ↔ g.SameTarget l l' := by
  unfold SameTarget
  simp only [h.standsFor_iff]

/-- Two stores of one shape whose links, place by place, have the same targets. -/
structure Akin (g k : Grammar) : Prop extends SameShape g k where
  links : ∀ id, List.Forall₂ g.SameTarget (g.links id) (k.links id)

namespace Akin

theorem symm (h : Akin g k) : Akin k g := by
  refine ⟨h.toSameShape.symm, fun id => ?_⟩
  have hflip : List.Forall₂ (fun l l' => k.SameTarget l' l) (g.links id) (k.links id) :=
    (h.links id).imp fun l l' hl => h.sameTarget_iff.2 hl.symm
  exact hflip.flip

theorem trans {j : Grammar} (h : Akin g k) (h' : Akin k j) : Akin g j := by
  refine ⟨h.toSameShape.trans h'.toSameShape, fun id => ?_⟩
  have hlen := (h.links id).length_eq
  have hlen' := (h'.links id).length_eq
  refine List.forall₂_iff_get.2 ⟨hlen.trans hlen', fun i h₁ h₂ => ?_⟩
  have hfirst := (h.links id).get h₁ (hlen ▸ h₁)
  exact hfirst.trans (h.sameTarget_iff.1 ((h'.links id).get (hlen ▸ h₁) h₂))

/-- In each place there is a link in both stores, or in none. -/
theorem getElem?_eq_some (h : Akin g k) (hi : (g.links id)[index]? = some l) :
    ∃ l', (k.links id)[index]? = some l' ∧ g.SameTarget l l' := by
  obtain ⟨hlt, rfl⟩ := List.getElem?_eq_some_iff.1 hi
  have hlt' : index < (k.links id).length := (h.links id).length_eq ▸ hlt
  exact ⟨(k.links id)[index], List.getElem?_eq_getElem hlt', (h.links id).get hlt hlt'⟩

theorem getElem?_eq_none (h : Akin g k) (hi : (g.links id)[index]? = none) :
    (k.links id)[index]? = none := by
  rw [List.getElem?_eq_none_iff] at hi ⊢
  rwa [← (h.links id).length_eq]

end Akin

theorem Spliced.akin (h : Spliced g g') : Akin g g' :=
  ⟨h.toSameShape, fun id => (h.links id).imp fun _ _ => Substitutes.sameTarget⟩

/-- Stores that were spliced further are as akin as before. -/
theorem Akin.congr (h : Akin g k) (hg : Spliced g g') (hk : Spliced k k') : Akin g' k' :=
  (hg.akin.symm.trans h).trans hk.akin

/-! ## §2 Marks -/

/-- The same nodes carry a mark. -/
def SameMarks (g k : Grammar) : Prop :=
  ∀ n, (g.node n).compressed = (k.node n).compressed

theorem SameMarks.symm (h : SameMarks g k) : SameMarks k g := fun n => (h n).symm

theorem SameMarks.trans {j : Grammar} (h : SameMarks g k) (h' : SameMarks k j) : SameMarks g j :=
  fun n => (h n).trans (h' n)

/-- Only a composite takes a mark. -/
theorem compressed_mark (g : Grammar) (id : NodeId) (value : Bool) (n : NodeId) :
    ((g.mark id value).node n).compressed =
      if n = id ∧ (g.node id).isComposite = true then value else (g.node n).compressed := by
  rw [node_mark]
  by_cases heq : n = id
  · subst heq
    cases hn : g.node n <;> simp [Node.setCompressed, Node.compressed, Node.isComposite]
  · rw [if_neg heq, if_neg fun h => heq h.1]

theorem SameMarks.mark (h : SameMarks g k) (hs : SameShape g k) (id : NodeId) (value : Bool) :
    SameMarks (g.mark id value) (k.mark id value) := by
  intro n
  rw [compressed_mark, compressed_mark, hs.isComposite, h n]

theorem SameMarks.relink (h : SameMarks g k) (id : NodeId) (index : Nat) (link : NodeId) :
    SameMarks (g.relink id index link) (k.relink id index link) := by
  intro n
  rw [compressed_relink, compressed_relink, h n]

theorem SameMarks.isOpen (h : SameMarks g k) (hs : SameShape g k) (n : NodeId) :
    k.isOpen n = g.isOpen n := by
  unfold Grammar.isOpen
  rw [hs.isComposite, h n]

/-! ## §3 Passes -/

/-- A pass over a node is a pass over what it stands for. -/
theorem Pass.of_sameTarget (h : Pass (.node l) g r g') (hl : g.SameTarget l l') :
    Pass (.node l') g r g' := by
  cases h with
  | unresolved hr =>
    rcases hl with rfl | ⟨t, ht, _⟩
    · exact .unresolved hr
    · rw [resolve_eq_ok_iff.2 ht] at hr
      cases hr
  | abstract hs ha => exact .abstract (hl.standsFor hs) ha
  | skip hs ha ho => exact .skip (hl.standsFor hs) ha ho
  | enter hs ho hp => exact .enter (hl.standsFor hs) ho hp
  | abandon hs ho hp => exact .abandon (hl.standsFor hs) ho hp

/-- **A pass does the same to both of two akin stores** that carry the same marks. -/
theorem Pass.twin (h : Pass task g r g') (hk : Akin g k) (hm : SameMarks g k) :
    ∃ k', Pass task k r k' ∧ SameMarks g' k' := by
  induction h generalizing k with
  | unresolved hr => exact ⟨k, .unresolved (by rw [hk.resolve, hr]), hm⟩
  | abstract hs ha => exact ⟨k, .abstract (hk.standsFor_iff.2 hs) (hk.abstract_iff.2 ha), hm⟩
  | skip hs ha ho =>
    refine ⟨k, .skip (hk.standsFor_iff.2 hs) (fun h => ha (hk.abstract_iff.1 h)) ?_, hm⟩
    rw [hm.isOpen hk.toSameShape, ho]
  | @enter g g' id target hs ho _ ih =>
    have hmark := hk.congr (mark_spliced g target true) (mark_spliced k target true)
    obtain ⟨k', hp, hm'⟩ := ih hmark (hm.mark hk.toSameShape target true)
    refine ⟨k', .enter (hk.standsFor_iff.2 hs) ?_ hp, hm'⟩
    rw [hm.isOpen hk.toSameShape, ho]
  | @abandon g g' id target fault hs ho hl ih =>
    have hmark := hk.congr (mark_spliced g target true) (mark_spliced k target true)
    obtain ⟨k', hp, hm'⟩ := ih hmark (hm.mark hk.toSameShape target true)
    refine ⟨k'.mark target false, .abandon (hk.standsFor_iff.2 hs) ?_ hp, ?_⟩
    · rw [hm.isOpen hk.toSameShape, ho]
    · exact hm'.mark (hmark.congr hl.spliced hp.spliced).toSameShape target false
  | done hi => exact ⟨k, .done (hk.getElem?_eq_none hi), hm⟩
  | stop hi _ ih =>
    obtain ⟨l', hi', hl⟩ := hk.getElem?_eq_some hi
    obtain ⟨k', hp, hm'⟩ := ih hk hm
    exact ⟨k', .stop hi' (hp.of_sameTarget (hk.sameTarget_iff.2 hl)), hm'⟩
  | @next g g₁ g' id index link target result hi hp _ ihp ihr =>
    obtain ⟨l', hi', hl⟩ := hk.getElem?_eq_some hi
    obtain ⟨k₁, hp', hm₁⟩ := ihp hk hm
    have hp' := hp'.of_sameTarget (hk.sameTarget_iff.2 hl)
    have hnext := hk.congr (hp.spliced.relink hi hp.standsFor.1)
      (hp'.spliced.relink hi' hp'.standsFor.1)
    obtain ⟨k', hr', hm'⟩ := ihr hnext (hm₁.relink id index target)
    exact ⟨k', .next hi' hp' hr', hm'⟩

end PegGraph.Grammar
