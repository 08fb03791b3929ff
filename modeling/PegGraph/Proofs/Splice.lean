/-
PegGraph.Proofs.Splice — stores that differ in which links have been replaced.

  §1 Reaching  — nodes reached along links, and along links with references
                 taken out.
  §2 Splicing  — some links replaced by what they stand for; what two such
                 stores have in common.
  §3 Passes    — every pass splices, whether it comes to an end or to a fault.

The composites that two such stores join are the same (`joined_iff`), so a
path that takes references out can be carried from one store to the other
although the links on it differ.
-/
import Mathlib.Data.List.Forall2
import PegGraph.Proofs.Pass

namespace PegGraph.Grammar

open Relation (ReflTransGen)

/-! ## §1 Reaching -/

/-- One node links to another. -/
def Linked (g : Grammar) (a b : NodeId) : Prop := b ∈ g.links a

/-- What is reached along links, those of bound references included. The first
reference on such a path is reached along the links of composites alone. -/
def Reaches (g : Grammar) : NodeId → NodeId → Prop := ReflTransGen g.Linked

/-- One node links to another once references are taken out. -/
def Joined (g : Grammar) (a b : NodeId) : Prop := ∃ l ∈ g.links a, g.StandsFor l b

/-- No reference is reached. -/
def ReferenceFree (g : Grammar) (a : NodeId) : Prop :=
  ∀ n, g.Reaches a n → (g.node n).isReference = false

variable {g g' g'' : Grammar} {a b l l' t : NodeId}

theorem linked_of_node {n : Node} (hn : g.node a = n) (hl : b ∈ n.links) : g.Linked a b := by
  unfold Linked links
  rw [hn]
  exact hl

/-- Equal nodes have the same links, also in two stores. -/
theorem links_congr (h : g'.node a = g.node a) : g'.links a = g.links a := by
  unfold links
  rw [h]

/-- Equal nodes link alike. -/
theorem linked_congr (h : g'.node a = g.node a) : g'.Linked a b ↔ g.Linked a b := by
  unfold Linked
  rw [links_congr h]

theorem Forwards.linked (h : g.Forwards a b) : g.Linked a b := by
  obtain ⟨name, h⟩ := h
  exact linked_of_node h (List.mem_singleton_self b)

theorem forwards_of_linked (hr : (g.node a).isReference = true) (h : g.Linked a b) :
    g.Forwards a b := by
  unfold Linked links at h
  cases hn : g.node a with
  | reference name target =>
    rw [hn] at h
    cases target with
    | none => cases h
    | some next =>
      cases List.mem_singleton.1 h
      exact ⟨name, hn⟩
  | _ => rw [hn] at hr; cases hr

/-- Nodes without links are leaves, and references without a target. -/
theorem Linked.isComposite (hr : (g.node a).isReference = false) (h : g.Linked a b) :
    (g.node a).isComposite = true := by
  unfold Linked links at h
  cases hn : g.node a with
  | sequence | choice | repetition | action => rfl
  | reference => rw [hn] at hr; cases hr
  | _ => rw [hn] at h; cases h

/-- A node reaches the node that it stands for. -/
theorem StandsFor.reaches (h : g.StandsFor a t) : g.Reaches a t := by
  induction h with
  | self => exact .refl
  | forward hf _ ih => exact .head hf.linked ih

theorem Joined.reaches (h : g.Joined a b) : g.Reaches a b := by
  obtain ⟨l, hl, hs⟩ := h
  exact .head hl hs.reaches

theorem ReferenceFree.of_linked (h : g.ReferenceFree a) (hl : g.Linked a b) : g.ReferenceFree b :=
  fun n hn => h n (.head hl hn)

/-- A set of nodes that holds the links of its members holds what they reach. -/
theorem Reaches.mem_of_closed {S : List NodeId} (h : g.Reaches a b) (ha : a ∈ S)
    (hS : ∀ x ∈ S, ∀ y ∈ g.links x, y ∈ S) : b ∈ S := by
  induction h with
  | refl => exact ha
  | tail _ hl ih => exact hS _ ih _ hl

/-! ## §2 Splicing -/

/-- A link may be replaced by itself or by what it stands for. -/
def Substitutes (g : Grammar) (l l' : NodeId) : Prop := l' = l ∨ g.StandsFor l l'

theorem Substitutes.standsFor_iff (h : g.Substitutes l l') :
    g.StandsFor l t ↔ g.StandsFor l' t := by
  rcases h with rfl | h
  · exact Iff.rfl
  · rw [standsFor_self_iff h.not_reference]
    exact ⟨fun ht => (h.unique ht).symm, fun ht => ht ▸ h⟩

theorem Substitutes.trans (h : g.Substitutes l l') (h' : g.Substitutes l' t) :
    g.Substitutes l t := by
  rcases h' with rfl | hs
  · exact h
  · exact .inr (h.standsFor_iff.2 hs)

/-- What is no reference is replaced by itself alone. -/
theorem Substitutes.eq_self (h : g.Substitutes l l') (href : (g.node l).isReference = false) :
    l' = l :=
  h.elim id (standsFor_self_iff href).1

theorem Substitutes.reaches (h : g.Substitutes l l') : g.Reaches l l' := by
  rcases h with rfl | h
  · exact .refl
  · exact h.reaches

theorem forall₂_substitutes (g : Grammar) (ids : List NodeId) :
    List.Forall₂ g.Substitutes ids ids :=
  List.forall₂_same.2 fun _ _ => .inl rfl

/-- A store in which some links of another were replaced by what they stand
for. Marks may differ freely. -/
structure Spliced (g g' : Grammar) : Prop extends SameShape g g' where
  links : ∀ id, List.Forall₂ g.Substitutes (g.links id) (g'.links id)

namespace Spliced

theorem refl (g : Grammar) : Spliced g g :=
  ⟨.refl g, fun _ => forall₂_substitutes g _⟩

theorem substitutes_iff (h : Spliced g g') : g'.Substitutes l l' ↔ g.Substitutes l l' :=
  or_congr Iff.rfl h.standsFor_iff

theorem trans (h : Spliced g g') (h' : Spliced g' g'') : Spliced g g'' := by
  refine ⟨h.toSameShape.trans h'.toSameShape, fun id => ?_⟩
  have hlen := (h.links id).length_eq
  have hlen' := (h'.links id).length_eq
  refine List.forall₂_iff_get.2 ⟨hlen.trans hlen', fun i h₁ h₂ => ?_⟩
  have hfirst := (h.links id).get h₁ (hlen ▸ h₁)
  exact hfirst.trans (h.substitutes_iff.1 ((h'.links id).get (hlen ▸ h₁) h₂))

theorem exists_link (h : Spliced g g') (hl : g'.Linked a l') :
    ∃ l, g.Linked a l ∧ g.Substitutes l l' := by
  obtain ⟨i, hi, rfl⟩ := List.getElem_of_mem hl
  have hi' : i < (g.links a).length := (h.links a).length_eq ▸ hi
  exact ⟨(g.links a)[i], List.getElem_mem hi', (h.links a).get hi' hi⟩

theorem exists_link' (h : Spliced g g') (hl : g.Linked a l) :
    ∃ l', g'.Linked a l' ∧ g.Substitutes l l' := by
  obtain ⟨i, hi, rfl⟩ := List.getElem_of_mem hl
  have hi' : i < (g'.links a).length := (h.links a).length_eq ▸ hi
  exact ⟨(g'.links a)[i], List.getElem_mem hi', (h.links a).get hi hi'⟩

/-- The same nodes are joined. -/
theorem joined_iff (h : Spliced g g') : g'.Joined a b ↔ g.Joined a b := by
  constructor
  · rintro ⟨l', hl', hs⟩
    obtain ⟨l, hl, hsub⟩ := h.exists_link hl'
    exact ⟨l, hl, hsub.standsFor_iff.2 (h.standsFor_iff.1 hs)⟩
  · rintro ⟨l, hl, hs⟩
    obtain ⟨l', hl', hsub⟩ := h.exists_link' hl
    exact ⟨l', hl', h.standsFor_iff.2 (hsub.standsFor_iff.1 hs)⟩

/-- Nothing is reached that was not reached before. -/
theorem reaches (h : Spliced g g') (hr : g'.Reaches a b) : g.Reaches a b := by
  induction hr with
  | refl => exact .refl
  | tail _ hl ih =>
    obtain ⟨l, hl, hsub⟩ := h.exists_link hl
    exact (ih.tail hl).trans hsub.reaches

end Spliced

/-! ## §3 Passes -/

theorem mark_spliced (g : Grammar) (id : NodeId) (value : Bool) : Spliced g (g.mark id value) := by
  refine ⟨mark_sameShape .., fun other => ?_⟩
  rw [links_mark]
  exact forall₂_substitutes g _

theorem relink_spliced {id index : NodeId} (hi : (g.links id)[index]? = some l)
    (hs : g.Substitutes l t) : Spliced g (g.relink id index t) := by
  refine ⟨relink_sameShape .., fun other => ?_⟩
  by_cases hother : other = id
  · subst hother
    cases hc : (g.node other).isComposite with
    | false =>
      unfold links
      rw [relink_of_not_composite hc]
      exact forall₂_substitutes g _
    | true =>
      rw [links_relink hc, List.forall₂_iff_get]
      refine ⟨by simp, fun i h₁ h₂ => ?_⟩
      simp only [List.get_eq_getElem, List.getElem_set]
      split
      · next heq =>
        subst heq
        obtain ⟨_, hget⟩ := List.getElem?_eq_some_iff.1 hi
        exact hget ▸ hs
      · exact .inl rfl
  · rw [links_relink_of_ne hother]
    exact forall₂_substitutes g _

/-- Replacing a link by what it stands for keeps a store spliced, also where the
link has been replaced before: then it was by the same node. -/
theorem Spliced.relink {id index : NodeId} (h : Spliced g g') (hi : (g.links id)[index]? = some l)
    (hs : g.StandsFor l t) : Spliced g (g'.relink id index t) := by
  obtain ⟨hlt, hget⟩ := List.getElem?_eq_some_iff.1 hi
  have hlt' : index < (g'.links id).length := (h.links id).length_eq ▸ hlt
  have hsub : g.Substitutes l (g'.links id)[index] := by
    have := (h.links id).get hlt hlt'
    rwa [List.get_eq_getElem, hget] at this
  have hs' : g'.StandsFor (g'.links id)[index] t :=
    h.standsFor_iff.2 (hsub.standsFor_iff.1 hs)
  exact h.trans (relink_spliced (List.getElem?_eq_getElem hlt') (.inr hs'))

/-- The result of a node is the node that it stands for. -/
theorem Pass.standsFor {id : NodeId} (h : Pass (.node id) g (.ok t) g') :
    g.StandsFor id t ∧ g.node t ≠ .abstract := by
  cases h with
  | skip hs ha => exact ⟨hs, ha⟩
  | enter hs ho => exact ⟨hs, Node.not_abstract_of_composite (isOpen_iff.1 ho).1⟩

/-- **Every pass splices**, and one that ends with a fault leaves no link
replaced by anything else. -/
theorem Pass.spliced {task : Task} {r : Except Fault NodeId} (h : Pass task g r g') :
    Spliced g g' := by
  induction h with
  | unresolved | abstract | skip | done => exact .refl _
  | enter _ _ _ ih => exact (mark_spliced ..).trans ih
  | abandon _ _ _ ih => exact ((mark_spliced ..).trans ih).trans (mark_spliced ..)
  | stop _ _ ih => exact ih
  | next hi hp _ ihp ihr => exact (ihp.relink hi hp.standsFor.1).trans ihr

end PegGraph.Grammar
