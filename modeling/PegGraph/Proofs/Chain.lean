/-
PegGraph.Proofs.Chain — what a reference stands for, without counting steps.

  §1 Chains     — one step of a reference, and the node that a chain ends in.
  §2 Resolution — `resolve` finds that node, exactly where there is one
                  (`resolve_eq_ok_iff`).
  §3 Congruence — resolution reads the references of a store and nothing else.

How the main proof goes: the references that `follow` has behind it are
pairwise different and all in the store, so its steps outlast every chain
(`follow_chases`), and what it comes to is read off the chain (`Chases`); a chain
that ends never meets a reference twice (`StandsFor.acyclic`), so the test for
repetition stops none of those.
-/
import Mathlib.Logic.Relation
import Mathlib.Data.List.Perm.Subperm
import PegGraph.Proofs.Shape

namespace PegGraph.Grammar

open Relation (TransGen ReflTransGen)

/-! ## §1 Chains -/

/-- The target of a bound reference. -/
def Forwards (g : Grammar) (id next : NodeId) : Prop :=
  ∃ name, g.node id = .reference name (some next)

/-- The first node that is no reference, on the way along targets. -/
inductive StandsFor (g : Grammar) : NodeId → NodeId → Prop where
  /-- A node that is no reference stands for itself. -/
  | self {id} (h : (g.node id).isReference = false) : StandsFor g id id
  /-- A bound reference stands for what its target stands for. -/
  | forward {id next t} (h : g.Forwards id next) (rest : StandsFor g next t) : StandsFor g id t

variable {g g' : Grammar} {id next t u : NodeId}

theorem Forwards.unique (h : g.Forwards id next) (h' : g.Forwards id u) : next = u := by
  obtain ⟨_, h⟩ := h
  obtain ⟨_, h'⟩ := h'
  rw [h] at h'
  cases h'
  rfl

theorem Forwards.isReference (h : g.Forwards id next) : (g.node id).isReference = true := by
  obtain ⟨_, h⟩ := h
  rw [h]
  rfl

theorem not_forwards_of_unbound {name : Option String} (h : g.node id = .reference name none)
    (next : NodeId) : ¬ g.Forwards id next := by
  rintro ⟨_, hf⟩
  rw [h] at hf
  cases hf

theorem not_forwards_of_not_reference (h : (g.node id).isReference = false) (next : NodeId) :
    ¬ g.Forwards id next := by
  intro hf
  rw [hf.isReference] at h
  cases h

theorem not_isReference (h : ∀ name target, g.node id ≠ .reference name target) :
    (g.node id).isReference = false := by
  cases hn : g.node id with
  | reference name target => exact absurd hn (h name target)
  | _ => rfl

/-- What lies beyond the store reads as abstract. -/
theorem lt_size_of_not_abstract (h : g.node id ≠ .abstract) : id < g.size := by
  apply Nat.lt_of_not_le
  intro hle
  exact h (node_of_size_le hle)

theorem lt_size_of_composite (h : (g.node id).isComposite = true) : id < g.size :=
  lt_size_of_not_abstract (Node.not_abstract_of_composite h)

theorem lt_size_of_isReference (h : (g.node id).isReference = true) : id < g.size := by
  apply lt_size_of_not_abstract
  intro hab
  rw [hab] at h
  cases h

theorem StandsFor.not_reference (h : g.StandsFor id t) : (g.node t).isReference = false := by
  induction h with
  | self h => exact h
  | forward _ _ ih => exact ih

theorem standsFor_self_iff (h : (g.node id).isReference = false) : g.StandsFor id t ↔ t = id := by
  constructor
  · intro hs
    cases hs with
    | self => rfl
    | forward hf => rw [hf.isReference] at h; cases h
  · rintro rfl
    exact .self h

theorem standsFor_forward_iff (h : g.Forwards id next) : g.StandsFor id t ↔ g.StandsFor next t := by
  constructor
  · intro hs
    cases hs with
    | self hn => rw [h.isReference] at hn; cases hn
    | forward hf rest => exact h.unique hf ▸ rest
  · exact .forward h

theorem StandsFor.unique (h : g.StandsFor id t) (h' : g.StandsFor id u) : t = u := by
  induction h with
  | self hn => exact ((standsFor_self_iff hn).1 h').symm
  | forward hf _ ih => exact ih ((standsFor_forward_iff hf).1 h')

/-- A chain that ends does not come back to where it started. -/
theorem StandsFor.acyclic (h : g.StandsFor id t) : ¬ TransGen g.Forwards id id := by
  induction h with
  | self hn =>
    intro hc
    obtain ⟨_, hf, _⟩ := TransGen.head'_iff.1 hc
    rw [hf.isReference] at hn
    cases hn
  | @forward id next t hf _ ih =>
    intro hc
    obtain ⟨b, hb, hrest⟩ := TransGen.head'_iff.1 hc
    have heq : next = b := hf.unique hb
    subst heq
    exact ih (TransGen.tail' hrest hf)

/-! ## §2 Resolution -/

/-- Different nodes of a store are not more than the store has. -/
theorem length_le_size {chain : List NodeId} (hnodup : chain.Nodup)
    (hlt : ∀ c ∈ chain, c < g.size) : chain.length ≤ g.size := by
  have hsub : chain ⊆ List.range g.size := fun c hc => List.mem_range.2 (hlt c hc)
  simpa using (hnodup.subperm hsub).length_le

/-- What it comes to to follow references from a node, with those of `chain` behind it,
the nearest first. -/
inductive Chases (g : Grammar) : List NodeId → NodeId → Except Fault NodeId → Prop where
  /-- The node is no reference. -/
  | self {chain id} (h : (g.node id).isReference = false) : Chases g chain id (.ok id)
  /-- The chain ends in a reference without a target. -/
  | unbound {chain id name} (hnew : id ∉ chain) (h : g.node id = .reference name none) :
    Chases g chain id (.error (.unboundReference [Node.labelOf id name]))
  /-- The chain comes back to a reference that is behind. -/
  | back {chain id} (h : id ∈ chain) (href : (g.node id).isReference = true) :
    Chases g chain id (.error (g.cycleFault chain.reverse id))
  /-- The target of a reference is followed. -/
  | forward {chain id next r} (hnew : id ∉ chain) (hf : g.Forwards id next)
    (rest : Chases g (id :: chain) next r) : Chases g chain id r

/-- Different references are behind `follow`, and its steps and they together are more than
the store has nodes, so it does not run out of steps. -/
theorem follow_chases (steps : Nat) (chain : List NodeId) (id : NodeId)
    (hsteps : g.size < steps + chain.length) (hnodup : chain.Nodup)
    (hrefs : ∀ c ∈ chain, (g.node c).isReference = true) :
    g.Chases chain id (g.follow steps chain id) := by
  induction steps generalizing chain id with
  | zero =>
    have hle := length_le_size hnodup fun c hc => lt_size_of_isReference (hrefs c hc)
    omega
  | succ steps ih =>
    unfold follow
    split
    · next name target hnode =>
      have href : (g.node id).isReference = true := by rw [hnode]; rfl
      split
      · next hmem => exact .back hmem href
      · next hmem =>
        cases target with
        | none => exact .unbound hmem hnode
        | some next =>
          refine .forward hmem ⟨name, hnode⟩ (ih (id :: chain) next ?_ ?_ ?_)
          · simp only [List.length_cons]; omega
          · exact List.nodup_cons.2 ⟨hmem, hnodup⟩
          · exact List.forall_mem_cons.2 ⟨href, hrefs⟩
    · next hnode => exact .self (not_isReference hnode)

theorem resolve_chases (g : Grammar) (id : NodeId) : g.Chases [] id (g.resolve id) :=
  follow_chases (g.size + 1) [] id (Nat.lt_succ_self _) List.nodup_nil nofun

namespace Chases

variable {chain : List NodeId} {r r' : Except Fault NodeId}

/-- There is no choice in it. -/
theorem unique (h : g.Chases chain id r) (h' : g.Chases chain id r') : r = r' := by
  induction h generalizing r' with
  | self hfree =>
    cases h' with
    | self => rfl
    | unbound _ hnode => rw [hnode] at hfree; cases hfree
    | back _ href => rw [href] at hfree; cases hfree
    | forward _ hf => exact absurd hf (not_forwards_of_not_reference hfree _)
  | unbound hnew hnode =>
    cases h' with
    | self hfree => rw [hnode] at hfree; cases hfree
    | unbound _ hnode' => rw [hnode] at hnode'; cases hnode'; rfl
    | back hmem => exact absurd hmem hnew
    | forward _ hf => exact absurd hf (not_forwards_of_unbound hnode _)
  | back hmem href =>
    cases h' with
    | self hfree => rw [href] at hfree; cases hfree
    | unbound hnew => exact absurd hmem hnew
    | back => rfl
    | forward hnew => exact absurd hmem hnew
  | forward hnew hf _ ih =>
    cases h' with
    | self hfree => exact absurd hf (not_forwards_of_not_reference hfree _)
    | unbound _ hnode => exact absurd hf (not_forwards_of_unbound hnode _)
    | back hmem => exact absurd hmem hnew
    | forward _ hf' rest =>
      cases hf.unique hf'
      exact ih rest

theorem standsFor (h : g.Chases chain id (.ok t)) : g.StandsFor id t := by
  generalize hr : Except.ok t = r at h
  induction h with
  | self hfree => cases hr; exact .self hfree
  | unbound | back => cases hr
  | forward _ hf _ ih => exact .forward hf (ih hr)

end Chases

/-- A chain that ends does not come back to what led to it. -/
theorem StandsFor.chases {chain : List NodeId} (h : g.StandsFor id t)
    (hlead : ∀ c ∈ chain, TransGen g.Forwards c id) : g.Chases chain id (.ok t) := by
  induction h generalizing chain with
  | self hfree => exact .self hfree
  | @forward id next t hf rest ih =>
    have hnew : id ∉ chain := fun hmem => (StandsFor.forward hf rest).acyclic (hlead id hmem)
    refine .forward hnew hf (ih (List.forall_mem_cons.2 ⟨.single hf, ?_⟩))
    exact fun c hc => (hlead c hc).tail hf

theorem follow_of_not_reference (h : (g.node id).isReference = false) (steps : Nat)
    (chain : List NodeId) : g.follow (steps + 1) chain id = .ok id := by
  unfold follow
  split
  · next hnode => rw [hnode] at h; cases h
  · rfl

/-- **Resolution** succeeds exactly on the nodes that stand for one, and yields
that one. -/
theorem resolve_eq_ok_iff : g.resolve id = .ok t ↔ g.StandsFor id t :=
  ⟨fun h => (h ▸ resolve_chases g id).standsFor,
    fun hs => (resolve_chases g id).unique (hs.chases nofun)⟩

/-- Resolution stops with a fault exactly where a chain has no end. -/
theorem resolve_fails_iff : (∃ fault, g.resolve id = .error fault) ↔ ¬ ∃ t, g.StandsFor id t := by
  constructor
  · rintro ⟨fault, hf⟩ ⟨t, ht⟩
    rw [resolve_eq_ok_iff.2 ht] at hf
    cases hf
  · intro hnone
    cases h : g.resolve id with
    | error fault => exact ⟨fault, rfl⟩
    | ok t => exact absurd ⟨t, resolve_eq_ok_iff.1 h⟩ hnone

/-- Only references fail to stand for a node. -/
theorem isReference_of_no_target (h : ¬ ∃ t, g.StandsFor id t) :
    (g.node id).isReference = true := by
  cases hn : (g.node id).isReference with
  | true => rfl
  | false => exact absurd ⟨id, .self hn⟩ h

/-! ## §3 Congruence -/

/-- Two stores with the same number of nodes and the same shape in every place.
They have the same references, with the same names and targets. -/
structure SameShape (g g' : Grammar) : Prop where
  size : g'.size = g.size
  shape : ∀ id, (g'.node id).shape = (g.node id).shape

namespace SameShape

theorem refl (g : Grammar) : SameShape g g := ⟨rfl, fun _ => rfl⟩

theorem symm (h : SameShape g g') : SameShape g' g := ⟨h.size.symm, fun id => (h.shape id).symm⟩

theorem trans {g'' : Grammar} (h : SameShape g g') (h' : SameShape g' g'') : SameShape g g'' :=
  ⟨h'.size.trans h.size, fun id => (h'.shape id).trans (h.shape id)⟩

theorem isReference (h : SameShape g g') (id : NodeId) :
    (g'.node id).isReference = (g.node id).isReference :=
  Node.isReference_congr (h.shape id)

theorem isComposite (h : SameShape g g') (id : NodeId) :
    (g'.node id).isComposite = (g.node id).isComposite :=
  Node.isComposite_congr (h.shape id)

/-- Leaves and references are the same in both. -/
theorem node_eq (h : SameShape g g') (hn : (g.node id).isComposite = false) :
    g'.node id = g.node id :=
  Node.eq_of_shape_eq (h.shape id).symm hn

theorem abstract_iff (h : SameShape g g') : g'.node id = .abstract ↔ g.node id = .abstract := by
  constructor
  · intro ha
    exact (h.symm.node_eq (by rw [ha]; rfl)).trans ha
  · intro ha
    exact (h.node_eq (by rw [ha]; rfl)).trans ha

theorem label (h : SameShape g g') : g'.label = g.label := by
  funext id
  unfold Grammar.label
  rw [← Node.label_shape id (g.node id), ← h.shape id, Node.label_shape]

theorem follow (h : SameShape g g') (steps : Nat) (chain : List NodeId) (id : NodeId) :
    g'.follow steps chain id = g.follow steps chain id := by
  induction steps generalizing chain id with
  | zero => simp only [Grammar.follow, cycleFault, h.label]
  | succ steps ih =>
    cases hn : (g.node id).isReference with
    | false =>
      have hn' : (g'.node id).isReference = false := by rw [h.isReference, hn]
      rw [follow_of_not_reference hn, follow_of_not_reference hn']
    | true =>
      have heq : g'.node id = g.node id := h.node_eq (Node.not_composite_of_reference hn)
      simp only [Grammar.follow, heq, cycleFault, h.label, ih]

/-- Resolution answers alike, faults and their labels included. -/
theorem resolve (h : SameShape g g') (id : NodeId) : g'.resolve id = g.resolve id := by
  unfold Grammar.resolve
  rw [h.size, h.follow]

theorem standsFor_iff (h : SameShape g g') : g'.StandsFor id t ↔ g.StandsFor id t := by
  rw [← resolve_eq_ok_iff, ← resolve_eq_ok_iff, h.resolve]

end SameShape

theorem mark_sameShape (g : Grammar) (id : NodeId) (value : Bool) : SameShape g (g.mark id value) :=
  ⟨size_mark g id value, shape_mark g id value⟩

theorem relink_sameShape (g : Grammar) (id : NodeId) (index : Nat) (link : NodeId) :
    SameShape g (g.relink id index link) :=
  ⟨size_relink g id index link, shape_relink g id index link⟩

end PegGraph.Grammar
