/-
PegGraph.Grammar.Resolve — what a reference finally stands for.

A reference may stand for another reference. Its chain is followed until it
reaches a node that is none; it may also end in an unbound reference, or come
back to a reference that is already in the chain.
-/
import PegGraph.Grammar.Basic

namespace PegGraph.Grammar

/-- The label of a node. -/
def label (g : Grammar) (id : NodeId) : String := (g.node id).label id

/-- The fault of a chain that came back to a reference in it. -/
def cycleFault (g : Grammar) (chain : List NodeId) (again : NodeId) : Fault :=
  .cyclicReference ((chain ++ [again]).map g.label)

/-- Follows references from a node, where `chain` holds those behind, the
nearest first. -/
def follow (g : Grammar) : Nat → List NodeId → NodeId → Except Fault NodeId
  | 0, chain, id => .error (g.cycleFault chain.reverse id)
  | steps + 1, chain, id =>
    match g.node id with
    | .reference name target =>
      if id ∈ chain then .error (g.cycleFault chain.reverse id)
      else match target with
        | none => .error (.unboundReference [Node.labelOf id name])
        | some next => g.follow steps (id :: chain) next
    | _ => .ok id

/-- The node that a node stands for: itself unless it is a reference. A chain
repeats itself at the latest when it is longer than the store. -/
def resolve (g : Grammar) (id : NodeId) : Except Fault NodeId := g.follow (g.size + 1) [] id

/-- A node that is no reference stands for itself. -/
theorem resolve_of_not_reference {g : Grammar} {id : NodeId} (h : (g.node id).isReference = false) :
    g.resolve id = .ok id := by
  unfold resolve follow
  split
  · next heq => simp [heq, Node.isReference] at h
  · rfl

end PegGraph.Grammar
