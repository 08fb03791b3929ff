/-
PegGraph.Proofs.Causes — the actions that a fault can come from.

Of its own the machinery of a parse has few faults to offer: the depth limit, a
position outside the source, an index that reads nothing, and the abstract node
(`Parse.Fails`). All others are those of references and of actions, passed on
unchanged.
-/
import PegGraph.Proofs.Dispatch

namespace PegGraph

/-- An action that a node reaches can fail with a fault. -/
def Grammar.Throws (g : Grammar) (n : NodeId) (fault : Fault) : Prop :=
  ∃ m child act mark, g.Reaches n m ∧ g.node m = .action child act mark ∧
    ∃ readDepth v, act.apply readDepth v = .error fault

/-- A source refuses a character for its position only. -/
theorem Source.read_eq_error {source : Source} {pos : Int} {fault : Fault}
    (h : source.read pos = .error fault) : fault = .indexTooWide ∨ fault = .textIndex := by
  unfold Source.read at h
  split at h
  · cases h
    exact .inl rfl
  · split at h
    · cases h
    · cases h
      exact .inr rfl

/-- Where no reference is reached, nothing but an action can complain of one. -/
theorem Parse.run_uncompressed {cx : Parse.Setting} {n : NodeId} {pos : Int} {guard : DepthGuard}
    {label : String} (hm : cx.mode = .reject) (hfree : cx.grammar.ReferenceFree n)
    (h : (Parse.run cx n pos guard).1 = .failed (.uncompressedReference label)) :
    cx.grammar.Throws n (.uncompressedReference label) := by
  rw [Parse.run_eq] at h
  obtain ⟨u, hcovers, hfails⟩ := Parse.exists_fails hm h
  cases hfails with
  | unread _ hread => rcases Source.read_eq_error hread with h | h <;> cases h
  | astray _ hcheck => cases Cursor.checkPosition_eq_error hcheck
  | action hnode hact => exact ⟨u.node, _, _, _, hcovers.reaches, hnode, _, _, hact⟩
  | reference hnode =>
    have hnot := hfree u.node hcovers.reaches
    rw [hnode] at hnot
    cases hnot

end PegGraph
