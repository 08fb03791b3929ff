/-
PegGraph.Proofs.Walk — what a walk visits, and what a survey finds.

A walk takes nodes from a stack, and puts links of what it takes on the stack.
So whatever it visits was on the stack at the start, or is reached from there.
-/
import PegGraph.Grammar.Walk
import PegGraph.Proofs.Compression

namespace PegGraph.Grammar

variable {g : Grammar} {root n : NodeId}

/-- A walk visits only what is reached from its stack. -/
theorem mem_walkFrom {steps : Nat} {stack seen : List NodeId}
    (h : n ∈ g.walkFrom steps stack seen) : n ∈ seen ∨ ∃ a ∈ stack, g.Reaches a n := by
  induction steps generalizing stack seen with
  | zero => exact .inl (List.mem_reverse.1 h)
  | succ steps ih =>
    cases stack with
    | nil => exact .inl (List.mem_reverse.1 h)
    | cons a stack =>
      unfold walkFrom at h
      split at h
      · rcases ih h with hseen | ⟨b, hb, hr⟩
        · exact .inl hseen
        · exact .inr ⟨b, List.mem_cons_of_mem a hb, hr⟩
      · rcases ih h with hseen | ⟨b, hb, hr⟩
        · rcases List.mem_cons.1 hseen with rfl | hseen
          · exact .inr ⟨n, List.mem_cons_self, .refl⟩
          · exact .inl hseen
        · rcases List.mem_append.1 hb with hb | hb
          · have hl : g.Linked a b := (List.mem_filter.1 hb).1
            exact .inr ⟨a, List.mem_cons_self, .head hl hr⟩
          · exact .inr ⟨b, List.mem_cons_of_mem a hb, hr⟩

theorem reaches_of_mem_walk (h : n ∈ g.walk root) : g.Reaches root n := by
  rcases mem_walkFrom h with hseen | ⟨a, ha, hr⟩
  · cases hseen
  · cases List.mem_singleton.1 ha
    exact hr

/-- A complete grammar has no unbound references. -/
theorem Complete.unboundReferences_eq (h : g.Complete root) : g.unboundReferences root = [] := by
  unfold unboundReferences
  rw [List.filter_eq_nil_iff]
  intro n hn hunbound
  unfold isUnbound at hunbound
  split at hunbound
  · next name heq =>
    obtain ⟨t, ht⟩ := (h n (reaches_of_mem_walk hn)).2 (by rw [heq]; rfl)
    cases ht with
    | self href =>
      rw [heq] at href
      cases href
    | forward hf =>
      obtain ⟨_, hf⟩ := hf
      rw [heq] at hf
      cases hf
  · cases hunbound

end PegGraph.Grammar
