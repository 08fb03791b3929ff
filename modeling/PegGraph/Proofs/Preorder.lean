/-
PegGraph.Proofs.Preorder — the order in which a walk visits nodes.

  §1 Rules   — what a walk does with the nodes that it has ahead of it.
  §2 Steps   — the steps of a walk outlast it (`visits_iff_walk`).
  §3 Content — a walk visits what is reached, and every node once.

The rules put all links of a new node ahead. A walk leaves out those that it has
seen by then, and takes some from its stack that it has seen since; neither is
visited by the rules. A node puts its links on the stack once, when it is new, so
there is a step for every link, and one for the root.
-/
import Mathlib.Algebra.BigOperators.Group.Finset.Basic
import PegGraph.Proofs.Walk

namespace PegGraph.Grammar

/-! ## §1 Rules -/

/-- Which nodes a walk visits, and in which order, that has seen some nodes and
has others ahead. -/
inductive Visits (g : Grammar) : List NodeId → List NodeId → List NodeId → Prop where
  /-- Nothing is ahead. -/
  | done {seen} : Visits g seen [] []
  /-- A node that was seen is not visited again. -/
  | skip {seen id ahead order} (h : id ∈ seen) (hr : Visits g seen ahead order) :
    Visits g seen (id :: ahead) order
  /-- A new node is visited, and then its links from left to right, before all
  else that is ahead. -/
  | visit {seen id ahead order} (h : id ∉ seen)
    (hr : Visits g (id :: seen) (g.links id ++ ahead) order) :
    Visits g seen (id :: ahead) (id :: order)

variable {g : Grammar} {seen stack ahead order order' : List NodeId} {root id n l : NodeId}

namespace Visits

/-- The rules leave no choice. -/
theorem unique (h : g.Visits seen ahead order) (h' : g.Visits seen ahead order') :
    order = order' := by
  induction h generalizing order' with
  | done => cases h'; rfl
  | skip hid _ ih =>
    cases h' with
    | skip _ hr => exact ih hr
    | visit hnot => exact absurd hid hnot
  | visit hid _ ih =>
    cases h' with
    | skip hin => exact absurd hin hid
    | visit _ hr => rw [ih hr]

/-- A node that was seen may stand anywhere ahead. -/
theorem insert (h : g.Visits seen (stack ++ ahead) order) (hid : id ∈ seen) :
    g.Visits seen (stack ++ id :: ahead) order := by
  generalize hall : stack ++ ahead = all at h
  induction h generalizing stack with
  | done =>
    obtain ⟨rfl, rfl⟩ := List.append_eq_nil_iff.1 hall
    exact .skip hid .done
  | @skip seen x rest order hx hr ih =>
    cases stack with
    | nil =>
      rw [List.nil_append] at hall
      exact .skip hid (hall.symm ▸ .skip hx hr)
    | cons y stack =>
      cases hall
      exact .skip hx (ih hid rfl)
  | @visit seen x rest order hx hr ih =>
    cases stack with
    | nil =>
      rw [List.nil_append] at hall
      exact .skip hid (hall.symm ▸ .visit hx hr)
    | cons y stack =>
      cases hall
      have hnext := @ih (g.links x ++ stack) (List.mem_cons_of_mem _ hid) (List.append_assoc ..)
      exact .visit hx (List.append_assoc .. ▸ hnext)

/-- Nodes that were seen may be left out of what is ahead. -/
theorem of_filter {links : List NodeId}
    (h : g.Visits seen (links.filter (· ∉ seen) ++ ahead) order) :
    g.Visits seen (links ++ ahead) order := by
  -- The nodes that were looked at so far stand in front of the others.
  suffices hfront : ∀ front, g.Visits seen (front ++ (links.filter (· ∉ seen) ++ ahead)) order →
      g.Visits seen (front ++ (links ++ ahead)) order from hfront [] h
  clear h
  intro front h
  induction links generalizing front with
  | nil => exact h
  | cons x links ih =>
    by_cases hx : x ∈ seen
    · rw [List.filter_cons_of_neg (by simpa using hx)] at h
      exact (ih front h).insert hx
    · rw [List.filter_cons_of_pos (by simpa using hx)] at h
      have hnext := ih (front ++ [x]) (by simpa using h)
      simpa using hnext

end Visits

/-! ## §2 Steps -/

/-- The links of nodes that were not seen. -/
def linksLeft (g : Grammar) (seen : List NodeId) : Nat :=
  ∑ n ∈ (Finset.range g.size).filter (· ∉ seen), (g.links n).length

/-- A node that is seen no longer has its links left. -/
theorem linksLeft_cons (h : id ∉ seen) :
    g.linksLeft (id :: seen) + (g.links id).length = g.linksLeft seen := by
  unfold linksLeft
  by_cases hlt : id < g.size
  · have herase : (Finset.range g.size).filter (· ∉ id :: seen) =
        ((Finset.range g.size).filter (· ∉ seen)).erase id := by
      ext n
      simp only [Finset.mem_filter, Finset.mem_erase, List.mem_cons, not_or]
      tauto
    have hmem : id ∈ (Finset.range g.size).filter (· ∉ seen) :=
      Finset.mem_filter.2 ⟨Finset.mem_range.2 hlt, h⟩
    rw [herase]
    exact Finset.sum_erase_add _ _ hmem
  · have hsame : (Finset.range g.size).filter (· ∉ id :: seen) =
        (Finset.range g.size).filter (· ∉ seen) := by
      refine Finset.filter_congr fun n hn => ?_
      have hne : n ≠ id := by
        rintro rfl
        exact hlt (Finset.mem_range.1 hn)
      simp [hne]
    have hlinks : g.links id = [] := by
      unfold links
      rw [node_of_size_le (Nat.le_of_not_lt hlt)]
      rfl
    rw [hsame, hlinks, List.length_nil, Nat.add_zero]

/-- At the start all links are left. -/
theorem linksLeft_nil (g : Grammar) : g.linksLeft [] = g.linkCount := by
  have hlist : ∀ nodes : List Node,
      nodes.foldr (fun node count => node.links.length + count) 0 =
        ∑ n ∈ Finset.range nodes.length, ((nodes[n]?).getD .abstract).links.length := by
    intro nodes
    induction nodes with
    | nil => rfl
    | cons node nodes ih =>
      rw [List.foldr_cons, ih, List.length_cons, Finset.sum_range_succ', Nat.add_comm]
      simp
  have hfilter : (Finset.range g.size).filter (· ∉ ([] : List NodeId)) = Finset.range g.size :=
    Finset.filter_true_of_mem fun _ _ => List.not_mem_nil
  unfold linksLeft linkCount
  rw [hfilter, hlist]
  refine Finset.sum_congr rfl fun n _ => ?_
  simp [links, node, Array.getD_eq_getD_getElem?]

/-- Steps for everything on the stack, and for the links that are left, are
enough to visit all there is. -/
theorem walkFrom_visits {steps : Nat} (h : stack.length + g.linksLeft seen ≤ steps) :
    ∃ order, g.Visits seen stack order ∧ g.walkFrom steps stack seen = seen.reverse ++ order := by
  induction steps generalizing stack seen with
  | zero =>
    have hnil : stack = [] := List.eq_nil_of_length_eq_zero (by omega)
    subst hnil
    exact ⟨[], .done, (List.append_nil _).symm⟩
  | succ steps ih =>
    cases stack with
    | nil => exact ⟨[], .done, (List.append_nil _).symm⟩
    | cons id stack =>
      rw [List.length_cons] at h
      unfold walkFrom
      split
      · next hid =>
        have hsteps : stack.length + g.linksLeft seen ≤ steps := by omega
        obtain ⟨order, hv, heq⟩ := ih hsteps
        exact ⟨order, .skip hid hv, heq⟩
      · next hid =>
        have hleft := linksLeft_cons (g := g) hid
        have hfilter := List.length_filter_le (· ∉ id :: seen) (g.links id)
        have hsteps : ((g.links id).filter (· ∉ id :: seen) ++ stack).length +
            g.linksLeft (id :: seen) ≤ steps := by
          rw [List.length_append]
          omega
        obtain ⟨order, hv, heq⟩ := ih hsteps
        refine ⟨id :: order, .visit hid hv.of_filter, ?_⟩
        rw [heq, List.reverse_cons, List.append_assoc]
        rfl

theorem walk_visits (g : Grammar) (root : NodeId) : g.Visits [] [root] (g.walk root) := by
  have hsteps : [root].length + g.linksLeft [] ≤ g.linkCount + 1 := by
    rw [linksLeft_nil, List.length_singleton, Nat.add_comm]
  obtain ⟨order, hv, heq⟩ := walkFrom_visits hsteps
  unfold walk
  rw [heq]
  exact hv

/-- **A walk visits in the order of the rules.** -/
theorem visits_iff_walk : g.Visits [] [root] order ↔ g.walk root = order := by
  constructor
  · intro h
    exact (walk_visits g root).unique h
  · rintro rfl
    exact walk_visits g root

/-! ## §3 Content -/

namespace Visits

/-- No node is visited twice, and none that was seen before. -/
theorem nodup (h : g.Visits seen ahead order) : order.Nodup ∧ ∀ n ∈ order, n ∉ seen := by
  induction h with
  | done => exact ⟨List.nodup_nil, nofun⟩
  | skip _ _ ih => exact ih
  | visit hid _ ih =>
    obtain ⟨hnodup, hnew⟩ := ih
    refine ⟨List.nodup_cons.2 ⟨fun hin => hnew _ hin List.mem_cons_self, hnodup⟩, fun n hn => ?_⟩
    rcases List.mem_cons.1 hn with rfl | hn
    · exact hid
    · exact fun hin => hnew n hn (List.mem_cons_of_mem _ hin)

/-- What is ahead is visited, unless it was seen. -/
theorem ahead_mem (h : g.Visits seen ahead order) (hn : n ∈ ahead) : n ∈ seen ∨ n ∈ order := by
  induction h with
  | done => cases hn
  | skip hid _ ih =>
    rcases List.mem_cons.1 hn with rfl | hn
    · exact .inl hid
    · exact ih hn
  | visit _ _ ih =>
    rcases List.mem_cons.1 hn with rfl | hn
    · exact .inr List.mem_cons_self
    · rcases ih (List.mem_append_right _ hn) with hseen | hin
      · exact (List.mem_cons.1 hseen).elim (fun heq => .inr (heq ▸ List.mem_cons_self)) .inl
      · exact .inr (List.mem_cons_of_mem _ hin)

/-- The links of a visited node are visited, unless they were seen. -/
theorem links_mem (h : g.Visits seen ahead order) (hn : n ∈ order) (hl : g.Linked n l) :
    l ∈ seen ∨ l ∈ order := by
  induction h with
  | done => cases hn
  | skip _ _ ih => exact ih hn
  | @visit seen id ahead order _ hr ih =>
    have hlater : l ∈ id :: seen ∨ l ∈ order := by
      rcases List.mem_cons.1 hn with rfl | hn
      · exact hr.ahead_mem (List.mem_append_left _ hl)
      · exact ih hn
    rcases hlater with hseen | hin
    · exact (List.mem_cons.1 hseen).elim (fun heq => .inr (heq ▸ List.mem_cons_self)) .inl
    · exact .inr (List.mem_cons_of_mem _ hin)

end Visits

theorem nodup_walk (g : Grammar) (root : NodeId) : (g.walk root).Nodup :=
  (walk_visits g root).nodup.1

/-- **A walk visits** exactly the nodes that are reached. -/
theorem mem_walk_iff : n ∈ g.walk root ↔ g.Reaches root n := by
  constructor
  · exact reaches_of_mem_walk
  · intro hr
    have hv := walk_visits g root
    refine hr.mem_of_closed ?_ fun x hx l hl => ?_
    · exact (hv.ahead_mem List.mem_cons_self).resolve_left List.not_mem_nil
    · exact (hv.links_mem hx hl).resolve_left List.not_mem_nil

end PegGraph.Grammar
