/-
PegGraph.Proofs.DepthFirst — a walk as the recursion that it stands for.

  §1 Recursion — visiting a node, and then what it links to, by recursion
                 (`visit_eq`).
  §2 Turns     — the loop of a walk, and why it ends.
  §3 The walk  — `walk_depth_first`: the loop visits what is reached, in the order of
                 the recursion.

How the main proof goes: the order of a walk is that of its rules (`Visits`), which keep
everything ahead in one list. By the time the recursion returns from a node, the rules
have come to what was ahead behind that node (`DividesAt`): so the order is divided
there, and the recursion has collected what stands in front. A node that links to
others takes its links from those that are left (`linksLeft_cons`), so a way down along
new nodes is no longer than there are links.
-/
import Mathlib.Algebra.Order.BigOperators.Group.Finset
import Mathlib.Data.Set.Card
import PegGraph.Proofs.Preorder

namespace PegGraph.Grammar

open Relation (ReflTransGen)

variable {g : Grammar} {seen stack ahead order ids after : List NodeId} {root id n : NodeId}
  {depth : Nat}

/-! ## §1 Recursion -/

/-- Visits a node, unless it was visited before: first the node, and then its links from
left to right, down to a given depth. What has been visited is listed with the latest
first. -/
def visitWithin (g : Grammar) : Nat → List NodeId → NodeId → List NodeId
  | 0, seen, _ => seen
  | depth + 1, seen, id =>
    if id ∈ seen then seen else (g.links id).foldl (g.visitWithin depth) (id :: seen)

/-- Visits a node and all that is new below it. No way down is longer than there are
links, so the depth has no part in it (`visit_eq`). -/
def visit (g : Grammar) : List NodeId → NodeId → List NodeId := g.visitWithin (g.linkCount + 1)

/-- The nodes below a root, each before what it links to, and from left to right. -/
def preorder (g : Grammar) (root : NodeId) : List NodeId := (g.visit [] root).reverse

/-- An order in which nodes are visited is divided where the nodes listed are those
seen, and the nodes given are ahead. -/
def DividesAt (g : Grammar) (seen ahead order after : List NodeId) : Prop :=
  ∃ new rest, order = new ++ rest ∧ after = new.reverse ++ seen ∧ g.Visits after ahead rest

/-- The more was seen, the fewer links are left. -/
theorem linksLeft_append_le (new seen : List NodeId) :
    g.linksLeft (new ++ seen) ≤ g.linksLeft seen := by
  refine Finset.sum_le_sum_of_subset fun n hn => ?_
  simp only [Finset.mem_filter, List.mem_append, not_or] at hn ⊢
  exact ⟨hn.1, hn.2.2⟩

/-- Visiting nodes one after another divides the order behind them, if visiting one
node divides it behind that. -/
theorem dividesAt_foldl {visit : List NodeId → NodeId → List NodeId} {bound : Nat}
    (hvisit : ∀ seen id ahead order, g.linksLeft seen < bound →
      g.Visits seen (id :: ahead) order → g.DividesAt seen ahead order (visit seen id))
    (hleft : g.linksLeft seen < bound) (hv : g.Visits seen (ids ++ ahead) order) :
    g.DividesAt seen ahead order (ids.foldl visit seen) := by
  induction ids generalizing seen order with
  | nil => exact ⟨[], order, rfl, rfl, hv⟩
  | cons id ids ih =>
    obtain ⟨first, order', rfl, hfirst, hmid⟩ := hvisit seen id _ order hleft hv
    rw [List.foldl_cons]
    rw [hfirst] at hmid ⊢
    have hleft' : g.linksLeft (first.reverse ++ seen) < bound :=
      Nat.lt_of_le_of_lt (linksLeft_append_le _ _) hleft
    obtain ⟨second, rest, rfl, hsecond, hrest⟩ := ih hleft' hmid
    exact ⟨first ++ second, rest, by simp, by simp [hsecond], hrest⟩

/-- The recursion divides the order behind the node that it visits, if the depth is more
than the links that are left. -/
theorem dividesAt_visitWithin (hleft : g.linksLeft seen < depth)
    (hv : g.Visits seen (id :: ahead) order) :
    g.DividesAt seen ahead order (g.visitWithin depth seen id) := by
  induction depth generalizing seen id ahead order with
  | zero => exact absurd hleft (Nat.not_lt_zero _)
  | succ depth ih =>
    unfold visitWithin
    cases hv with
    | skip hid hr =>
      rw [if_pos hid]
      exact ⟨[], order, rfl, rfl, hr⟩
    | @visit _ _ _ order hid hr =>
      rw [if_neg hid]
      have hbelow : g.DividesAt (id :: seen) ahead order
          ((g.links id).foldl (g.visitWithin depth) (id :: seen)) := by
        cases hlinks : g.links id with
        | nil =>
          rw [hlinks] at hr
          exact ⟨[], order, rfl, rfl, hr⟩
        | cons link links =>
          have hcons := linksLeft_cons (g := g) hid
          rw [hlinks, List.length_cons] at hcons
          rw [hlinks] at hr
          exact dividesAt_foldl (fun _ _ _ _ => ih) (by omega) hr
      obtain ⟨new, rest, rfl, hafter, hrest⟩ := hbelow
      exact ⟨id :: new, rest, rfl, by simp [hafter], hrest⟩

/-- With nothing else ahead, all of the order has been visited. -/
theorem DividesAt.eq (h : g.DividesAt seen [] order after) : after = order.reverse ++ seen := by
  obtain ⟨new, rest, rfl, rfl, hrest⟩ := h
  cases hrest
  simp

/-- Whatever is ahead, a walk visits it in some order. -/
theorem exists_visits (g : Grammar) (seen ahead : List NodeId) :
    ∃ order, g.Visits seen ahead order := by
  obtain ⟨order, hv, -⟩ := walkFrom_visits (g := g) (Nat.le_refl (ahead.length + g.linksLeft seen))
  exact ⟨order, hv⟩

theorem linksLeft_le (g : Grammar) (seen : List NodeId) : g.linksLeft seen ≤ g.linkCount := by
  have h := linksLeft_append_le (g := g) seen []
  rwa [List.append_nil, linksLeft_nil] at h

/-- Depths that are more than the links that are left make no difference. -/
theorem foldl_visitWithin_eq {depth' : Nat} (hleft : g.linksLeft seen < depth)
    (hleft' : g.linksLeft seen < depth') :
    ids.foldl (g.visitWithin depth) seen = ids.foldl (g.visitWithin depth') seen := by
  obtain ⟨order, hv⟩ := exists_visits g seen (ids ++ [])
  have h := dividesAt_foldl (fun _ _ _ _ => dividesAt_visitWithin) hleft hv
  have h' := dividesAt_foldl (fun _ _ _ _ => dividesAt_visitWithin) hleft' hv
  rw [h.eq, h'.eq]

/-- **The recursion** as it stands, without a depth. -/
theorem visit_eq (g : Grammar) (seen : List NodeId) (id : NodeId) :
    g.visit seen id = if id ∈ seen then seen else (g.links id).foldl g.visit (id :: seen) := by
  conv_lhs => unfold visit visitWithin
  by_cases hid : id ∈ seen
  · simp [hid]
  · simp only [hid, if_false]
    cases hlinks : g.links id with
    | nil => rfl
    | cons link links =>
      have hcons := linksLeft_cons (g := g) hid
      rw [hlinks, List.length_cons] at hcons
      have hle := linksLeft_le g seen
      exact foldl_visitWithin_eq (by omega) (by omega)

/-- A walk has the order of the recursion. -/
theorem walk_eq_preorder (g : Grammar) (root : NodeId) : g.walk root = g.preorder root := by
  have hleft : g.linksLeft [] < g.linkCount + 1 := by
    rw [linksLeft_nil]
    exact Nat.lt_succ_self _
  have h := dividesAt_visitWithin hleft (walk_visits g root)
  unfold preorder visit
  rw [h.eq]
  simp

/-! ## §2 Turns -/

/-- One turn of the loop of a walk, from what is on the stack and what was seen, the
latest first. A node that is new puts those of its links on the stack that are new
at that time. -/
inductive Turn (g : Grammar) : List NodeId × List NodeId → List NodeId × List NodeId → Prop where
  | skip {stack seen : List NodeId} {id : NodeId} (h : id ∈ seen) :
    Turn g (id :: stack, seen) (stack, seen)
  | visit {stack seen : List NodeId} {id : NodeId} (h : id ∉ seen) :
    Turn g (id :: stack, seen) ((g.links id).filter (· ∉ id :: seen) ++ stack, id :: seen)

/-- What is on the stack, and the links that are left to be put there. -/
def pending (g : Grammar) (state : List NodeId × List NodeId) : Nat :=
  state.1.length + g.linksLeft state.2

/-- A turn takes a node from the stack, and links from those that are left. -/
theorem Turn.pending_lt {before after : List NodeId × List NodeId} (h : g.Turn before after) :
    g.pending after < g.pending before := by
  cases h with
  | skip => simp [pending]
  | @visit stack seen id hid =>
    have hcons := linksLeft_cons (g := g) hid
    have hfilter := List.length_filter_le (· ∉ id :: seen) (g.links id)
    simp only [pending, List.length_append, List.length_cons]
    omega

/-- The loop cannot go on forever, whatever it starts with. -/
theorem turn_wellFounded (g : Grammar) : WellFounded fun after before => g.Turn before after :=
  Subrelation.wf (fun h => h.pending_lt) (measure g.pending).wf

/-- The loop empties the stack, and what it has seen by then is what `walkFrom` lists. -/
theorem turns_walkFrom {steps : Nat} (h : g.pending (stack, seen) ≤ steps) :
    ReflTransGen g.Turn (stack, seen) ([], (g.walkFrom steps stack seen).reverse) := by
  induction steps generalizing stack seen with
  | zero =>
    have hnil : stack = [] := by
      simp only [pending, Nat.le_zero, Nat.add_eq_zero_iff, List.length_eq_zero_iff] at h
      exact h.1
    simp only [hnil, walkFrom, List.reverse_reverse]
    exact .refl
  | succ steps ih =>
    cases stack with
    | nil =>
      simp only [walkFrom, List.reverse_reverse]
      exact .refl
    | cons id stack =>
      unfold walkFrom
      split
      · next hid =>
        have hturn : g.Turn (id :: stack, seen) (stack, seen) := .skip hid
        have hlt := hturn.pending_lt
        exact .head hturn (ih (by omega))
      · next hid =>
        have hturn : g.Turn (id :: stack, seen)
            ((g.links id).filter (· ∉ id :: seen) ++ stack, id :: seen) := .visit hid
        have hlt := hturn.pending_lt
        exact .head hturn (ih (by omega))

/-- The loop of a walk empties the stack. -/
theorem turns_walk (g : Grammar) (root : NodeId) :
    ReflTransGen g.Turn ([root], []) ([], (g.walk root).reverse) := by
  refine turns_walkFrom ?_
  simp [pending, linksLeft_nil, Nat.add_comm]

/-! ## §3 The walk -/

/-- The nodes that are reached are as many as are counted. -/
theorem encard_reached (g : Grammar) (root : NodeId) :
    {n | g.Reaches root n}.encard = g.count root := by
  have hset : {n | g.Reaches root n} = ((g.walk root).toFinset : Set NodeId) := by
    ext n
    simp [mem_walk_iff]
  rw [hset, Set.encard_coe_eq_coe_finsetCard, List.toFinset_card_of_nodup (nodup_walk g root)]
  rfl

/-- **A walk goes depth first**: its loop ends, with the nodes that are reached from the
root and no others, each of them once, in the order in which the recursion visits
them. So they are as many as are counted. -/
theorem walk_depth_first (g : Grammar) (root : NodeId) :
    (WellFounded fun after before => g.Turn before after) ∧
      ReflTransGen g.Turn ([root], []) ([], (g.walk root).reverse) ∧
      g.walk root = (g.visit [] root).reverse ∧
      (∀ seen id, g.visit seen id =
        if id ∈ seen then seen else (g.links id).foldl g.visit (id :: seen)) ∧
      (g.walk root).Nodup ∧ (∀ n, n ∈ g.walk root ↔ g.Reaches root n) ∧
      {n | g.Reaches root n}.encard = g.count root :=
  ⟨turn_wellFounded g, turns_walk g root, walk_eq_preorder g root, visit_eq g, nodup_walk g root,
    fun _ => mem_walk_iff, encard_reached g root⟩

end PegGraph.Grammar
