/-
PegGraph.Proofs.Obstacle — where compression stops.

  §1 Chains    — the node that a chain of references leads to, and why there may
                 be none that it stands for.
  §2 Obstacles — the nodes at which compression stops, and the fault of each.
  §3 Walking   — a walk goes along a chain of references to its end.
  §4 Passing   — a pass goes the way of the walk.
  §5 The first — `compress_first_obstacle`: compression stops at the first
                 obstacle of the walk.

How the main proof goes: the store that is walked is the one before the pass. By
the time the pass comes to a link, it has marked exactly the composites that the
walk has seen by then, and all that the walk has seen stands for something settled
(`Abreast`). So the pass skips a link where the walk finds its target among what
it has seen, and enters it where the target is new. The walk sees the references
of a chain one by one, of which the pass takes no notice; they stand for the same
node, so they are obstacles all together or not at all.
-/
import PegGraph.Proofs.Preorder

namespace PegGraph.Grammar

open Relation (ReflTransGen TransGen)

variable {g g' w : Grammar} {seen ahead order : List NodeId} {root id n l t e u : NodeId}
  {fault : Fault} {task : Task} {r : Except Fault NodeId}

/-! ## §1 Chains -/

/-- References lead from one node to another, each to its target. -/
def Leads (g : Grammar) : NodeId → NodeId → Prop := ReflTransGen g.Forwards

theorem Leads.reaches (h : g.Leads l e) : g.Reaches l e :=
  ReflTransGen.mono (fun _ _ => Forwards.linked) l e h

theorem StandsFor.leads (h : g.StandsFor l t) : g.Leads l t := by
  induction h with
  | self => exact .refl
  | forward hf _ ih => exact .head hf ih

/-- All of a chain stands for the same. -/
theorem Leads.standsFor_iff (h : g.Leads l e) : g.StandsFor l t ↔ g.StandsFor e t := by
  induction h using ReflTransGen.head_induction_on with
  | refl => exact Iff.rfl
  | head hf _ ih => exact (standsFor_forward_iff hf).trans ih

/-- The node that a chain ends in, if it is no reference, is what it stands for. -/
theorem Leads.standsFor (h : g.Leads l t) (href : (g.node t).isReference = false) :
    g.StandsFor l t :=
  h.standsFor_iff.2 (.self href)

/-- A chain that comes to an end does not come back. -/
theorem Leads.acyclic (h : g.Leads l e) (hend : ∀ x, ¬ g.Forwards e x) :
    ¬ TransGen g.Forwards l l := by
  induction h using ReflTransGen.head_induction_on with
  | refl =>
    intro hc
    obtain ⟨_, hf, _⟩ := TransGen.head'_iff.1 hc
    exact hend _ hf
  | head hf _ ih =>
    intro hc
    obtain ⟨b, hb, hrest⟩ := TransGen.head'_iff.1 hc
    cases hf.unique hb
    exact ih (TransGen.tail' hrest hf)

/-- A bound reference links to its target. -/
theorem Forwards.links_eq (h : g.Forwards l e) : g.links l = [e] := by
  obtain ⟨name, hl⟩ := h
  unfold links
  rw [hl]
  rfl

/-- A leaf has no links. -/
theorem links_of_leaf (hc : (g.node n).isComposite = false)
    (href : (g.node n).isReference = false) : g.links n = [] := by
  refine List.eq_nil_iff_forall_not_mem.2 fun l hl => ?_
  rw [Linked.isComposite href hl] at hc
  cases hc

/-- To follow references fails at one without a target, or at one that leads back to
itself. -/
theorem Chases.eq_error {chain : List NodeId} (h : g.Chases chain id (.error fault))
    (hlead : ∀ c ∈ chain, TransGen g.Forwards c id) :
    (∃ e name, g.Leads id e ∧ g.node e = .reference name none ∧
        fault = .unboundReference [Node.labelOf e name]) ∨
      ∃ e labels, g.Leads id e ∧ TransGen g.Forwards e e ∧ fault = .cyclicReference labels := by
  generalize hr : Except.error fault = r at h
  induction h with
  | self => cases hr
  | @unbound _ id name _ hnode =>
    cases hr
    exact .inl ⟨id, name, .refl, hnode, rfl⟩
  | @back _ id hmem _ =>
    cases hr
    exact .inr ⟨id, _, .refl, hlead id hmem, rfl⟩
  | forward _ hf _ ih =>
    have hlead' := List.forall_mem_cons.2 ⟨.single hf, fun c hc => (hlead c hc).tail hf⟩
    rcases ih hlead' hr with ⟨e, name, hl, he⟩ | ⟨e, labels, hl, he⟩
    · exact .inl ⟨e, name, .head hf hl, he⟩
    · exact .inr ⟨e, labels, .head hf hl, he⟩

/-- **A reference stands for nothing** because its chain ends in one without a
target, or because it runs into a ring. -/
theorem resolve_eq_error (h : g.resolve id = .error fault) :
    (∃ e name, g.Leads id e ∧ g.node e = .reference name none ∧
        fault = .unboundReference [Node.labelOf e name]) ∨
      ∃ e labels, g.Leads id e ∧ TransGen g.Forwards e e ∧ fault = .cyclicReference labels :=
  (h ▸ resolve_chases g id).eq_error nofun

/-! ## §2 Obstacles -/

/-- The fault with which compression stops at a node, if it does: an abstract
node cannot be compressed, and a reference has to stand for a node. -/
def obstacle? (g : Grammar) (n : NodeId) : Option Fault :=
  match g.node n with
  | .abstract => some (.abstractOperation .compress)
  | .reference _ _ =>
    match g.resolve n with
    | .ok _ => none
    | .error fault => some fault
  | _ => none

theorem obstacle?_of_abstract (h : g.node n = .abstract) :
    g.obstacle? n = some (.abstractOperation .compress) := by
  unfold obstacle?
  rw [h]

theorem obstacle?_of_resolve_error (h : g.resolve n = .error fault) :
    g.obstacle? n = some fault := by
  unfold obstacle?
  cases hn : g.node n with
  | reference => simp only [h]
  | _ =>
    have href : (g.node n).isReference = false := by rw [hn]; rfl
    rw [resolve_of_not_reference href] at h
    cases h

/-- The fault of a reference that is an obstacle is that of its resolution. -/
theorem resolve_of_obstacle? (h : g.obstacle? n = some fault) (ha : g.node n ≠ .abstract) :
    g.resolve n = .error fault := by
  unfold obstacle? at h
  split at h
  · next hn => exact absurd hn ha
  · split at h
    · cases h
    · next hres =>
      cases h
      exact hres
  · cases h

/-- Compression passes the nodes that are concrete and stand for something. -/
theorem obstacle?_eq_none_iff :
    g.obstacle? n = none ↔ g.node n ≠ .abstract ∧ ∃ t, g.StandsFor n t := by
  constructor
  · intro h
    refine ⟨fun ha => ?_, ?_⟩
    · rw [obstacle?_of_abstract ha] at h
      cases h
    · cases hres : g.resolve n with
      | ok t => exact ⟨t, resolve_eq_ok_iff.1 hres⟩
      | error fault =>
        rw [obstacle?_of_resolve_error hres] at h
        cases h
  · rintro ⟨ha, t, hs⟩
    cases ho : g.obstacle? n with
    | none => rfl
    | some fault =>
      have hres := resolve_of_obstacle? ho ha
      rw [resolve_eq_ok_iff.2 hs] at hres
      cases hres

/-- A concrete node is no obstacle. -/
theorem Settled.obstacle? (h : g.Settled n) : g.obstacle? n = none :=
  obstacle?_eq_none_iff.2 ⟨h.not_abstract, n, .self h.not_reference⟩

theorem SameShape.obstacle? (h : SameShape g g') : g'.obstacle? = g.obstacle? := by
  funext n
  cases ho : g.obstacle? n with
  | none =>
    obtain ⟨ha, t, hs⟩ := obstacle?_eq_none_iff.1 ho
    exact obstacle?_eq_none_iff.2 ⟨fun h' => ha (h.abstract_iff.1 h'), t, h.standsFor_iff.2 hs⟩
  | some fault =>
    by_cases ha : g.node n = .abstract
    · rw [obstacle?_of_abstract ha] at ho
      rw [obstacle?_of_abstract (h.abstract_iff.2 ha), ho]
    · refine obstacle?_of_resolve_error ?_
      rw [h.resolve, resolve_of_obstacle? ho ha]

theorem isUnbound_iff : g.isUnbound n = true ↔ ∃ name, g.node n = .reference name none := by
  unfold isUnbound
  split
  · next name hn => exact ⟨fun _ => ⟨name, hn⟩, fun _ => rfl⟩
  · next hn => exact ⟨nofun, fun ⟨name, h⟩ => absurd h (hn name)⟩

/-- What leads to a reference without a target is an obstacle. -/
theorem Leads.obstacle?_ne_none (h : g.Leads n e) (hb : g.isUnbound e = true) :
    g.obstacle? n ≠ none := by
  obtain ⟨name, he⟩ := isUnbound_iff.1 hb
  intro hnone
  obtain ⟨_, t, hs⟩ := obstacle?_eq_none_iff.1 hnone
  cases h.standsFor_iff.1 hs with
  | self href =>
    rw [he] at href
    cases href
  | forward hf => exact not_forwards_of_unbound he _ hf

/-! ## §3 Walking -/

namespace Visits

/-- A walk that has a chain of references ahead sees all of it, or comes to a
part that it has seen. It has seen nothing that leads into the chain, unless by
the way that it has come or where the end was seen as well. -/
theorem leads (hv : g.Visits seen (l :: ahead) order) (hl : g.Leads l e)
    (hend : ∀ x, ¬ g.Forwards e x)
    (hseen : ∀ n ∈ seen, g.Leads n e → e ∈ seen ∨ TransGen g.Forwards n l) :
    ∃ chain order', order = chain ++ order' ∧ (∀ n ∈ chain, g.Leads n e ∧ ∃ x, g.Forwards n x) ∧
      g.Visits (chain.reverse ++ seen) (e :: ahead) order' := by
  induction hl using ReflTransGen.head_induction_on generalizing seen order with
  | refl => exact ⟨[], order, rfl, nofun, hv⟩
  | @head l m hf hrest ih =>
    have hlead : g.Leads l e := .head hf hrest
    cases hv with
    | skip hid hr =>
      rcases hseen l hid hlead with he | hring
      · exact ⟨[], order, rfl, nofun, .skip he hr⟩
      · exact absurd hring (hlead.acyclic hend)
    | @visit _ _ _ order hid hr =>
      rw [hf.links_eq, List.singleton_append] at hr
      obtain ⟨chain, order', rfl, hchain, hrest⟩ := ih hr fun n hn hne => by
        rcases List.mem_cons.1 hn with rfl | hn
        · exact .inr (.single hf)
        · exact (hseen n hn hne).imp (List.mem_cons_of_mem l) fun hnl => hnl.tail hf
      refine ⟨l :: chain, order', rfl, fun n hn => ?_, by simpa using hrest⟩
      rcases List.mem_cons.1 hn with rfl | hn
      · exact ⟨hlead, m, hf⟩
      · exact hchain n hn

/-- A walk that visits a node next has it ahead, behind nodes that it has
seen. -/
theorem head (hv : g.Visits seen ahead (n :: order)) :
    ∃ ahead', g.Visits seen (n :: ahead') (n :: order) := by
  generalize hall : n :: order = all at hv
  induction hv with
  | done => cases hall
  | skip _ _ ih => exact ih hall
  | visit hid hr =>
    cases hall
    exact ⟨_, .visit hid hr⟩

/-- A walk may be looked at when it has visited some nodes. -/
theorem drop {before : List NodeId} (hv : g.Visits seen ahead (before ++ order)) :
    ∃ ahead', g.Visits (before.reverse ++ seen) ahead' order := by
  induction before generalizing seen ahead with
  | nil => exact ⟨ahead, hv⟩
  | cons n before ih =>
    obtain ⟨_, hn⟩ := hv.head
    cases hn with
    | skip hid hr => exact absurd hid (hr.nodup.2 n List.mem_cons_self)
    | visit _ hr =>
      obtain ⟨ahead', hrest⟩ := ih hr
      exact ⟨ahead', by simpa using hrest⟩

end Visits

/-! ## §4 Passing -/

/-- A pass and a walk are at the same place, the pass in `g`, the walk in the store
`w` from before the pass: what the walk has seen is done, and the rest has not
been touched. -/
structure Abreast (w g : Grammar) (seen : List NodeId) : Prop extends SameShape w g where
  done : ∀ n ∈ seen, ∃ t ∈ seen, w.StandsFor n t ∧ g.Settled t
  rest : ∀ n, n ∉ seen → g.node n = w.node n

theorem Settled.mark (hs : g.Settled n) (ho : g.isOpen t = true) : (g.mark t true).Settled n := by
  refine hs.congr (mark_sameShape ..) ?_
  by_cases heq : n = t
  · rw [heq, isOpen_mark_self ho]
  · rw [isOpen_mark_of_ne heq, hs.not_open]

namespace Abreast

/-- The walk has seen nodes that stand for a settled one. -/
theorem extend (ha : Abreast w g seen) {new : List NodeId} (hnew : ∀ n ∈ new, w.StandsFor n t)
    (ht : t ∈ new ++ seen) (hset : g.Settled t) : Abreast w g (new ++ seen) where
  toSameShape := ha.toSameShape
  done n hn := by
    rcases List.mem_append.1 hn with hn | hn
    · exact ⟨t, ht, hnew n hn, hset⟩
    · obtain ⟨t, ht, hdone⟩ := ha.done n hn
      exact ⟨t, List.mem_append_right new ht, hdone⟩
  rest n hn := ha.rest n fun hin => hn (List.mem_append_right new hin)

/-- The pass has marked the node that the walk has just seen. -/
theorem mark (ha : Abreast w g seen) {new : List NodeId} (hnew : ∀ n ∈ new, w.StandsFor n t)
    (ht : t ∈ new) (ho : g.isOpen t = true) : Abreast w (g.mark t true) (new ++ seen) where
  toSameShape := ha.toSameShape.trans (mark_sameShape ..)
  done n hn := by
    rcases List.mem_append.1 hn with hn | hn
    · exact ⟨t, List.mem_append_left seen ht, hnew n hn, settled_mark ho⟩
    · obtain ⟨t, ht, hs, hset⟩ := ha.done n hn
      exact ⟨t, List.mem_append_right new ht, hs, hset.mark ho⟩
  rest n hn := by
    have hne : n ≠ t := by
      rintro rfl
      exact hn (List.mem_append_left seen ht)
    rw [node_mark, if_neg hne]
    exact ha.rest n fun hin => hn (List.mem_append_right new hin)

/-- The pass replaces a link of a node that the walk has seen. -/
theorem relink (ha : Abreast w g seen) (hid : id ∈ seen) (index : Nat) (link : NodeId) :
    Abreast w (g.relink id index link) seen where
  toSameShape := ha.toSameShape.trans (relink_sameShape ..)
  done n hn := by
    obtain ⟨t, ht, hs, hset⟩ := ha.done n hn
    exact ⟨t, ht, hs, hset.relink⟩
  rest n hn := by
    have hne : n ≠ id := by
      rintro rfl
      exact hn hid
    rw [node_relink, if_neg hne]
    exact ha.rest n hn

/-- From a link the walk comes to what the link stands for, and sees nothing on
its way but references that stand for the same. -/
theorem visits_target (ha : Abreast w g seen) (hs : w.StandsFor l t)
    (hv : w.Visits seen (l :: ahead) order) :
    ∃ chain order', order = chain ++ order' ∧
      (∀ n ∈ chain, w.StandsFor n t ∧ n ≠ t ∧ w.obstacle? n = none) ∧
      w.Visits (chain.reverse ++ seen) (t :: ahead) order' := by
  have hend := not_forwards_of_not_reference hs.not_reference
  obtain ⟨chain, order', horder, hchain, hrest⟩ := hv.leads hs.leads hend fun n hn hne => by
    obtain ⟨u, hu, hsu, _⟩ := ha.done n hn
    exact .inl (hsu.unique (hne.standsFor hs.not_reference) ▸ hu)
  refine ⟨chain, order', horder, fun n hn => ?_, hrest⟩
  obtain ⟨hlead, x, hx⟩ := hchain n hn
  have hst := hlead.standsFor hs.not_reference
  refine ⟨hst, ?_, obstacle?_eq_none_iff.2 ⟨fun hna => ?_, t, hst⟩⟩
  · rintro rfl
    exact hend x hx
  · have href := hx.isReference
    rw [hna] at href
    cases href

/-- A composite that the pass enters is new to the walk, which visits it and has
its links ahead. -/
theorem visits_open (ha : Abreast w g seen) (hs : g.StandsFor l t) (ho : g.isOpen t = true)
    (hv : w.Visits seen (l :: ahead) order) :
    ∃ new order', order = new ++ order' ∧ (∀ n ∈ new, w.obstacle? n = none) ∧
      t ∈ new ∧ Abreast w (g.mark t true) (new.reverse ++ seen) ∧
      w.Visits (new.reverse ++ seen) ((g.mark t true).entries (.links t 0) ++ ahead) order' := by
  have hsw := ha.standsFor_iff.1 hs
  obtain ⟨chain, order', rfl, hchain, hrest⟩ := ha.visits_target hsw hv
  have hnew : t ∉ chain.reverse ++ seen := by
    intro hin
    rcases List.mem_append.1 hin with hin | hin
    · exact (hchain t (List.mem_reverse.1 hin)).2.1 rfl
    · obtain ⟨u, _, hsu, hset⟩ := ha.done t hin
      cases (standsFor_self_iff hsw.not_reference).1 hsu
      rw [hset.not_open] at ho
      cases ho
  have hlinks : w.links t = (g.mark t true).entries (.links t 0) := by
    have hsame := ha.rest t fun hin => hnew (List.mem_append_right _ hin)
    rw [entries, links_mark, List.drop_zero, links_congr hsame]
  cases hrest with
  | skip hin => exact absurd hin hnew
  | @visit _ _ _ order' _ hr =>
    rw [hlinks] at hr
    have hall : ∀ n ∈ chain ++ [t], w.StandsFor n t ∧ w.obstacle? n = none := by
      intro n hn
      rcases List.mem_append.1 hn with hn | hn
      · exact ⟨(hchain n hn).1, (hchain n hn).2.2⟩
      · cases List.mem_singleton.1 hn
        refine ⟨.self hsw.not_reference, ?_⟩
        have hset := (settled_mark ho).obstacle?
        rwa [(ha.toSameShape.trans (mark_sameShape g t true)).obstacle?] at hset
    refine ⟨chain ++ [t], order', by simp, fun n hn => (hall n hn).2, by simp, ?_,
      by simpa using hr⟩
    exact ha.mark (fun n hn => (hall n (List.mem_reverse.1 hn)).1) (by simp) ho

/-- The walk passes by what the pass skips: it has seen it, or finds no links. -/
theorem visits_skipped (ha : Abreast w g seen) (hs : g.StandsFor l t) (hset : g.Settled t)
    (hv : w.Visits seen (l :: ahead) order) (hplain : ∀ n ∈ order, (w.node n).compressed = false) :
    ∃ new order', order = new ++ order' ∧ (∀ n ∈ new, w.obstacle? n = none) ∧
      Abreast w g (new.reverse ++ seen) ∧ w.Visits (new.reverse ++ seen) ahead order' := by
  have hsw := ha.standsFor_iff.1 hs
  obtain ⟨chain, order', rfl, hchain, hrest⟩ := ha.visits_target hsw hv
  cases hrest with
  | skip hin hr =>
    refine ⟨chain, order', rfl, fun n hn => (hchain n hn).2.2, ?_, hr⟩
    exact ha.extend (fun n hn => (hchain n (List.mem_reverse.1 hn)).1) hin hset
  | @visit _ _ _ order' hnew hr =>
    -- A composite that is new to the walk would be open to the pass.
    have hleaf : w.links t = [] := by
      have hsame := ha.rest t fun hin => hnew (List.mem_append_right _ hin)
      have hunmarked := hplain t (List.mem_append_right _ List.mem_cons_self)
      refine links_of_leaf ?_ hsw.not_reference
      rw [← hsame] at hunmarked ⊢
      by_contra hc
      rw [isOpen_eq_false_iff.1 hset.not_open (by simpa using hc)] at hunmarked
      cases hunmarked
    rw [hleaf, List.nil_append] at hr
    have hall : ∀ n ∈ chain ++ [t], w.StandsFor n t ∧ w.obstacle? n = none := by
      intro n hn
      rcases List.mem_append.1 hn with hn | hn
      · exact ⟨(hchain n hn).1, (hchain n hn).2.2⟩
      · cases List.mem_singleton.1 hn
        exact ⟨.self hsw.not_reference, ha.obstacle? ▸ hset.obstacle?⟩
    refine ⟨chain ++ [t], order', by simp, fun n hn => (hall n hn).2, ?_, by simpa using hr⟩
    exact ha.extend (fun n hn => (hall n (List.mem_reverse.1 hn)).1) (by simp) hset

end Abreast

/-- **A pass that comes to an end** goes the way of the walk, and there is no
obstacle on it. -/
theorem Pass.visits (hp : Pass task g r g') (hok : r = .ok u) (hr : g.Ready task)
    (ha : Abreast w g seen) (howner : ∀ id, task.owner = some id → id ∈ seen)
    (hv : w.Visits seen (g.entries task ++ ahead) order)
    (hplain : ∀ n ∈ order, (w.node n).compressed = false) :
    ∃ new order', order = new ++ order' ∧ (∀ n ∈ new, w.obstacle? n = none) ∧
      Abreast w g' (new.reverse ++ seen) ∧ w.Visits (new.reverse ++ seen) ahead order' := by
  induction hp generalizing u seen ahead order with
  | unresolved | abstract | abandon | stop => cases hok
  | skip hs hna ho => exact ha.visits_skipped hs ⟨hna, hs.not_reference, ho⟩ hv hplain
  | @enter g g' id t hs ho hl ih =>
    obtain ⟨first, order₁, rfl, hfirst, ht, hmark, hbelow⟩ := ha.visits_open hs ho hv
    obtain ⟨new, order', rfl, hnew, hafter, hrest⟩ := ih rfl (ready_mark ho) hmark
      (fun id hid => by cases hid; simp [ht]) hbelow fun n hn =>
        hplain n (List.mem_append_right _ hn)
    refine ⟨first ++ new, order', by simp, fun n hn => ?_, by simpa using hafter,
      by simpa using hrest⟩
    exact (List.mem_append.1 hn).elim (hfirst n) (hnew n)
  | done hi =>
    rw [entries, List.drop_eq_nil_of_le (List.getElem?_eq_none_iff.1 hi), List.nil_append] at hv
    exact ⟨[], order, rfl, List.forall_mem_nil _, ha, hv⟩
  | @next g g₁ g' id index link target result hi hp hnext ihp ihr =>
    rw [entries, drop_eq_cons hi, List.cons_append] at hv
    obtain ⟨first, order₁, rfl, hfirst, hbetween, hv₁⟩ :=
      ihp rfl (ready_node g link) ha (fun _ h => by cases h) hv hplain
    have hid : id ∈ first.reverse ++ seen := List.mem_append_right _ (howner id rfl)
    rw [← hp.entries_next hr] at hv₁
    obtain ⟨new, order', rfl, hnew, hafter, hrest⟩ := ihr hok (hp.ready_next hr)
      (hbetween.relink hid index target) (fun id hid' => by cases hid'; exact hid) hv₁
      fun n hn => hplain n (List.mem_append_right _ hn)
    refine ⟨first ++ new, order', by simp, fun n hn => ?_, by simpa using hafter,
      by simpa using hrest⟩
    exact (List.mem_append.1 hn).elim (hfirst n) (hnew n)

/-- Nodes that are no obstacles may stand before those that are looked at. -/
theorem findSome?_obstacle?_append {new rest : List NodeId}
    (hnew : ∀ n ∈ new, g.obstacle? n = none) :
    (new ++ rest).findSome? g.obstacle? = rest.findSome? g.obstacle? := by
  rw [List.findSome?_append, List.findSome?_eq_none_iff.2 hnew, Option.none_or]

/-- **A pass that stops with a fault** stops at the first obstacle that the walk
comes to. -/
theorem Pass.first_obstacle (hp : Pass task g r g') (hf : r = .error fault) (hr : g.Ready task)
    (ha : Abreast w g seen) (howner : ∀ id, task.owner = some id → id ∈ seen)
    (hv : w.Visits seen (g.entries task ++ ahead) order)
    (hplain : ∀ n ∈ order, (w.node n).compressed = false) :
    order.findSome? w.obstacle? = some fault := by
  induction hp generalizing seen ahead order with
  | skip | enter | done => cases hf
  | @unresolved g id _ hres =>
    cases hf
    rw [ha.resolve] at hres
    cases hv with
    | skip hin =>
      obtain ⟨t, _, hs, _⟩ := ha.done id hin
      rw [resolve_eq_ok_iff.2 hs] at hres
      cases hres
    | visit => rw [List.findSome?_cons, obstacle?_of_resolve_error hres]
  | @abstract g id t hs hna =>
    cases hf
    rw [ha.abstract_iff] at hna
    obtain ⟨chain, order', rfl, hchain, hrest⟩ := ha.visits_target (ha.standsFor_iff.1 hs) hv
    rw [findSome?_obstacle?_append fun n hn => (hchain n hn).2.2]
    cases hrest with
    | skip hin =>
      rcases List.mem_append.1 hin with hin | hin
      · exact absurd rfl (hchain t (List.mem_reverse.1 hin)).2.1
      · obtain ⟨u, _, hsu, hset⟩ := ha.done t hin
        cases (standsFor_self_iff hs.not_reference).1 (ha.standsFor_iff.2 hsu)
        exact absurd (ha.abstract_iff.2 hna) hset.not_abstract
    | visit => rw [List.findSome?_cons, obstacle?_of_abstract hna]
  | @abandon g g' id t _ hs ho hl ih =>
    obtain ⟨first, order₁, rfl, hfirst, ht, hmark, hbelow⟩ := ha.visits_open hs ho hv
    rw [findSome?_obstacle?_append hfirst]
    exact ih hf (ready_mark ho) hmark (fun id hid => by cases hid; simp [ht]) hbelow
      fun n hn => hplain n (List.mem_append_right _ hn)
  | @stop g g' id index link _ hi hp ih =>
    rw [entries, drop_eq_cons hi, List.cons_append] at hv
    exact ih hf (ready_node g link) ha (fun _ h => by cases h) hv hplain
  | @next g g₁ g' id index link target _ hi hp hnext _ ihr =>
    rw [entries, drop_eq_cons hi, List.cons_append] at hv
    obtain ⟨first, order₁, rfl, hfirst, hbetween, hv₁⟩ :=
      hp.visits rfl (ready_node g link) ha (fun _ h => by cases h) hv hplain
    have hid : id ∈ first.reverse ++ seen := List.mem_append_right _ (howner id rfl)
    rw [← hp.entries_next hr] at hv₁
    rw [findSome?_obstacle?_append hfirst]
    exact ihr hf (hp.ready_next hr) (hbetween.relink hid index target)
      (fun id hid' => by cases hid'; exact hid) hv₁
      fun n hn => hplain n (List.mem_append_right _ hn)

/-! ## §5 The first -/

/-- Before a pass from a root without marks, nothing has been seen. -/
theorem abreast_nil (w : Grammar) : Abreast w w [] := ⟨.refl w, nofun, fun _ _ => rfl⟩

/-- Compression ends without a fault where the walk meets no obstacle, and with
the fault of the first one otherwise. -/
theorem compress_eq_findSome? (hu : g.Fresh root) (h : g.compress root = (r, g')) :
    (g.walk root).findSome? g.obstacle? =
      match r with
      | .ok _ => none
      | .error fault => some fault := by
  have hp := pass_iff_compress.2 h
  have hplain : ∀ n ∈ g.walk root, (g.node n).compressed = false := fun n hn =>
    hu n (mem_walk_iff.1 hn)
  have hv : g.Visits [] (g.entries (.node root) ++ []) (g.walk root) := walk_visits g root
  cases r with
  | ok u =>
    obtain ⟨new, order', horder, hnew, _, hrest⟩ :=
      hp.visits rfl (ready_node g root) (abreast_nil g) nofun hv hplain
    cases hrest
    rw [horder, findSome?_obstacle?_append hnew]
    rfl
  | error fault =>
    exact hp.first_obstacle rfl (ready_node g root) (abreast_nil g) nofun hv hplain

/-- No reference that is reached leads back to itself. -/
def RingFree (g : Grammar) (root : NodeId) : Prop :=
  ∀ n, g.Reaches root n → ¬ TransGen g.Forwards n n

/-- The first obstacle of a walk that ends in a reference without a target leads to
the first such reference. -/
theorem unboundReferences_eq_cons {before after : List NodeId} {b : NodeId}
    (hwalk : g.walk root = before ++ b :: after) (hbefore : ∀ n ∈ before, g.obstacle? n = none)
    (hlead : g.Leads b e) (he : g.isUnbound e = true) :
    ∃ rest, g.unboundReferences root = e :: rest := by
  obtain ⟨name, hnode⟩ := isUnbound_iff.1 he
  have hend := not_forwards_of_unbound hnode
  have hv := walk_visits g root
  rw [hwalk] at hv
  obtain ⟨_, hat⟩ := hv.drop
  obtain ⟨ahead, hat⟩ := hat.head
  have hclear : ∀ n ∈ before, ¬ g.Leads n e := fun n hn hne =>
    hne.obstacle?_ne_none he (hbefore n hn)
  obtain ⟨chain, order', horder, hchain, hrest⟩ := hat.leads hlead hend fun n hn hne =>
    absurd hne (hclear n (by simpa using hn))
  have hskip : ∀ n ∈ before ++ chain, g.isUnbound n = false := by
    intro n hn
    cases hun : g.isUnbound n with
    | false => rfl
    | true =>
      rcases List.mem_append.1 hn with hn | hn
      · exact absurd (hbefore n hn) (Leads.obstacle?_ne_none .refl hun)
      · obtain ⟨_, x, hx⟩ := hchain n hn
        obtain ⟨_, hn⟩ := isUnbound_iff.1 hun
        exact absurd hx (not_forwards_of_unbound hn x)
  cases hrest with
  | skip hin =>
    have hin : e ∈ before ++ chain := by
      simp only [List.mem_append, List.mem_reverse, List.append_nil] at hin
      exact List.mem_append.2 hin.symm
    rw [hskip e hin] at he
    cases he
  | @visit _ _ _ order' _ _ =>
    refine ⟨order'.filter g.isUnbound, ?_⟩
    unfold unboundReferences
    rw [hwalk, horder, ← List.append_assoc, List.filter_append,
      List.filter_eq_nil_iff.2 fun n hn => by simp [hskip n hn], List.nil_append,
      List.filter_cons_of_pos he]

/-- Without rings and abstract nodes, the first fault of a walk is that of the
first reference without a target. -/
theorem exists_unbound_of_findSome? (hring : g.RingFree root)
    (hconcrete : ∀ n, g.Reaches root n → g.node n ≠ .abstract)
    (hfind : (g.walk root).findSome? g.obstacle? = some fault) :
    ∃ e, (g.unboundReferences root).head? = some e ∧ fault = .unboundReference [g.label e] := by
  obtain ⟨before, b, after, hwalk, hb, hbefore⟩ := List.findSome?_eq_some_iff.1 hfind
  have hreach : g.Reaches root b := mem_walk_iff.1 (by simp [hwalk])
  rcases resolve_eq_error (resolve_of_obstacle? hb (hconcrete b hreach)) with
    ⟨e, name, hlead, hnode, rfl⟩ | ⟨e, _, hlead, hcycle, _⟩
  · obtain ⟨rest, hrest⟩ :=
      unboundReferences_eq_cons hwalk hbefore hlead (isUnbound_iff.2 ⟨name, hnode⟩)
    refine ⟨e, by rw [hrest]; rfl, ?_⟩
    unfold label
    rw [hnode]
    rfl
  · exact absurd hcycle (hring e (hreach.trans hlead.reaches))

/-- **Compression stops at the first obstacle of the walk**, with the fault of that
node, and comes to an end where there is none. Without rings and abstract nodes,
it stops exactly where the survey finds an unbound reference, and names the first
of these. -/
theorem compress_first_obstacle (hu : g.Fresh root) :
    ((∀ n ∈ g.walk root, g.obstacle? n = none) → ∃ u, (g.compress root).1 = .ok u) ∧
      (∀ before b after fault, g.walk root = before ++ b :: after →
        (∀ n ∈ before, g.obstacle? n = none) → g.obstacle? b = some fault →
        (g.compress root).1 = .error fault) ∧
      (g.RingFree root → (∀ n, g.Reaches root n → g.node n ≠ .abstract) →
        ∀ labels, (g.compress root).1 = .error (.unboundReference labels) ↔
          ∃ b, (g.unboundReferences root).head? = some b ∧ labels = [g.label b]) := by
  cases hc : g.compress root with
  | mk r g' =>
  have hfind := compress_eq_findSome? hu hc
  refine ⟨fun hnone => ?_, fun before b after fault hwalk hbefore hb => ?_,
    fun hring hconcrete labels => ⟨?_, ?_⟩⟩
  · rw [List.findSome?_eq_none_iff.2 hnone] at hfind
    cases r with
    | ok u => exact ⟨u, rfl⟩
    | error => cases hfind
  · rw [hwalk, findSome?_obstacle?_append hbefore, List.findSome?_cons, hb] at hfind
    cases r with
    | ok => cases hfind
    | error => cases hfind; rfl
  · rintro rfl
    obtain ⟨e, hhead, heq⟩ := exists_unbound_of_findSome? hring hconcrete hfind
    cases heq
    exact ⟨e, hhead, rfl⟩
  · rintro ⟨b, hhead, rfl⟩
    cases r with
    | ok u =>
      have hmem := List.mem_filter.1 (List.mem_of_mem_head? hhead)
      exact absurd (List.findSome?_eq_none_iff.1 hfind b hmem.1)
        (Leads.obstacle?_ne_none .refl hmem.2)
    | error fault =>
      obtain ⟨e, hhead', rfl⟩ := exists_unbound_of_findSome? hring hconcrete hfind
      rw [hhead] at hhead'
      cases hhead'
      rfl

/-- A loop through a reference (0). Two references (2, 6) lead to one without a
target (5). -/
def dangling : Grammar :=
  ⟨#[.reference (some "loop") (some 3), .range (.single 'a'), .reference none (some 5),
    .choice 4 2 false, .sequence [1, 0, 6] false, .reference (some "late") none,
    .reference (some "x") (some 5), .reference (some "never") none]⟩

/-- Compression stops at the reference in the sequence, before the walk sees the
one that has no target. -/
theorem compress_first_obstacle_dangling :
    dangling.Fresh 0 ∧ dangling.walk 0 = [0, 3, 4, 1] ++ 6 :: [5, 2] ∧
      (∀ n ∈ [0, 3, 4, 1], dangling.obstacle? n = none) ∧
      dangling.obstacle? 6 = some (.unboundReference [dangling.label 5]) ∧
      (dangling.compress 0).1 = .error (.unboundReference [dangling.label 5]) ∧
      dangling.RingFree 0 ∧ (∀ n, dangling.Reaches 0 n → dangling.node n ≠ .abstract) ∧
      ∃ b, (dangling.unboundReferences 0).head? = some b ∧
        [dangling.label 5] = [dangling.label b] := by
  have hreach : ∀ n, dangling.Reaches 0 n → n ∈ [0, 3, 4, 1, 6, 5, 2] := fun n hr =>
    hr.mem_of_closed (by decide) (by decide)
  have hfresh : dangling.Fresh 0 := by
    intro n hr
    have hall : ∀ m ∈ [0, 3, 4, 1, 6, 5, 2], (dangling.node m).compressed = false := by decide
    exact hall n (hreach n hr)
  have hconcrete : ∀ n, dangling.Reaches 0 n → dangling.node n ≠ .abstract := by
    intro n hr ha
    have hall : ∀ m ∈ [0, 3, 4, 1, 6, 5, 2], (dangling.node m).kind ≠ .abstract := by decide
    exact hall n (hreach n hr) (by rw [ha]; rfl)
  have hring : dangling.RingFree 0 := by
    -- Every reference leads to a node that leads nowhere.
    have hstep : ∀ n ∈ [0, 3, 4, 1, 6, 5, 2], (dangling.node n).isReference = true →
        ∀ x ∈ dangling.links n, (dangling.node x).isReference = false ∨ dangling.links x = [] := by
      decide
    intro n hr hcycle
    obtain ⟨x, hx, hrest⟩ := TransGen.head'_iff.1 hcycle
    have hdead : ∀ y, ¬ dangling.Forwards x y := by
      intro y hy
      rcases hstep n (hreach n hr) hx.isReference x hx.linked with href | hlinks
      · exact not_forwards_of_not_reference href y hy
      · have hl : y ∈ dangling.links x := hy.linked
        rw [hlinks] at hl
        cases hl
    rcases ReflTransGen.cases_head hrest with rfl | ⟨y, hy, _⟩
    · exact hdead x hx
    · exact hdead y hy
  have hwalk : dangling.walk 0 = [0, 3, 4, 1] ++ 6 :: [5, 2] := rfl
  have hbefore : ∀ n ∈ [0, 3, 4, 1], dangling.obstacle? n = none := by decide
  obtain ⟨_, hfirst, hunbound⟩ := compress_first_obstacle hfresh
  have hfault := hfirst _ _ _ _ hwalk hbefore rfl
  exact ⟨hfresh, hwalk, hbefore, rfl, hfault, hring, hconcrete,
    (hunbound hring hconcrete _).1 hfault⟩

end PegGraph.Grammar
