/-
PegGraph.Proofs.Compression — compression of a grammar that was not compressed
before, from its root to the last link.

  §1 Completeness — when a grammar has everything that compression needs.
  §2 Faults       — a fault points at something that is missing.
  §3 Coverage     — without marks at the start, everything that is reached is
                    explored.
  §4 The result   — `compress_fresh`: when compression succeeds, and the
                    whole store that it leaves.

How the main proof goes: by §2 a complete grammar gives no fault. By §3 every
node that is reached stands for one at the end of a path of open composites, and
these are finished when compression ends, so a completed pass has met nothing
that is missing, and has replaced every link that is reached.
-/
import PegGraph.Proofs.Marking

namespace PegGraph.Grammar

variable {g g' g₁ : Grammar} {task : Task} {root u n m : NodeId}

/-! ## §1 Completeness -/

/-- Everything that is reached is there: no abstract node, and no reference that
stands for nothing. -/
def Complete (g : Grammar) (root : NodeId) : Prop :=
  ∀ n, g.Reaches root n →
    g.node n ≠ .abstract ∧ ((g.node n).isReference = true → ∃ t, g.StandsFor n t)

/-- A node at which compression has to stop. -/
def Missing (g : Grammar) (n : NodeId) : Prop :=
  g.node n = .abstract ∨ ¬ ∃ t, g.StandsFor n t

theorem Complete.not_missing (h : g.Complete root) (hr : g.Reaches root n) : ¬ g.Missing n := by
  rintro (ha | hs)
  · exact (h n hr).1 ha
  · exact hs ((h n hr).2 (isReference_of_no_target hs))

/-! ## §2 Faults -/

/-- A node that stops a pass with a fault: it cannot be compressed, or it stands for
nothing. -/
def Stops (g : Grammar) (n : NodeId) (fault : Fault) : Prop :=
  g.node n = .abstract ∧ fault = .abstractOperation .compress ∨ g.resolve n = .error fault

theorem Stops.missing {fault : Fault} (h : g.Stops n fault) : g.Missing n := by
  rcases h with ⟨ha, -⟩ | hres
  · exact .inl ha
  · exact .inr (resolve_fails_iff.1 ⟨fault, hres⟩)

/-- Splicing brings nothing in that stops a pass. -/
theorem Spliced.stops {fault : Fault} (h : Spliced g g') (hs : g'.Stops n fault) :
    g.Stops n fault := by
  rcases hs with ⟨ha, rfl⟩ | hres
  · exact .inl ⟨h.abstract_iff.1 ha, rfl⟩
  · exact .inr (h.resolve n ▸ hres)

/-- A pass that stops with a fault has reached a node that stops it with this fault,
from where it started. -/
theorem Pass.reaches_stop {r : Except Fault NodeId} {fault : Fault} (h : Pass task g r g')
    (hf : r = .error fault) (hr : g.Ready task) :
    ∃ l ∈ g.entries task, ∃ b, g.Reaches l b ∧ g.Stops b fault := by
  induction h with
  | @unresolved g id _ hres =>
    cases hf
    exact ⟨id, List.mem_singleton_self id, id, .refl, .inr hres⟩
  | @abstract g id target hs ha =>
    cases hf
    exact ⟨id, List.mem_singleton_self id, target, hs.reaches, .inl ⟨ha, rfl⟩⟩
  | skip | enter | done => cases hf
  | @abandon g g' id target _ hs ho hl ih =>
    obtain ⟨l, hmem, b, hlb, hb⟩ := ih hf (ready_mark ho)
    have hspl := mark_spliced g target true
    rw [entries, links_mark, List.drop_zero] at hmem
    have hlink : g.Reaches target l := .single hmem
    exact ⟨id, List.mem_singleton_self id, b, (hs.reaches.trans hlink).trans (hspl.reaches hlb),
      hspl.stops hb⟩
  | @stop g g' id index link _ hi hp ih =>
    obtain ⟨l, hmem, b, hlb, hb⟩ := ih hf (ready_node g link)
    cases List.mem_singleton.1 hmem
    refine ⟨link, ?_, b, hlb, hb⟩
    rw [entries, drop_eq_cons hi]
    exact List.mem_cons_self
  | @next g g₁ g' id index link target _ hi hp hnext _ ihr =>
    obtain ⟨l, hmem, b, hlb, hb⟩ := ihr hf (hp.ready_next hr)
    have hspl := hp.spliced.relink hi hp.standsFor.1
    rw [hp.entries_next hr] at hmem
    refine ⟨l, ?_, b, hspl.reaches hlb, hspl.stops hb⟩
    rw [entries, drop_eq_cons hi]
    exact List.mem_cons_of_mem link hmem

/-- Compression that stops with a fault has reached a node that stops it with this
fault, whatever is marked. -/
theorem compress_reaches_stop {fault : Fault} (h : g.compress root = (.error fault, g')) :
    ∃ b, g.Reaches root b ∧ g.Stops b fault := by
  obtain ⟨l, hl, b, hlb, hb⟩ := (pass_iff_compress.2 h).reaches_stop rfl (ready_node g root)
  cases List.mem_singleton.1 hl
  exact ⟨b, hlb, hb⟩

/-- Compression of a complete grammar succeeds, whatever is marked in it. -/
theorem Complete.compress_succeeds (h : g.Complete root) :
    ∃ u g', g.compress root = (.ok u, g') := by
  cases hc : g.compress root with
  | mk r g' =>
  cases r with
  | ok u => exact ⟨u, g', rfl⟩
  | error fault =>
    obtain ⟨b, hr, hb⟩ := compress_reaches_stop hc
    exact absurd hb.missing (h.not_missing hr)

/-! ## §3 Coverage -/

/-- Nothing that is reached carries a mark. -/
def Fresh (g : Grammar) (root : NodeId) : Prop :=
  ∀ n, g.Reaches root n → (g.node n).compressed = false

/-- A composite on an open path below a fresh root is explored. -/
theorem Fresh.explores (hu : g.Fresh root) (hs : g.StandsFor root u) (hp : g.OpenPath u n)
    (hc : (g.node n).isComposite = true) : g.Explores u n :=
  ⟨hp, isOpen_iff.2 ⟨hc, hu n (hs.reaches.trans hp.reaches)⟩⟩

/-- What a fresh root reaches stands for the end of an open path, if compression
comes to an end. -/
theorem Fresh.openPath (hu : g.Fresh root) (h : g.compress root = (.ok u, g'))
    (hr : g.Reaches root n) : ∃ t, g.StandsFor n t ∧ g.OpenPath u t := by
  have hs := (compress_settled h).1
  induction hr with
  | refl => exact ⟨u, hs, .refl⟩
  | @tail b c _ hl ih =>
    obtain ⟨t, ht, hpath⟩ := ih
    cases href : (g.node b).isReference with
    | true =>
      exact ⟨t, (standsFor_forward_iff (forwards_of_linked href hl)).1 ht, hpath⟩
    | false =>
      cases (standsFor_self_iff href).1 ht
      have hex := hu.explores hs hpath (hl.isComposite href)
      obtain ⟨t, hct, _⟩ := (compress_finished h hex).targets c hl
      exact ⟨t, hct, hpath.tail ⟨hex.2, c, hl, hct⟩⟩

/-- Composites that a fresh root reaches are explored. -/
theorem Fresh.explores_of_reaches (hu : g.Fresh root) (h : g.compress root = (.ok u, g'))
    (hr : g.Reaches root n) (hc : (g.node n).isComposite = true) : g.Explores u n := by
  obtain ⟨t, ht, hpath⟩ := hu.openPath h hr
  cases (standsFor_self_iff (Node.not_reference_of_composite hc)).1 ht
  exact hu.explores (compress_settled h).1 hpath hc

/-- Success below a fresh root means that nothing was missing. -/
theorem Fresh.complete (hu : g.Fresh root) (h : g.compress root = (.ok u, g')) :
    g.Complete root := by
  intro n hr
  obtain ⟨t, ht, hpath⟩ := hu.openPath h hr
  refine ⟨fun ha => ?_, fun _ => ⟨t, ht⟩⟩
  have href : (g.node n).isReference = false := by rw [ha]; rfl
  cases (standsFor_self_iff href).1 ht
  have hshape := (pass_iff_compress.2 h).sameShape
  exact (compress_settles h hpath).not_abstract (hshape.abstract_iff.2 ha)

/-! ## §4 The result -/

/-- The store that a complete compression leaves, and its result. -/
structure Compressed (g g' : Grammar) (root u : NodeId) : Prop where
  /-- The result is what the root stands for. -/
  result : g.resolve root = .ok u
  /-- A root that is no reference is the result itself. -/
  root_eq : (g.node root).isReference = false → u = root
  /-- A composite that is reached is marked, and has its links replaced by their
  targets in their places; its kind and its action stay. -/
  composites : ∀ n, g.Reaches root n → (g.node n).isComposite = true →
    g'.node n = ((g.node n).mapLinks g.target).setCompressed true
  /-- A target is what the link stands for: the link itself, unless that is a
  reference. -/
  targets : ∀ n, g.Reaches root n → ∀ l ∈ g.links n,
    g.resolve l = .ok (g.target l) ∧ ((g.node l).isReference = false → g.target l = l)
  /-- Every composite that is reached is marked. -/
  marked : ∀ n, g.Reaches root n → (g.node n).isComposite = true →
    (g'.node n).compressed = true
  /-- No reference is reached any more. -/
  free : g'.ReferenceFree u
  /-- Nothing else has changed: neither what is not reached, -/
  others : ∀ n, ¬ g.Reaches root n → g'.node n = g.node n
  /-- nor a reference, or a leaf, wherever it is, -/
  leaves : ∀ n, (g.node n).isComposite = false → g'.node n = g.node n
  /-- nor the number of nodes. -/
  size : g'.size = g.size

/-- What is reached from the result afterwards was at the end of an open path
before. -/
theorem Fresh.openPath_of_reaches (hu : g.Fresh root) (h : g.compress root = (.ok u, g'))
    (hr : g'.Reaches u n) : g.OpenPath u n := by
  induction hr with
  | refl => exact .refl
  | @tail b c _ hl ih =>
    have hshape := (pass_iff_compress.2 h).sameShape
    have hc : (g.node b).isComposite = true := by
      rw [← hshape.isComposite]
      exact hl.isComposite (compress_settles h ih).not_reference
    have hex := hu.explores (compress_settled h).1 ih hc
    obtain ⟨l, hlink, hs, _⟩ := (compress_finished h hex).exists_link hc hl
    exact ih.tail ⟨hex.2, l, hlink, hs⟩

theorem Fresh.compressed (hu : g.Fresh root) (h : g.compress root = (.ok u, g')) :
    Compressed g g' root u where
  result := resolve_eq_ok_iff.2 (compress_settled h).1
  root_eq href := (standsFor_self_iff href).1 (compress_settled h).1
  composites n hr hc := (compress_finished h (hu.explores_of_reaches h hr hc)).node_eq
  targets n hr l hl := by
    obtain ⟨t, ht, _⟩ := hu.openPath h (hr.tail hl)
    rw [ht.target_eq]
    exact ⟨resolve_eq_ok_iff.2 ht, fun href => (standsFor_self_iff href).1 ht⟩
  marked n hr hc := by
    have hex := hu.explores_of_reaches h hr hc
    exact (compress_marks_iff h).2 (.inr hex)
  free n hr := (compress_settles h (hu.openPath_of_reaches h hr)).not_reference
  others n hr := by
    refine compress_node_eq h fun hex => hr ?_
    exact (compress_settled h).1.reaches.trans hex.1.reaches
  leaves n hc := (pass_iff_compress.2 h).sameShape.node_eq hc
  size := (pass_iff_compress.2 h).sameShape.size

/-- **Compression of a grammar without marks** ends; it succeeds exactly where
the grammar is complete, and then leaves the store as `Compressed` says. -/
theorem compress_fresh (hu : g.Fresh root) :
    Pass (.node root) g (g.compress root).1 (g.compress root).2 ∧
      ((∃ u g', g.compress root = (.ok u, g')) ↔ g.Complete root) ∧
      ∀ u g', g.compress root = (.ok u, g') → Compressed g g' root u := by
  refine ⟨compress_pass g root, ⟨?_, Complete.compress_succeeds⟩, fun u g' h => hu.compressed h⟩
  rintro ⟨u, g', h⟩
  exact hu.complete h

/-- A loop through a chain of two references, a link that is shared, and a
repetition (5) that nothing reaches. -/
def looped : Grammar :=
  ⟨#[.reference (some "loop") (some 3), .range (.single 'a'), .reference none (some 0),
    .choice 4 1 false, .sequence [1, 2, 1] false, .repetition 0 false]⟩

theorem looped_fresh : looped.Fresh 0 := by
  intro n hr
  have hall : ∀ m ∈ [0, 3, 4, 1, 2], (looped.node m).compressed = false := by decide
  exact hall n (hr.mem_of_closed (by decide) (by decide))

theorem compress_fresh_looped :
    looped.Fresh 0 ∧ looped.Complete 0 ∧ Compressed looped (looped.compress 0).2 0 3 ∧
      (looped.compress 0).2.node 4 = .sequence [1, 3, 1] true ∧
      (looped.compress 0).2.node 5 = .repetition 0 false := by
  have hc : looped.compress 0 = (.ok 3, (looped.compress 0).2) := rfl
  obtain ⟨_, hiff, hdone⟩ := compress_fresh looped_fresh
  exact ⟨looped_fresh, hiff.1 ⟨3, _, hc⟩, hdone 3 _ hc, rfl, rfl⟩

end PegGraph.Grammar
