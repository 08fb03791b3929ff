/-
PegGraph.Proofs.Roots — compression from several roots, one after another.

  §1 Equality    — stores with the same nodes are the same.
  §2 Contraction — the store in which everything below some roots is compressed.
  §3 One root    — a pass on top of others adds what is below its root.
  §4 All roots   — `compressAll_eq_contract`: results and store in closed form,
                   whatever the order.

How the proof goes: after some roots, a composite is marked exactly if one of
them reaches it. So a pass from another root stops nowhere but at nodes below
which all is done, and what it has still to do lies at the end of a path without
any mark (`openPath_contract`). The store that it leaves is again the one in which
everything below the roots, the new one among them, is compressed; that store
does not depend on the order of the roots.
-/
import PegGraph.Proofs.Contraction

namespace PegGraph

/-- Only composites are changed by new links and marks. -/
theorem Node.mapLinks_setCompressed_of_leaf {n : Node} (h : n.isComposite = false)
    (f : NodeId → NodeId) (mark : Bool) : (n.mapLinks f).setCompressed mark = n := by
  cases n <;> first | rfl | cases h

namespace Grammar

variable {g g' : Grammar} {roots order : List NodeId} {root u n l r : NodeId}

/-! ## §1 Equality -/

/-- A store is its nodes, and how many they are. -/
theorem ext_node (hsize : g'.size = g.size) (hnode : ∀ n, g'.node n = g.node n) : g' = g := by
  have harray : g'.nodes = g.nodes := by
    refine Array.ext hsize fun n h' h => ?_
    have heq := hnode n
    unfold node at heq
    rwa [Array.getD_eq_getD_getElem?, Array.getD_eq_getD_getElem?, Array.getElem?_eq_getElem h',
      Array.getElem?_eq_getElem h] at heq
  cases g
  cases g'
  exact congrArg Grammar.mk harray

/-! ## §2 Contraction -/

/-- What some roots reach between them. -/
def Covers (g : Grammar) (roots : List NodeId) (n : NodeId) : Prop :=
  ∃ r ∈ roots, g.Reaches r n

theorem Covers.tail (h : g.Covers roots n) (hl : g.Linked n l) : g.Covers roots l := by
  obtain ⟨r, hr, hreach⟩ := h
  exact ⟨r, hr, hreach.tail hl⟩

theorem covers_cons : g.Covers (root :: roots) n ↔ g.Reaches root n ∨ g.Covers roots n := by
  unfold Covers
  rw [List.exists_mem_cons_iff]

/-- The store with the composites below some roots marked, and their links
replaced by their targets. -/
def contract (g : Grammar) (roots : List NodeId) : Grammar :=
  ⟨g.nodes.mapIdx fun n node =>
    if ∃ r ∈ roots, n ∈ g.walk r then (node.mapLinks g.target).setCompressed true else node⟩

@[simp] theorem size_contract (g : Grammar) (roots : List NodeId) :
    (g.contract roots).size = g.size := by
  simp [contract, size]

theorem node_contract (g : Grammar) (roots : List NodeId) (n : NodeId) :
    (g.contract roots).node n =
      if ∃ r ∈ roots, n ∈ g.walk r then ((g.node n).mapLinks g.target).setCompressed true
      else g.node n := by
  by_cases hn : n < g.nodes.size
  · simp [contract, node, Array.getD_eq_getD_getElem?, hn]
  · have hout : g.size ≤ n := Nat.le_of_not_lt hn
    rw [node_of_size_le hout, node_of_size_le (by simpa using hout)]
    exact (ite_self _).symm

theorem node_contract_of_covers (h : g.Covers roots n) :
    (g.contract roots).node n = ((g.node n).mapLinks g.target).setCompressed true := by
  obtain ⟨r, hr, hreach⟩ := h
  rw [node_contract, if_pos ⟨r, hr, mem_walk_iff.2 hreach⟩]

theorem node_contract_of_not_covers (h : ¬ g.Covers roots n) :
    (g.contract roots).node n = g.node n := by
  rw [node_contract, if_neg]
  rintro ⟨r, hr, hmem⟩
  exact h ⟨r, hr, mem_walk_iff.1 hmem⟩

theorem node_contract_of_leaf (hc : (g.node n).isComposite = false) :
    (g.contract roots).node n = g.node n := by
  rw [node_contract, Node.mapLinks_setCompressed_of_leaf hc, ite_self]

/-- Without roots there is nothing to do. -/
theorem contract_nil (g : Grammar) : g.contract [] = g :=
  ext_node (size_contract g []) fun _ => node_contract_of_not_covers nofun

/-- The order of the roots does not matter, nor how often one is given. -/
theorem contract_congr {roots' : List NodeId} (h : ∀ r, r ∈ roots' ↔ r ∈ roots) :
    g.contract roots' = g.contract roots := by
  unfold contract
  simp only [h]

theorem substitutes_target (g : Grammar) (l : NodeId) : g.Substitutes l (g.target l) := by
  cases hres : g.resolve l with
  | ok t =>
    have hs := resolve_eq_ok_iff.1 hres
    exact .inr (hs.target_eq ▸ hs)
  | error fault =>
    refine .inl ?_
    unfold target
    rw [hres]

theorem contract_spliced (g : Grammar) (roots : List NodeId) : Spliced g (g.contract roots) where
  size := size_contract g roots
  shape n := by
    rw [node_contract]
    split
    · rw [Node.shape_setCompressed, Node.shape_mapLinks]
    · rfl
  links n := by
    unfold links
    rw [node_contract]
    split
    · cases hc : (g.node n).isComposite with
      | true =>
        rw [Node.links_setCompressed, Node.links_mapLinks hc, List.forall₂_map_right_iff]
        exact List.forall₂_same.2 fun l _ => substitutes_target g l
      | false =>
        rw [Node.mapLinks_setCompressed_of_leaf hc]
        exact forall₂_substitutes g _
    · exact forall₂_substitutes g _

/-! ## §3 One root -/

/-- No node of the store carries a mark. -/
def Unmarked (g : Grammar) : Prop := ∀ n, (g.node n).compressed = false

/-- Splicing leaves a complete grammar complete. -/
theorem Spliced.complete (h : Spliced g g') (hall : g.Complete root) : g'.Complete root := by
  intro n hr
  obtain ⟨ha, ht⟩ := hall n (h.reaches hr)
  refine ⟨fun ha' => ha (h.abstract_iff.1 ha'), fun href => ?_⟩
  rw [h.isReference] at href
  obtain ⟨t, hs⟩ := ht href
  exact ⟨t, h.standsFor_iff.2 hs⟩

/-- What other roots do not cover is found along a path without marks: nothing on
the way to it is covered either. -/
theorem openPath_contract (hu : g.Unmarked) (hall : g.Complete root) (hr : g.Reaches root n)
    (hn : ¬ g.Covers roots n) :
    (g.contract roots).OpenPath (g.target root) (g.target n) := by
  induction hr with
  | refl => exact .refl
  | @tail b c hb hl ih =>
    have hbn : ¬ g.Covers roots b := fun h => hn (h.tail hl)
    cases href : (g.node b).isReference with
    | true =>
      have hf := forwards_of_linked href hl
      rw [← hall.target_eq (hb.tail hl) (.single hf)]
      exact ih hbn
    | false =>
      have hself : g.StandsFor b b := .self href
      have hpath := ih hbn
      rw [hself.target_eq] at hpath
      refine hpath.tail ⟨isOpen_iff.2 ?_, ?_⟩
      · rw [node_contract_of_not_covers hbn]
        exact ⟨hl.isComposite href, hu b⟩
      · exact (contract_spliced g roots).joined_iff.2
          ⟨c, hl, hall.standsFor_target (hb.tail hl)⟩

/-- A pass from one more root explores what that root is the first to reach. -/
theorem explores_contract_iff (hu : g.Unmarked) (hall : g.Complete root) :
    (g.contract roots).Explores (g.target root) n ↔
      (g.node n).isComposite = true ∧ g.Reaches root n ∧ ¬ g.Covers roots n := by
  have hspl := contract_spliced g roots
  have hstart := hall.standsFor_target .refl
  constructor
  · rintro ⟨hpath, hopen⟩
    obtain ⟨hc, hmark⟩ := isOpen_iff.1 hopen
    have hc' : (g.node n).isComposite = true := by rwa [hspl.isComposite] at hc
    refine ⟨hc', hstart.reaches.trans (hspl.reaches hpath.reaches), fun hcov => ?_⟩
    rw [node_contract_of_covers hcov, Node.compressed_setCompressed] at hmark
    · cases hmark
    · rwa [Node.isComposite_congr (Node.shape_mapLinks ..)]
  · rintro ⟨hc, hr, hcov⟩
    have hself : g.StandsFor n n := .self (Node.not_reference_of_composite hc)
    have hpath := openPath_contract hu hall hr hcov
    rw [hself.target_eq] at hpath
    refine ⟨hpath, isOpen_iff.2 ?_⟩
    rw [node_contract_of_not_covers hcov]
    exact ⟨hc, hu n⟩

/-- **A pass after others** succeeds with the node that its root stands for, and
adds what is below that root to what is done. -/
theorem compress_contract (hu : g.Unmarked) (hall : g.Complete root) (roots : List NodeId) :
    (g.contract roots).compress root = (.ok (g.target root), g.contract (root :: roots)) := by
  have hspl := contract_spliced g roots
  obtain ⟨u, k, hk⟩ := (hspl.complete hall).compress_succeeds
  have hshape := (pass_iff_compress.2 hk).sameShape
  have hs : g.StandsFor root u := hspl.standsFor_iff.1 (compress_settled hk).1
  obtain rfl := hs.target_eq
  rw [hk]
  suffices hnode : ∀ n, k.node n = (g.contract (root :: roots)).node n by
    rw [ext_node ((hshape.size.trans (size_contract ..)).trans (size_contract ..).symm) hnode]
  intro n
  by_cases hex : (g.contract roots).Explores (g.target root) n
  · obtain ⟨_, hr, hcov⟩ := (explores_contract_iff hu hall).1 hex
    rw [(compress_finished hk hex).node_eq, node_contract_of_not_covers hcov, hspl.target_eq,
      node_contract_of_covers (covers_cons.2 (.inl hr))]
  · rw [compress_node_eq hk hex]
    cases hc : (g.node n).isComposite with
    | false => rw [node_contract_of_leaf hc, node_contract_of_leaf hc]
    | true =>
      by_cases hcov : g.Covers roots n
      · rw [node_contract_of_covers hcov, node_contract_of_covers (covers_cons.2 (.inr hcov))]
      · have hnot : ¬ g.Covers (root :: roots) n := fun h =>
          (covers_cons.1 h).elim
            (fun hr => hex ((explores_contract_iff hu hall).2 ⟨hc, hr, hcov⟩)) hcov
        rw [node_contract_of_not_covers hcov, node_contract_of_not_covers hnot]

/-! ## §4 All roots -/

/-- Compresses from one root after another, each time in the store as the pass
before has left it. -/
def compressAll : List NodeId → Grammar → List (Except Fault NodeId) × Grammar
  | [], g => ([], g)
  | root :: rest, g =>
    let (result, g) := g.compress root
    let (results, g) := compressAll rest g
    (result :: results, g)

theorem compressAll_contract (hu : g.Unmarked) (hall : ∀ r ∈ order, g.Complete r)
    (roots : List NodeId) :
    compressAll order (g.contract roots) =
      (order.map fun r => .ok (g.target r), g.contract (order ++ roots)) := by
  induction order generalizing roots with
  | nil => rfl
  | cons root rest ih =>
    have hswap : g.contract (rest ++ root :: roots) = g.contract (root :: rest ++ roots) :=
      contract_congr fun r => by simp [or_left_comm]
    rw [compressAll, compress_contract hu (hall root List.mem_cons_self)]
    simp only [ih (fun r hr => hall r (List.mem_cons_of_mem root hr)), List.map_cons, hswap]

theorem Settled.compress_eq (h : g.Settled n) : g.compress n = (.ok n, g) :=
  pass_iff_compress.1 (.skip (.self h.not_reference) h.not_abstract h.not_open)

/-- Below a root that was compressed everything is settled. -/
theorem settled_contract (hall : g.Complete root) (hmem : root ∈ roots)
    (hr : (g.contract roots).Reaches (g.target root) n) : (g.contract roots).Settled n := by
  have hspl := contract_spliced g roots
  have hstart := hall.standsFor_target .refl
  have hreach : ∀ {x}, (g.contract roots).Reaches (g.target root) x → g.Reaches root x :=
    fun hx => hstart.reaches.trans (hspl.reaches hx)
  have href : (g.node n).isReference = false := by
    induction hr with
    | refl => exact hstart.not_reference
    | @tail b c hb hl ih =>
      have hc : (g.node b).isComposite = true := by
        rw [← hspl.isComposite]
        exact hl.isComposite (by rwa [hspl.isReference])
      have hcov : g.Covers roots b := ⟨root, hmem, hreach hb⟩
      unfold Linked links at hl
      rw [node_contract_of_covers hcov, Node.links_setCompressed, Node.links_mapLinks hc] at hl
      obtain ⟨l, hlink, rfl⟩ := List.mem_map.1 hl
      exact (hall.standsFor_target ((hreach hb).tail hlink)).not_reference
  refine ⟨fun ha => (hall n (hreach hr)).1 (hspl.abstract_iff.1 ha), ?_, ?_⟩
  · rwa [hspl.isReference]
  · refine isOpen_eq_false_iff.2 fun hc => ?_
    rw [node_contract_of_covers ⟨root, hmem, hreach hr⟩] at hc ⊢
    rw [Node.isComposite_congr (Node.shape_setCompressed ..)] at hc
    exact Node.compressed_setCompressed hc true

/-- **Compression does not depend on the order of its roots.** In a store without
marks, let every root be one that compression alone succeeds from. Then it
succeeds from all of them one after another, in any order and with any
repetition, yields the node that each root stands for, and ends in one and the
same store; there, compression from whatever is below these nodes yields it back
and changes nothing. -/
theorem compressAll_eq_contract (hu : g.Unmarked)
    (hroots : ∀ r ∈ roots, ∃ u g', g.compress r = (.ok u, g')) :
    (∀ r ∈ roots, g.resolve r = .ok (g.target r) ∧
        ((g.node r).isReference = false → g.target r = r)) ∧
      (∀ order, (∀ r, r ∈ order ↔ r ∈ roots) →
        compressAll order g = (order.map fun r => .ok (g.target r), g.contract roots)) ∧
      ∀ r ∈ roots, ∀ n, (g.contract roots).Reaches (g.target r) n →
        (g.contract roots).compress n = (.ok n, g.contract roots) := by
  have hall : ∀ r ∈ roots, g.Complete r := fun r hr => by
    obtain ⟨u, g', h⟩ := hroots r hr
    exact Fresh.complete (fun n _ => hu n) h
  refine ⟨fun r hr => ?_, fun order hsame => ?_, fun r hr n hn => ?_⟩
  · have hs := (hall r hr).standsFor_target .refl
    exact ⟨resolve_eq_ok_iff.2 hs, fun href => (standsFor_self_iff href).1 hs⟩
  · have hrun := compressAll_contract hu (fun r hr => hall r ((hsame r).1 hr)) []
    rwa [contract_nil, List.append_nil, contract_congr hsame] at hrun
  · exact (settled_contract (hall r hr) hr hn).compress_eq

/-- Two roots on a common cycle (0, 4), one given twice, and one above it (5). -/
theorem compressAll_eq_contract_looped :
    looped.Unmarked ∧ (∀ r ∈ [0, 4, 5], ∃ u g', looped.compress r = (.ok u, g')) ∧
      compressAll [5, 4, 0, 4] looped =
        ([.ok 5, .ok 4, .ok 3, .ok 4], looped.contract [0, 4, 5]) ∧
      compressAll [0, 4, 5] looped = ([.ok 3, .ok 4, .ok 5], looped.contract [0, 4, 5]) ∧
      (looped.contract [0, 4, 5]).node 5 = .repetition 3 true ∧
      (looped.contract [0, 4, 5]).compress 1 = (.ok 1, looped.contract [0, 4, 5]) := by
  have hu : looped.Unmarked := by
    intro n
    by_cases hn : n < looped.size
    · have hall : ∀ m < 6, (looped.node m).compressed = false := by decide
      exact hall n hn
    · rw [node_of_size_le (Nat.le_of_not_lt hn)]
      rfl
  have hroots : ∀ r ∈ [0, 4, 5], ∃ u g', looped.compress r = (.ok u, g') := by
    intro r hr
    simp only [List.mem_cons, List.not_mem_nil, or_false] at hr
    rcases hr with rfl | rfl | rfl
    · exact ⟨3, _, rfl⟩
    · exact ⟨4, _, rfl⟩
    · exact ⟨5, _, rfl⟩
  obtain ⟨_, horder, hagain⟩ := compressAll_eq_contract hu hroots
  have hlink : (looped.contract [0, 4, 5]).Reaches 4 1 := by
    refine .single ?_
    unfold Linked
    decide
  refine ⟨hu, hroots, ?_, ?_, rfl, hagain 4 (by decide) 1 hlink⟩
  · exact horder [5, 4, 0, 4] fun r => by simp only [List.mem_cons]; tauto
  · exact horder [0, 4, 5] fun r => Iff.rfl

end Grammar

end PegGraph
