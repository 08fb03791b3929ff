/-
PegGraph.Proofs.Shape — what of a node stays when links and marks change.

  §1 Shapes   — a node without its mark and its links, and what can be read
                off a shape.
  §2 Mapping  — all links of a composite replaced at once.
  §3 The store — reading a node after one mark or one link was changed.

A composite is its shape, its links and its mark (`ext_shape`), so whoever
changes links one by one has three lists of equations to keep and no cases.
-/
import PegGraph.Grammar.Compress

namespace PegGraph

namespace Node

/-! ## §1 Shapes -/

/-- A node without its mark, and with zero in place of every link. A reference
keeps its target, which nothing but binding may change. -/
def shape : Node → Node
  | .sequence children _ => .sequence (.replicate children.length 0) false
  | .choice _ _ _ => .choice 0 0 false
  | .repetition _ _ => .repetition 0 false
  | .action _ act _ => .action 0 act false
  | node => node

@[simp] theorem shape_setCompressed (mark : Bool) (n : Node) :
    (n.setCompressed mark).shape = n.shape := by
  cases n <;> rfl

@[simp] theorem shape_setLink (index : Nat) (link : NodeId) (n : Node) :
    (n.setLink index link).shape = n.shape := by
  cases n with
  | sequence children c => simp [setLink, shape]
  | choice a b c =>
    rcases index with _ | _ | index <;> rfl
  | _ => rfl

@[simp] theorem isComposite_shape (n : Node) : n.shape.isComposite = n.isComposite := by
  cases n <;> rfl

@[simp] theorem isReference_shape (n : Node) : n.shape.isReference = n.isReference := by
  cases n <;> rfl

@[simp] theorem label_shape (id : NodeId) (n : Node) : n.shape.label id = n.label id := by
  cases n <;> rfl

/-- A node that is no composite is its own shape. -/
theorem shape_of_not_composite {n : Node} (h : n.isComposite = false) : n.shape = n := by
  cases n <;> first | rfl | cases h

theorem isComposite_congr {n m : Node} (h : n.shape = m.shape) : n.isComposite = m.isComposite := by
  rw [← isComposite_shape n, h, isComposite_shape]

theorem isReference_congr {n m : Node} (h : n.shape = m.shape) : n.isReference = m.isReference := by
  rw [← isReference_shape n, h, isReference_shape]

/-- Only composites have a shape other than themselves, so a node of the shape
of a leaf or a reference is that leaf or reference. -/
theorem eq_of_shape_eq {n m : Node} (h : n.shape = m.shape) (hn : n.isComposite = false) :
    m = n := by
  have hm : m.isComposite = false := by rw [← isComposite_congr h]; exact hn
  rw [← shape_of_not_composite hm, ← h, shape_of_not_composite hn]

/-- A node is its shape, its links and its mark. -/
theorem ext_shape {n m : Node} (hs : n.shape = m.shape) (hl : n.links = m.links)
    (hc : n.compressed = m.compressed) : n = m := by
  cases n <;> cases m <;> simp_all [shape, links, compressed]

/-- Nothing but a composite carries a mark. -/
theorem isComposite_of_compressed {n : Node} (h : n.compressed = true) : n.isComposite = true := by
  cases n <;> first | rfl | cases h

theorem not_reference_of_composite {n : Node} (h : n.isComposite = true) :
    n.isReference = false := by
  cases n <;> first | rfl | cases h

theorem not_composite_of_reference {n : Node} (h : n.isReference = true) :
    n.isComposite = false := by
  cases n <;> first | rfl | cases h

theorem not_abstract_of_composite {n : Node} (h : n.isComposite = true) : n ≠ .abstract := by
  rintro rfl
  cases h

/-! ## §2 Mapping -/

@[simp] theorem links_setCompressed (mark : Bool) (n : Node) :
    (n.setCompressed mark).links = n.links := by
  cases n <;> rfl

@[simp] theorem compressed_setLink (index : Nat) (link : NodeId) (n : Node) :
    (n.setLink index link).compressed = n.compressed := by
  cases n with
  | choice a b c =>
    rcases index with _ | _ | index <;> rfl
  | _ => rfl

theorem compressed_setCompressed {n : Node} (h : n.isComposite = true) (mark : Bool) :
    (n.setCompressed mark).compressed = mark := by
  cases n <;> first | rfl | cases h

theorem links_setLink {n : Node} (h : n.isComposite = true) (index : Nat) (link : NodeId) :
    (n.setLink index link).links = n.links.set index link := by
  cases n with
  | sequence children c => rfl
  | choice a b c =>
    rcases index with _ | _ | index <;> rfl
  | repetition child c => cases index <;> rfl
  | action child act c => cases index <;> rfl
  | _ => cases h

/-- Replaces every link of a composite. References keep their target. -/
def mapLinks (f : NodeId → NodeId) : Node → Node
  | .sequence children compressed => .sequence (children.map f) compressed
  | .choice first second compressed => .choice (f first) (f second) compressed
  | .repetition child compressed => .repetition (f child) compressed
  | .action child act compressed => .action (f child) act compressed
  | node => node

@[simp] theorem shape_mapLinks (f : NodeId → NodeId) (n : Node) :
    (n.mapLinks f).shape = n.shape := by
  cases n <;> simp [mapLinks, shape]

theorem links_mapLinks {n : Node} (h : n.isComposite = true) (f : NodeId → NodeId) :
    (n.mapLinks f).links = n.links.map f := by
  cases n <;> first | rfl | cases h

end Node

/-! ## §3 The store -/

namespace Grammar

@[simp] theorem size_mark (g : Grammar) (id : NodeId) (value : Bool) :
    (g.mark id value).size = g.size := by
  simp [mark]

@[simp] theorem size_relink (g : Grammar) (id : NodeId) (index : Nat) (link : NodeId) :
    (g.relink id index link).size = g.size := by
  simp [relink]

/-- A node after a replacement, also where the replaced number is not in the
store: what stands there for the abstract node must then stay abstract. -/
theorem node_set {g : Grammar} {id : NodeId} {n : Node} (h : g.size ≤ id → n = .abstract)
    (other : NodeId) : (g.set id n).node other = if other = id then n else g.node other := by
  by_cases heq : other = id
  · subst heq
    rw [if_pos rfl]
    by_cases hin : other < g.size
    · exact node_set_self hin n
    · have hout : g.size ≤ other := Nat.le_of_not_lt hin
      rw [node_of_size_le (by simpa using hout), h hout]
  · rw [if_neg heq, node_set_ne heq]

theorem node_mark (g : Grammar) (id : NodeId) (value : Bool) (other : NodeId) :
    (g.mark id value).node other =
      if other = id then (g.node id).setCompressed value else g.node other := by
  refine node_set (fun h => ?_) other
  rw [node_of_size_le h]
  rfl

theorem node_relink (g : Grammar) (id : NodeId) (index : Nat) (link : NodeId) (other : NodeId) :
    (g.relink id index link).node other =
      if other = id then (g.node id).setLink index link else g.node other := by
  refine node_set (fun h => ?_) other
  rw [node_of_size_le h]
  rfl

@[simp] theorem shape_mark (g : Grammar) (id : NodeId) (value : Bool) (other : NodeId) :
    ((g.mark id value).node other).shape = (g.node other).shape := by
  rw [node_mark]
  split
  · next h => rw [h, Node.shape_setCompressed]
  · rfl

@[simp] theorem shape_relink (g : Grammar) (id : NodeId) (index : Nat) (link other : NodeId) :
    ((g.relink id index link).node other).shape = (g.node other).shape := by
  rw [node_relink]
  split
  · next h => rw [h, Node.shape_setLink]
  · rfl

@[simp] theorem links_mark (g : Grammar) (id : NodeId) (value : Bool) (other : NodeId) :
    (g.mark id value).links other = g.links other := by
  unfold links
  rw [node_mark]
  split
  · next h => rw [h, Node.links_setCompressed]
  · rfl

theorem links_relink {g : Grammar} {id : NodeId} (hc : (g.node id).isComposite = true) (index : Nat)
    (link : NodeId) : (g.relink id index link).links id = (g.links id).set index link := by
  unfold links
  rw [node_relink, if_pos rfl, Node.links_setLink hc]

theorem links_relink_of_ne {g : Grammar} {id other : NodeId} (h : other ≠ id) (index : Nat)
    (link : NodeId) : (g.relink id index link).links other = g.links other := by
  unfold links
  rw [node_relink, if_neg h]

/-- Only composites are relinked. -/
theorem relink_of_not_composite {g : Grammar} {id : NodeId} (hc : (g.node id).isComposite = false)
    (index : Nat) (link other : NodeId) :
    (g.relink id index link).node other = g.node other := by
  rw [node_relink]
  split
  · next h =>
    subst h
    cases hn : g.node other <;> first | rfl | (rw [hn] at hc; cases hc)
  · rfl

@[simp] theorem compressed_relink (g : Grammar) (id : NodeId) (index : Nat) (link other : NodeId) :
    ((g.relink id index link).node other).compressed = (g.node other).compressed := by
  rw [node_relink]
  split
  · next h => rw [h, Node.compressed_setLink]
  · rfl

end Grammar

end PegGraph
