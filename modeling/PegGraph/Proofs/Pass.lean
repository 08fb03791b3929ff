/-
PegGraph.Proofs.Pass — compression as a derivation, without a bound on depth.

  §1 Rules       — what a pass over a node, or over the links of one, does.
  §2 Marks       — a pass never takes a mark away that it has found, and
                   leaves marked nodes alone.
  §3 Termination — `compress` is the one derivation from its root
                   (`pass_iff_compress`).

The rules read the link at an index from the store as it is when its turn
comes, and there is no depth in them at which they would stop: a derivation is
a finite run of the recursion. Every store has one. Each level marks a
composite that had no mark, and no pass undoes this for the levels above, so
the number of unmarked composites bounds the depth.
-/
import Mathlib.Data.Finset.Card
import Mathlib.Data.Finset.Range
import PegGraph.Proofs.Chain

namespace PegGraph.Grammar

/-! ## §1 Rules -/

/-- Whether a pass would enter a node: a composite that has no mark. -/
def isOpen (g : Grammar) (id : NodeId) : Bool :=
  (g.node id).isComposite && !(g.node id).compressed

/-- What is left to do: a node, or the links of a node from an index on. -/
inductive Task where
  | node (id : NodeId)
  | links (id : NodeId) (index : Nat)

/-- The node whose links are being replaced. -/
def Task.owner : Task → Option NodeId
  | .node _ => none
  | .links id _ => some id

/-- The derivations of compression. The result of a node is what should stand
in its place, that of its links the node itself. -/
inductive Pass : Task → Grammar → Except Fault NodeId → Grammar → Prop where
  /-- The node stands for nothing. -/
  | unresolved {g id fault} (hr : g.resolve id = .error fault) : Pass (.node id) g (.error fault) g
  /-- The node stands for one that cannot be compressed. -/
  | abstract {g id target} (hs : g.StandsFor id target) (ha : g.node target = .abstract) :
      Pass (.node id) g (.error (.abstractOperation .compress)) g
  /-- Nothing is to be done below a leaf or a marked composite. -/
  | skip {g id target} (hs : g.StandsFor id target) (ha : g.node target ≠ .abstract)
      (ho : g.isOpen target = false) : Pass (.node id) g (.ok target) g
  /-- An unmarked composite is marked, and its links are compressed. -/
  | enter {g g' id target} (hs : g.StandsFor id target) (ho : g.isOpen target = true)
      (hl : Pass (.links target 0) (g.mark target true) (.ok target) g') :
      Pass (.node id) g (.ok target) g'
  /-- A fault below takes the mark away again. -/
  | abandon {g g' id target fault} (hs : g.StandsFor id target) (ho : g.isOpen target = true)
      (hl : Pass (.links target 0) (g.mark target true) (.error fault) g') :
      Pass (.node id) g (.error fault) (g'.mark target false)
  /-- There is no further link. -/
  | done {g id index} (hi : (g.links id)[index]? = none) : Pass (.links id index) g (.ok id) g
  /-- A fault of a link ends the pass over the links. -/
  | stop {g g' id index link fault} (hi : (g.links id)[index]? = some link)
      (hp : Pass (.node link) g (.error fault) g') : Pass (.links id index) g (.error fault) g'
  /-- A link is replaced, and the next one is looked at. -/
  | next {g g₁ g' id index link target result} (hi : (g.links id)[index]? = some link)
      (hp : Pass (.node link) g (.ok target) g₁)
      (hr : Pass (.links id (index + 1)) (g₁.relink id index target) result g') :
      Pass (.links id index) g result g'

variable {g g' g'' : Grammar} {task : Task} {r s : Except Fault NodeId} {n : NodeId}

/-! ## §2 Marks -/

theorem isOpen_iff : g.isOpen n = true ↔
    (g.node n).isComposite = true ∧ (g.node n).compressed = false := by
  simp [isOpen]

theorem isOpen_eq_false_iff : g.isOpen n = false ↔
    ((g.node n).isComposite = true → (g.node n).compressed = true) := by
  simp [isOpen]

/-- Passes change links and marks, and nothing else. -/
theorem Pass.sameShape (h : Pass task g r g') : SameShape g g' := by
  induction h with
  | unresolved | abstract | skip | done => exact .refl _
  | enter _ _ _ ih => exact (mark_sameShape ..).trans ih
  | abandon _ _ _ ih => exact ((mark_sameShape ..).trans ih).trans (mark_sameShape ..)
  | stop _ _ ih => exact ih
  | next _ _ _ ihp ihr => exact (ihp.trans (relink_sameShape ..)).trans ihr

theorem compressed_mark_of_ne {id : NodeId} (h : n ≠ id) (value : Bool) :
    ((g.mark id value).node n).compressed = (g.node n).compressed := by
  rw [node_mark, if_neg h]

/-- An open node is not among the marked ones. -/
theorem ne_of_isOpen {target : NodeId} (ho : g.isOpen target = true)
    (hm : (g.node n).compressed = true) : n ≠ target := by
  rintro rfl
  rw [(isOpen_iff.1 ho).2] at hm
  cases hm

/-- What was marked stays marked, also where a pass ends with a fault. -/
theorem Pass.compressed_mono (h : Pass task g r g') (hm : (g.node n).compressed = true) :
    (g'.node n).compressed = true := by
  induction h with
  | unresolved | abstract | skip | done => exact hm
  | enter _ ho _ ih =>
    apply ih
    rw [compressed_mark_of_ne (ne_of_isOpen ho hm), hm]
  | abandon _ ho _ ih =>
    have hne := ne_of_isOpen ho hm
    rw [compressed_mark_of_ne hne]
    apply ih
    rw [compressed_mark_of_ne hne, hm]
  | stop _ _ ih => exact ih hm
  | next _ _ _ ihp ihr =>
    apply ihr
    rw [compressed_relink]
    exact ihp hm

/-- What has no mark afterwards had none before. -/
theorem Pass.unmarked (h : Pass task g r g') (hu : (g'.node n).compressed = false) :
    (g.node n).compressed = false := by
  cases hb : (g.node n).compressed with
  | false => rfl
  | true => rw [h.compressed_mono hb] at hu; cases hu

/-- A node that was marked is not touched, unless its own links are at work. -/
theorem Pass.node_eq_of_compressed (h : Pass task g r g') (hm : (g.node n).compressed = true)
    (hn : task.owner ≠ some n) : g'.node n = g.node n := by
  induction h with
  | unresolved | abstract | skip | done => rfl
  | @enter g g' id target _ ho _ ih =>
    have hne := ne_of_isOpen ho hm
    have hkeep : (g.mark target true).node n = g.node n := by rw [node_mark, if_neg hne]
    rw [ih (by rw [hkeep, hm]) (by simpa [Task.owner] using Ne.symm hne), hkeep]
  | @abandon g g' id target fault _ ho _ ih =>
    have hne := ne_of_isOpen ho hm
    have hkeep : (g.mark target true).node n = g.node n := by rw [node_mark, if_neg hne]
    rw [node_mark, if_neg hne, ih (by rw [hkeep, hm]) (by simpa [Task.owner] using Ne.symm hne),
      hkeep]
  | stop _ _ ih => exact ih hm (by simp [Task.owner])
  | @next g g₁ g' id index link target result _ _ _ ihp ihr =>
    have hne : n ≠ id := by
      rintro rfl
      exact hn rfl
    have hp : g₁.node n = g.node n := ihp hm (by simp [Task.owner])
    have hkeep : (g₁.relink id index target).node n = g.node n := by
      rw [node_relink, if_neg hne, hp]
    rw [ihr (by rw [hkeep, hm]) hn, hkeep]

/-- A node that is open after a pass was open before it. -/
theorem Pass.isOpen_anti (h : Pass task g r g') (ho : g'.isOpen n = true) : g.isOpen n = true := by
  obtain ⟨hc, hu⟩ := isOpen_iff.1 ho
  rw [h.sameShape.isComposite] at hc
  exact isOpen_iff.2 ⟨hc, h.unmarked hu⟩

/-! ## §3 Termination -/

/-- The number of composites without a mark. -/
def openCount (g : Grammar) : Nat :=
  ((Finset.range g.size).filter fun id => g.isOpen id = true).card

theorem openCount_le_size (g : Grammar) : g.openCount ≤ g.size := by
  simpa [openCount] using Finset.card_filter_le (Finset.range g.size) fun id => g.isOpen id = true

theorem lt_size_of_isOpen (ho : g.isOpen n = true) : n < g.size :=
  lt_size_of_composite (isOpen_iff.1 ho).1

theorem openCount_mono (hs : g'.size = g.size) (h : ∀ n, g'.isOpen n = true → g.isOpen n = true) :
    g'.openCount ≤ g.openCount := by
  apply Finset.card_le_card
  intro n hn
  rw [Finset.mem_filter] at hn ⊢
  exact ⟨hs ▸ hn.1, h n hn.2⟩

theorem Pass.openCount_le (h : Pass task g r g') : g'.openCount ≤ g.openCount :=
  openCount_mono h.sameShape.size fun _ => h.isOpen_anti

theorem isOpen_relink (id : NodeId) (index : Nat) (link : NodeId) :
    (g.relink id index link).isOpen n = g.isOpen n := by
  have hc := (relink_sameShape g id index link).isComposite n
  simp [isOpen, hc]

theorem isOpen_mark_self {target : NodeId} (ho : g.isOpen target = true) :
    (g.mark target true).isOpen target = false := by
  apply isOpen_eq_false_iff.2
  intro _
  rw [node_mark, if_pos rfl, Node.compressed_setCompressed (isOpen_iff.1 ho).1]

theorem isOpen_mark_of_ne {target : NodeId} (h : n ≠ target) (value : Bool) :
    (g.mark target value).isOpen n = g.isOpen n := by
  simp [isOpen, node_mark, h]

/-- Marking an unmarked composite leaves one less. -/
theorem openCount_mark_lt {target : NodeId} (ho : g.isOpen target = true) :
    (g.mark target true).openCount < g.openCount := by
  apply Finset.card_lt_card
  rw [Finset.ssubset_iff_of_subset]
  · refine ⟨target, ?_, ?_⟩
    · rw [Finset.mem_filter, Finset.mem_range]
      exact ⟨lt_size_of_isOpen ho, ho⟩
    · rw [Finset.mem_filter, isOpen_mark_self ho]
      simp
  · intro n hn
    rw [Finset.mem_filter, size_mark] at hn
    rw [Finset.mem_filter]
    by_cases hne : n = target
    · subst hne
      exact ⟨hn.1, ho⟩
    · rw [isOpen_mark_of_ne hne] at hn
      exact hn

/-- The links that `compressLinks` was given are those that stand in the store
when their turn comes: the node is marked, so the passes over earlier links
leave it alone. -/
theorem compressLinks_pass {pass : NodeId → Grammar → Except Fault NodeId × Grammar} {bound : Nat}
    (hpass : ∀ link g, g.openCount ≤ bound → Pass (.node link) g (pass link g).1 (pass link g).2)
    (id : NodeId) (rest : List NodeId) (index : Nat) (g : Grammar) (hb : g.openCount ≤ bound)
    (hm : (g.node id).compressed = true) (hrest : (g.links id).drop index = rest) :
    Pass (.links id index) g ((compressLinks pass id index rest g).1.map fun _ => id)
      (compressLinks pass id index rest g).2 := by
  induction rest generalizing index g with
  | nil =>
    refine .done ?_
    rw [List.drop_eq_nil_iff] at hrest
    exact List.getElem?_eq_none hrest
  | cons link rest ih =>
    have hi : (g.links id)[index]? = some link := by
      rw [← List.head?_drop, hrest]
      rfl
    have htail : (g.links id).drop (index + 1) = rest := by
      rw [← List.tail_drop, hrest]
      rfl
    have hp := hpass link g hb
    unfold compressLinks
    split
    · next fault g₁ heq =>
      rw [heq] at hp
      exact .stop hi hp
    · next target g₁ heq =>
      rw [heq] at hp
      have hkeep : g₁.node id = g.node id := hp.node_eq_of_compressed hm (by simp [Task.owner])
      have hc : (g₁.node id).isComposite = true := by
        rw [hkeep]; exact Node.isComposite_of_compressed hm
      refine .next hi hp (ih (index + 1) _ ?_ ?_ ?_)
      · have hle : (g₁.relink id index target).openCount ≤ g₁.openCount :=
          openCount_mono (by simp) fun n hn => by rwa [isOpen_relink] at hn
        exact hle.trans (hp.openCount_le.trans hb)
      · rw [compressed_relink, hkeep, hm]
      · have hl : g₁.links id = g.links id := congrArg Node.links hkeep
        rw [links_relink hc, hl, List.drop_set_of_lt (Nat.lt_succ_self index), htail]

/-- Levels in excess of the unmarked composites are never used up. -/
theorem compressWithin_pass (levels : Nat) (id : NodeId) (g : Grammar) (h : g.openCount < levels) :
    Pass (.node id) g (compressWithin levels id g).1 (compressWithin levels id g).2 := by
  induction levels generalizing id g with
  | zero => omega
  | succ levels ih =>
    unfold compressWithin
    split
    · next fault hr => exact .unresolved hr
    · next target hr =>
      have hs := resolve_eq_ok_iff.1 hr
      split
      · next ha => exact .abstract hs ha
      · next ha =>
        split
        · next ho =>
          have hlt := openCount_mark_lt ho
          have hm : ((g.mark target true).node target).compressed = true := by
            rw [node_mark, if_pos rfl, Node.compressed_setCompressed (isOpen_iff.1 ho).1]
          have hpass : ∀ link h, h.openCount ≤ levels - 1 →
              Pass (.node link) h (compressWithin levels link h).1
                (compressWithin levels link h).2 :=
            fun link h hb => ih link h (by omega)
          have hl := compressLinks_pass hpass target (g.node target).links 0
            (g.mark target true) (by omega) hm (by rw [links_mark, List.drop_zero]; rfl)
          split
          · next g' heq =>
            rw [heq] at hl
            exact .enter hs ho hl
          · next fault g' heq =>
            rw [heq] at hl
            exact .abandon hs ho hl
        · next ho => exact .skip hs ha (by simpa [isOpen] using ho)

/-- **Termination**: compression from any root is a finite run of the rules,
whatever cycles, shared nodes and marks the store has. -/
theorem compress_pass (g : Grammar) (root : NodeId) :
    Pass (.node root) g (g.compress root).1 (g.compress root).2 :=
  compressWithin_pass (g.size + 1) root g (Nat.lt_succ_of_le (openCount_le_size g))

/-- The rules leave no choice. -/
theorem Pass.unique (h : Pass task g r g') (h' : Pass task g s g'') : r = s ∧ g' = g'' := by
  induction h generalizing s g'' with
  | unresolved hr =>
    cases h' with
    | unresolved hr' => rw [hr] at hr'; cases hr'; exact ⟨rfl, rfl⟩
    | abstract hs | skip hs | enter hs | abandon hs =>
      rw [resolve_eq_ok_iff.2 hs] at hr
      cases hr
  | abstract hs ha =>
    cases h' with
    | unresolved hr => rw [resolve_eq_ok_iff.2 hs] at hr; cases hr
    | abstract => exact ⟨rfl, rfl⟩
    | skip hs' ha' => exact absurd (hs.unique hs' ▸ ha) ha'
    | enter hs' ho | abandon hs' ho =>
      exact absurd (hs.unique hs' ▸ ha) (Node.not_abstract_of_composite (isOpen_iff.1 ho).1)
  | skip hs ha ho =>
    cases h' with
    | unresolved hr => rw [resolve_eq_ok_iff.2 hs] at hr; cases hr
    | abstract hs' ha' => exact absurd (hs'.unique hs ▸ ha') ha
    | skip hs' => rw [hs.unique hs']; exact ⟨rfl, rfl⟩
    | enter hs' ho' | abandon hs' ho' =>
      rw [← hs.unique hs', ho] at ho'
      cases ho'
  | enter hs ho _ ih =>
    cases h' with
    | unresolved hr => rw [resolve_eq_ok_iff.2 hs] at hr; cases hr
    | abstract hs' ha' =>
      exact absurd (hs'.unique hs ▸ ha') (Node.not_abstract_of_composite (isOpen_iff.1 ho).1)
    | skip hs' _ ho' => rw [hs'.unique hs, ho] at ho'; cases ho'
    | enter hs' _ hl' =>
      cases hs.unique hs'
      exact ih hl'
    | abandon hs' _ hl' =>
      cases hs.unique hs'
      cases (ih hl').1
  | abandon hs ho _ ih =>
    cases h' with
    | unresolved hr => rw [resolve_eq_ok_iff.2 hs] at hr; cases hr
    | abstract hs' ha' =>
      exact absurd (hs'.unique hs ▸ ha') (Node.not_abstract_of_composite (isOpen_iff.1 ho).1)
    | skip hs' _ ho' => rw [hs'.unique hs, ho] at ho'; cases ho'
    | enter hs' _ hl' =>
      cases hs.unique hs'
      cases (ih hl').1
    | abandon hs' _ hl' =>
      cases hs.unique hs'
      obtain ⟨hf, hg⟩ := ih hl'
      cases hf
      exact ⟨rfl, by rw [hg]⟩
  | done hi =>
    cases h' with
    | done => exact ⟨rfl, rfl⟩
    | stop hi' | next hi' => rw [hi] at hi'; cases hi'
  | stop hi _ ih =>
    cases h' with
    | done hi' => rw [hi] at hi'; cases hi'
    | stop hi' hp' =>
      rw [hi] at hi'
      cases hi'
      exact ih hp'
    | next hi' hp' =>
      rw [hi] at hi'
      cases hi'
      cases (ih hp').1
  | next hi _ _ ihp ihr =>
    cases h' with
    | done hi' => rw [hi] at hi'; cases hi'
    | stop hi' hp' =>
      rw [hi] at hi'
      cases hi'
      cases (ihp hp').1
    | next hi' hp' hr' =>
      rw [hi] at hi'
      cases hi'
      obtain ⟨ht, hg⟩ := ihp hp'
      cases ht
      cases hg
      exact ihr hr'

/-- **Compression is its derivation**: the rules derive exactly the result and
the store that `compress` yields. -/
theorem pass_iff_compress {root : NodeId} :
    Pass (.node root) g r g' ↔ g.compress root = (r, g') := by
  have hc := compress_pass g root
  constructor
  · intro h
    obtain ⟨hr, hg⟩ := hc.unique h
    rw [← hr, ← hg]
  · intro h
    rw [h] at hc
    exact hc

end PegGraph.Grammar
