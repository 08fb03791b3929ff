/-
PegGraph.Proofs.Marking — which composites a pass marks, and what it makes of
them.

  §1 Vocabulary   — targets of links, settled nodes, explored nodes.
  §2 One node     — the links of a node after the pass over them.
  §3 Marked nodes — a node that a pass has marked is finished, and was explored.
  §4 Completion   — a pass without a fault marks exactly the explored nodes
                    (`compress_marks_iff`) and touches no other
                    (`compress_node_eq`).

A pass sees half-finished composites through back links, so nothing is said
about the whole store while it runs. Two facts about single nodes carry the
proof: once marked and left, a node has all its links replaced for good, and a
node without a mark at the end was never entered. That all explored nodes are
marked then follows from the links of the marked ones, with no account of the
order of the visits.
-/
import PegGraph.Proofs.Splice

namespace PegGraph.Grammar

open Relation (ReflTransGen)

/-! ## §1 Vocabulary -/

/-- What a link stands for, or the link itself where it stands for nothing. -/
def target (g : Grammar) (link : NodeId) : NodeId :=
  match g.resolve link with
  | .ok t => t
  | .error _ => link

/-- A node that compression has nothing more to do with: it is concrete, and
marked if it is a composite. -/
structure Settled (g : Grammar) (n : NodeId) : Prop where
  not_abstract : g.node n ≠ .abstract
  not_reference : (g.node n).isReference = false
  not_open : g.isOpen n = false

/-- A path of unmarked composites, references taken out. Its last node need not
be a composite. -/
def OpenPath (g : Grammar) : NodeId → NodeId → Prop :=
  ReflTransGen fun x y => g.isOpen x = true ∧ g.Joined x y

/-- An unmarked composite that is reached through unmarked composites alone. -/
def Explores (g : Grammar) (a b : NodeId) : Prop := g.OpenPath a b ∧ g.isOpen b = true

/-- A composite that a pass with the given result has left marked: its links
are replaced by their targets, and these are settled if the pass came to an
end. After a fault they may be composites that have lost their marks. -/
structure Finished (g g' : Grammar) (r : Except Fault NodeId) (n : NodeId) : Prop where
  node_eq : g'.node n = ((g.node n).mapLinks g.target).setCompressed true
  targets : ∀ l ∈ g.links n, ∃ t, g.StandsFor l t ∧ g.node t ≠ .abstract ∧
    ∀ u, r = .ok u → g'.Settled t

/-- The nodes that a task starts from. -/
def entries (g : Grammar) : Task → List NodeId
  | .node id => [id]
  | .links id index => (g.links id).drop index

/-- The node whose links are at work has its mark already. -/
def Ready (g : Grammar) (task : Task) : Prop :=
  ∀ id, task.owner = some id → (g.node id).compressed = true

variable {g g' g₁ : Grammar} {task : Task} {r : Except Fault NodeId} {n l t id link : NodeId}
  {index : Nat}

theorem StandsFor.target_eq (h : g.StandsFor l t) : g.target l = t := by
  unfold target
  rw [resolve_eq_ok_iff.2 h]

theorem SameShape.target_eq (h : SameShape g g') : g'.target = g.target := by
  funext l
  unfold target
  rw [h.resolve]

/-- A settled node can only come undone by losing its mark. -/
theorem Settled.congr (hs : g.Settled n) (h : SameShape g g') (ho : g'.isOpen n = false) :
    g'.Settled n where
  not_abstract ha := hs.not_abstract (h.abstract_iff.1 ha)
  not_reference := by rw [h.isReference, hs.not_reference]
  not_open := ho

theorem Pass.settled (h : Pass task g r g') (hs : g.Settled n) : g'.Settled n := by
  refine hs.congr h.sameShape ?_
  cases ho : g'.isOpen n with
  | false => rfl
  | true => rw [← hs.not_open, h.isOpen_anti ho]

theorem Settled.relink (hs : g.Settled n) : (g.relink id index t).Settled n :=
  hs.congr (relink_sameShape ..) (by rw [isOpen_relink, hs.not_open])

/-- A composite is settled by its mark. -/
theorem settled_mark (ho : g.isOpen n = true) : (g.mark n true).Settled n where
  not_abstract ha :=
    Node.not_abstract_of_composite (isOpen_iff.1 ho).1 ((mark_sameShape ..).abstract_iff.1 ha)
  not_reference := by
    rw [(mark_sameShape ..).isReference, Node.not_reference_of_composite (isOpen_iff.1 ho).1]
  not_open := isOpen_mark_self ho

theorem Explores.mono {a b : NodeId} (ho : ∀ x, g'.isOpen x = true → g.isOpen x = true)
    (hj : ∀ x y, g'.Joined x y → g.Joined x y) (h : g'.Explores a b) : g.Explores a b :=
  ⟨ReflTransGen.mono (fun x y hxy => ⟨ho x hxy.1, hj x y hxy.2⟩) a b h.1, ho b h.2⟩

theorem Explores.head {a b c : NodeId} (ho : g.isOpen a = true) (hj : g.Joined a b)
    (h : g.Explores b c) : g.Explores a c :=
  ⟨h.1.head ⟨ho, hj⟩, h.2⟩

/-- An open path is a way of reaching. -/
theorem OpenPath.reaches {a b : NodeId} (h : g.OpenPath a b) : g.Reaches a b := by
  induction h with
  | refl => exact .refl
  | tail _ hj ih => exact ih.trans hj.2.reaches

theorem ready_node (g : Grammar) (id : NodeId) : g.Ready (.node id) := by
  intro _ h
  cases h

theorem ready_mark (ho : g.isOpen t = true) : (g.mark t true).Ready (.links t 0) := by
  intro _ h
  cases h
  rw [node_mark, if_pos rfl, Node.compressed_setCompressed (isOpen_iff.1 ho).1]

theorem Ready.compressed (h : g.Ready (.links id index)) : (g.node id).compressed = true :=
  h id rfl

/-- An unmarked node is not the one whose links are at work. -/
theorem Ready.ne (h : g.Ready (.links id index)) (hu : (g.node n).compressed = false) : n ≠ id := by
  rintro rfl
  rw [h.compressed] at hu
  cases hu

/-- Whatever a finished node links to was what a link of it stood for. -/
theorem Finished.exists_link (h : Finished g g' r n) (hc : (g.node n).isComposite = true)
    (hl : g'.Linked n l) :
    ∃ l₀, g.Linked n l₀ ∧ g.StandsFor l₀ l ∧ ∀ u, r = .ok u → g'.Settled l := by
  unfold Linked links at hl
  rw [h.node_eq, Node.links_setCompressed, Node.links_mapLinks hc] at hl
  obtain ⟨l₀, hl₀, rfl⟩ := List.mem_map.1 hl
  obtain ⟨t, ht, _, hset⟩ := h.targets l₀ hl₀
  rw [ht.target_eq]
  exact ⟨l₀, hl₀, ht, hset⟩

/-! ## §2 One node -/

/-- After the pass over a link, the node that holds it is as it was. -/
theorem Pass.owner_eq (hp : Pass (.node link) g (.ok t) g₁) (hr : g.Ready (.links id index)) :
    g₁.node id = g.node id :=
  hp.node_eq_of_compressed hr.compressed (by simp [Task.owner])

theorem Pass.links_relink_eq (hp : Pass (.node link) g (.ok t) g₁)
    (hr : g.Ready (.links id index)) :
    (g₁.relink id index t).links id = (g.links id).set index t := by
  have hkeep := hp.owner_eq hr
  have hc : (g₁.node id).isComposite = true := by
    rw [hkeep]
    exact Node.isComposite_of_compressed hr.compressed
  rw [links_relink hc, links_congr hkeep]

theorem Pass.ready_next (hp : Pass (.node link) g (.ok t) g₁) (hr : g.Ready (.links id index)) :
    (g₁.relink id index t).Ready (.links id (index + 1)) := by
  intro _ h
  cases h
  rw [compressed_relink, hp.owner_eq hr]
  exact hr.compressed

/-- What is left to do after a link is what was left before it, less that link. -/
theorem Pass.entries_next (hp : Pass (.node link) g (.ok t) g₁) (hr : g.Ready (.links id index)) :
    (g₁.relink id index t).entries (.links id (index + 1)) = (g.links id).drop (index + 1) := by
  rw [entries, hp.links_relink_eq hr, List.drop_set_of_lt (Nat.lt_succ_self index)]

theorem drop_eq_cons (hi : (g.links id)[index]? = some link) :
    (g.links id).drop index = link :: (g.links id).drop (index + 1) := by
  obtain ⟨hlt, hget⟩ := List.getElem?_eq_some_iff.1 hi
  rw [List.drop_eq_getElem_cons hlt, hget]

/-- The links from an index on are replaced by their targets, the others stay. -/
theorem Pass.links_eq (h : Pass (.links id index) g (.ok t) g') (hr : g.Ready (.links id index)) :
    g'.links id = (g.links id).take index ++ ((g.links id).drop index).map g.target := by
  generalize htask : Task.links id index = task at h
  generalize hres : Except.ok t = r at h
  induction h generalizing index with
  | done hi =>
    cases htask
    have hlen := List.getElem?_eq_none_iff.1 hi
    rw [List.drop_eq_nil_of_le hlen, List.take_of_length_le hlen]
    simp
  | @next g g₁ g' _ i link target result hi hp _ _ ihr =>
    cases htask
    have hlt := (List.getElem?_eq_some_iff.1 hi).1
    have htarget := (hp.sameShape.trans (relink_sameShape g₁ id i target)).target_eq
    rw [ihr (hp.ready_next hr) rfl hres, htarget, hp.links_relink_eq hr, drop_eq_cons hi,
      List.map_cons, hp.standsFor.1.target_eq, List.drop_set_of_lt (Nat.lt_succ_self i),
      List.take_add_one, List.take_set_of_le (Nat.le_refl i), List.getElem?_set_self hlt]
    simp
  | stop => cases hres
  | _ => cases htask

/-- After a completed task, everything that it started from is settled. -/
theorem Pass.entries_settled (h : Pass task g r g') (hok : r = .ok t) (hr : g.Ready task) :
    ∀ l ∈ g.entries task, ∃ t, g.StandsFor l t ∧ g'.Settled t := by
  induction h generalizing t with
  | unresolved | abstract | abandon | stop => cases hok
  | @skip g id target hs ha ho =>
    intro l hl
    cases List.mem_singleton.1 hl
    exact ⟨target, hs, ha, hs.not_reference, ho⟩
  | @enter g g' id target hs ho hl _ =>
    intro l hmem
    cases List.mem_singleton.1 hmem
    exact ⟨target, hs, hl.settled (settled_mark ho)⟩
  | done hi =>
    intro l hl
    rw [entries, List.drop_eq_nil_of_le (List.getElem?_eq_none_iff.1 hi)] at hl
    cases hl
  | @next g g₁ g' id index link target result hi hp hnext ihp ihr =>
    intro l hl
    rw [entries, drop_eq_cons hi] at hl
    rcases List.mem_cons.1 hl with rfl | hl
    · obtain ⟨t, hs, hset⟩ := ihp rfl (ready_node g l) l (List.mem_singleton_self l)
      exact ⟨t, hs, hnext.settled hset.relink⟩
    · rw [← hp.entries_next hr] at hl
      obtain ⟨t, hs, hset⟩ := ihr hok (hp.ready_next hr) l hl
      have hshape := hp.sameShape.trans (relink_sameShape g₁ id index target)
      exact ⟨t, hshape.standsFor_iff.1 hs, hset⟩

/-! ## §3 Marked nodes -/

theorem node_relink_of_unmarked (hr : g.Ready (.links id index))
    (hu : (g.node n).compressed = false) : (g₁.relink id index t).node n = g₁.node n := by
  rw [node_relink, if_neg (hr.ne hu)]

/-- A node without a mark after a completed pass was not touched. -/
theorem Pass.node_eq_of_unmarked (h : Pass task g r g') (hok : r = .ok t) (hr : g.Ready task)
    (hu : (g'.node n).compressed = false) : g'.node n = g.node n := by
  induction h generalizing t with
  | unresolved | abstract | abandon | stop => cases hok
  | skip | done => rfl
  | @enter g g' id target _ ho hl ih =>
    have hne : n ≠ target := (ready_mark ho).ne (hl.unmarked hu)
    rw [ih rfl (ready_mark ho) hu, node_mark, if_neg hne]
  | @next g g₁ g' id index link target result hi hp hnext ihp ihr =>
    have hbetween := hnext.unmarked hu
    rw [compressed_relink] at hbetween
    rw [ihr hok (hp.ready_next hr) hu, node_relink_of_unmarked hr (hp.unmarked hbetween),
      ihp rfl (ready_node g link) hbetween]

/-- What is finished in a store that differs by the mark of another node. -/
theorem Finished.of_mark (hne : n ≠ t) (hf : Finished (g.mark t true) g' r n) :
    Finished g g' r n := by
  have hshape := mark_sameShape g t true
  refine ⟨?_, fun l hl => ?_⟩
  · rw [hf.node_eq, hshape.target_eq, node_mark, if_neg hne]
  · obtain ⟨u, hs, ha, hset⟩ := hf.targets l (by rwa [links_mark])
    exact ⟨u, hshape.standsFor_iff.1 hs, fun h => ha (hshape.abstract_iff.2 h), hset⟩

/-- The composite whose links a pass has just gone through. -/
theorem Pass.finished_self (hl : Pass (.links n 0) (g.mark n true) (.ok n) g')
    (ho : g.isOpen n = true) : Finished g g' (.ok n) n := by
  have hshape := mark_sameShape g n true
  have hc := (isOpen_iff.1 ho).1
  have hm := hl.compressed_mono (ready_mark ho).compressed
  have hlinks := hl.links_eq (ready_mark ho)
  rw [links_mark, List.take_zero, List.nil_append, List.drop_zero, hshape.target_eq] at hlinks
  refine ⟨Node.ext_shape ?_ ?_ ?_, fun l hmem => ?_⟩
  · rw [hl.sameShape.shape, shape_mark, Node.shape_setCompressed, Node.shape_mapLinks]
  · rw [Node.links_setCompressed, Node.links_mapLinks hc]
    exact hlinks
  · rw [hm, Node.compressed_setCompressed]
    rw [Node.isComposite_congr (Node.shape_mapLinks ..), hc]
  · have hentry : l ∈ (g.mark n true).entries (.links n 0) := by
      rwa [entries, links_mark, List.drop_zero]
    obtain ⟨t, hs, hset⟩ := hl.entries_settled rfl (ready_mark ho) l hentry
    have hall := hshape.trans hl.sameShape
    exact ⟨t, hshape.standsFor_iff.1 hs, fun ha => hset.not_abstract (hall.abstract_iff.2 ha),
      fun _ _ => hset⟩

/-- **A node that a pass has marked is finished**, also where the pass ends
with a fault elsewhere. -/
theorem Pass.finished (h : Pass task g r g') (hr : g.Ready task)
    (hu : (g.node n).compressed = false) (hm : (g'.node n).compressed = true) :
    Finished g g' r n := by
  induction h with
  | unresolved | abstract | skip | done => rw [hu] at hm; cases hm
  | @enter g g' id target hs ho hl ih =>
    by_cases hne : n = target
    · subst hne
      exact hl.finished_self ho
    · refine (ih (ready_mark ho) ?_ hm).of_mark hne
      rw [compressed_mark_of_ne hne, hu]
  | @abandon g g' id target fault hs ho hl ih =>
    by_cases hne : n = target
    · subst hne
      have hc : (g'.node n).isComposite = true := by
        rw [((mark_sameShape ..).trans hl.sameShape).isComposite]
        exact (isOpen_iff.1 ho).1
      rw [node_mark, if_pos rfl, Node.compressed_setCompressed hc] at hm
      cases hm
    · rw [compressed_mark_of_ne hne] at hm
      have hf := (ih (ready_mark ho) (by rw [compressed_mark_of_ne hne, hu]) hm).of_mark hne
      refine ⟨by rw [node_mark, if_neg hne, hf.node_eq], fun l hl => ?_⟩
      obtain ⟨t, hs, ha, _⟩ := hf.targets l hl
      exact ⟨t, hs, ha, fun _ h => by cases h⟩
  | @stop g g' id index link fault _ _ ih => exact ih (ready_node g link) hu hm
  | @next g g₁ g' id index link target result hi hp hnext ihp ihr =>
    have hkeep : (g₁.relink id index target).node n = g₁.node n := node_relink_of_unmarked hr hu
    cases hm₁ : (g₁.node n).compressed with
    | true =>
      -- The pass over this link has marked it; what follows leaves it alone.
      have hf := ihp (ready_node g link) hu hm₁
      have hlast : g'.node n = g₁.node n := by
        rw [hnext.node_eq_of_compressed (by rw [hkeep, hm₁])
          (by simpa [Task.owner] using (hr.ne hu).symm), hkeep]
      refine ⟨by rw [hlast, hf.node_eq], fun l hl => ?_⟩
      obtain ⟨t, hs, ha, hset⟩ := hf.targets l hl
      exact ⟨t, hs, ha, fun _ _ => hnext.settled (hset _ rfl).relink⟩
    | false =>
      have hsame := hp.node_eq_of_unmarked rfl (ready_node g link) hm₁
      have hshape := hp.sameShape.trans (relink_sameShape g₁ id index target)
      have hf := ihr (hp.ready_next hr) (by rw [hkeep, hm₁]) hm
      refine ⟨by rw [hf.node_eq, hshape.target_eq, hkeep, hsame], fun l hl => ?_⟩
      have hl' : l ∈ (g₁.relink id index target).links n := by
        rwa [links_congr (hkeep.trans hsame)]
      obtain ⟨t, hs, ha, hset⟩ := hf.targets l hl'
      exact ⟨t, hshape.standsFor_iff.1 hs, fun h => ha (hshape.abstract_iff.2 h), hset⟩

/-- Whatever a pass has marked, it has explored from where it started. -/
theorem Pass.explored (h : Pass task g r g') (hr : g.Ready task)
    (hu : (g.node n).compressed = false) (hm : (g'.node n).compressed = true) :
    ∃ l ∈ g.entries task, ∃ t, g.StandsFor l t ∧ g.Explores t n := by
  -- Below a composite that was just marked: explored from that composite.
  have hbelow : ∀ {g : Grammar} {id target : NodeId}, g.StandsFor id target →
      g.isOpen target = true → n ≠ target →
      (∃ l ∈ (g.mark target true).entries (.links target 0), ∃ t,
        (g.mark target true).StandsFor l t ∧ (g.mark target true).Explores t n) →
      ∃ l ∈ g.entries (.node id), ∃ t, g.StandsFor l t ∧ g.Explores t n := by
    rintro g id target hs ho hne ⟨l, hl, t, hst, hex⟩
    have hspl := mark_spliced g target true
    rw [entries, links_mark, List.drop_zero] at hl
    have hex' : g.Explores t n := by
      refine hex.mono (fun x hx => ?_) fun x y => hspl.joined_iff.1
      by_cases hxt : x = target
      · rw [hxt, ho]
      · rwa [isOpen_mark_of_ne hxt] at hx
    refine ⟨id, List.mem_singleton_self id, target, hs, hex'.head ho ⟨l, hl, ?_⟩⟩
    exact hspl.standsFor_iff.1 hst
  induction h with
  | unresolved | abstract | skip | done => rw [hu] at hm; cases hm
  | @enter g g' id target hs ho hl ih =>
    by_cases hne : n = target
    · subst hne
      exact ⟨id, List.mem_singleton_self id, n, hs, .refl, ho⟩
    · exact hbelow hs ho hne (ih (ready_mark ho) (by rw [compressed_mark_of_ne hne, hu]) hm)
  | @abandon g g' id target fault hs ho hl ih =>
    by_cases hne : n = target
    · subst hne
      exact ⟨id, List.mem_singleton_self id, n, hs, .refl, ho⟩
    · rw [compressed_mark_of_ne hne] at hm
      exact hbelow hs ho hne (ih (ready_mark ho) (by rw [compressed_mark_of_ne hne, hu]) hm)
  | @stop g g' id index link fault hi _ ih =>
    obtain ⟨l, hl, hex⟩ := ih (ready_node g link) hu hm
    refine ⟨l, ?_, hex⟩
    rw [entries, drop_eq_cons hi, List.mem_singleton.1 hl]
    exact List.mem_cons_self
  | @next g g₁ g' id index link target result hi hp hnext ihp ihr =>
    cases hm₁ : (g₁.node n).compressed with
    | true =>
      obtain ⟨l, hl, hex⟩ := ihp (ready_node g link) hu hm₁
      refine ⟨l, ?_, hex⟩
      rw [entries, drop_eq_cons hi, List.mem_singleton.1 hl]
      exact List.mem_cons_self
    | false =>
      have hkeep : (g₁.relink id index target).node n = g₁.node n := node_relink_of_unmarked hr hu
      obtain ⟨l, hl, t, hst, hex⟩ := ihr (hp.ready_next hr) (by rw [hkeep, hm₁]) hm
      have hspl := hp.spliced.relink hi hp.standsFor.1
      rw [hp.entries_next hr] at hl
      refine ⟨l, ?_, t, hspl.standsFor_iff.1 hst, hex.mono (fun x hx => ?_) fun x y => ?_⟩
      · rw [entries, drop_eq_cons hi]
        exact List.mem_cons_of_mem link hl
      · rw [isOpen_relink] at hx
        exact hp.isOpen_anti hx
      · exact hspl.joined_iff.1

/-! ## §4 Completion -/

variable {root u : NodeId}

/-- The root's node is settled once compression is complete. -/
theorem compress_settled (h : g.compress root = (.ok u, g')) :
    g.StandsFor root u ∧ g'.Settled u := by
  have hp := pass_iff_compress.2 h
  obtain ⟨t, hs, hset⟩ :=
    hp.entries_settled rfl (ready_node g root) root (List.mem_singleton_self root)
  have hres := hp.standsFor.1
  exact ⟨hres, hres.unique hs ▸ hset⟩

/-- A node that compression has marked is finished, its links settled. -/
theorem compress_finished_of_marked (h : g.compress root = (.ok u, g'))
    (hu : (g.node n).compressed = false) (hm : (g'.node n).compressed = true) :
    Finished g g' (.ok u) n :=
  (pass_iff_compress.2 h).finished (ready_node g root) hu hm

/-- Everything at the end of a path of open nodes gets settled: the next node on
the path is a target of the one before, which is marked by then. -/
theorem compress_settles (h : g.compress root = (.ok u, g')) (hpath : g.OpenPath u n) :
    g'.Settled n := by
  induction hpath with
  | refl => exact (compress_settled h).2
  | @tail x y _ hxy ih =>
    obtain ⟨ho, l, hl, hs⟩ := hxy
    obtain ⟨hc, hu⟩ := isOpen_iff.1 ho
    have hshape := (pass_iff_compress.2 h).sameShape
    have hm : (g'.node x).compressed = true := by
      apply isOpen_eq_false_iff.1 ih.not_open
      rw [hshape.isComposite, hc]
    obtain ⟨t, hst, _, hset⟩ := (compress_finished_of_marked h hu hm).targets l hl
    exact hs.unique hst ▸ hset u rfl

/-- **Completion**: compression that comes to an end has marked the composites
that it explored from the result, and no others. -/
theorem compress_marks_iff (h : g.compress root = (.ok u, g')) :
    (g'.node n).compressed = true ↔ (g.node n).compressed = true ∨ g.Explores u n := by
  have hp := pass_iff_compress.2 h
  constructor
  · intro hm
    cases hu : (g.node n).compressed with
    | true => exact .inl rfl
    | false =>
      obtain ⟨l, hl, t, hs, hex⟩ := hp.explored (ready_node g root) hu hm
      cases List.mem_singleton.1 hl
      exact .inr (hs.unique hp.standsFor.1 ▸ hex)
  · rintro (hm | ⟨hpath, ho⟩)
    · exact hp.compressed_mono hm
    · apply isOpen_eq_false_iff.1 (compress_settles h hpath).not_open
      rw [hp.sameShape.isComposite]
      exact (isOpen_iff.1 ho).1

/-- What is explored is finished. -/
theorem compress_finished (h : g.compress root = (.ok u, g')) (hex : g.Explores u n) :
    Finished g g' (.ok u) n :=
  compress_finished_of_marked h (isOpen_iff.1 hex.2).2 ((compress_marks_iff h).2 (.inr hex))

/-- What is not explored is not touched. -/
theorem compress_node_eq (h : g.compress root = (.ok u, g')) (hex : ¬ g.Explores u n) :
    g'.node n = g.node n := by
  have hp := pass_iff_compress.2 h
  cases hm : (g'.node n).compressed with
  | false => exact hp.node_eq_of_unmarked rfl (ready_node g root) hm
  | true =>
    rcases (compress_marks_iff h).1 hm with hu | hex'
    · exact hp.node_eq_of_compressed hu (by simp [Task.owner])
    · exact absurd hex' hex

end PegGraph.Grammar
