/-
PegGraph.Proofs.Resumption — passes that failed and are made again.

  §1 Ahead   — stores that have grown, or in which more references are bound.
  §2 Passes  — what a pass has done stays right in a store that is ahead, and a
               pass made again after a fault does the rest (`Pass.resumed`).
  §3 Edits   — construction and binding on two stores side by side.
  §4 Retries — a history of edits and failed passes from one root, and
               `compress_retried`.

How the main proof goes: §2 is an induction on the pass that failed. Links
before the one at which it failed lead to settled nodes, so the second pass
skips them; the one at which it failed is looked at by the induction hypothesis;
those after it have not been touched. So when the second pass has come to the
place of the fault, the marks are those that a pass would have set that had met
no fault there. It takes no account of the path to that place: the derivation of
the first pass is that path.
-/
import PegGraph.Proofs.Akin
import PegGraph.Proofs.History
import PegGraph.Proofs.Transparency

namespace PegGraph

namespace Grammar

variable {g g' g₁ p p' s s' : Grammar} {task : Task} {r q : Except Fault NodeId}
  {n l l' t id root : NodeId} {index : Nat}

/-! ## §1 Ahead -/

/-- The second store has all that the first has. References without a target may
have got one; nodes may have been added, without marks. -/
structure Ahead (g p : Grammar) : Prop where
  size_le : g.size ≤ p.size
  node_eq : ∀ n, n < g.size → (∀ name, g.node n ≠ .reference name none) → p.node n = g.node n
  marks : SameMarks g p

theorem Ahead.refl (g : Grammar) : Ahead g g := ⟨Nat.le_refl _, fun _ _ _ => rfl, fun _ => rfl⟩

namespace Ahead

theorem node_of_not_reference (h : Ahead g p) (hn : n < g.size)
    (href : (g.node n).isReference = false) : p.node n = g.node n := by
  refine h.node_eq n hn fun name heq => ?_
  rw [heq] at href
  cases href

theorem node_of_composite (h : Ahead g p) (hc : (g.node n).isComposite = true) :
    p.node n = g.node n :=
  h.node_of_not_reference (lt_size_of_composite hc)
    (Node.not_reference_of_composite hc)

/-- What stands for a node that is there keeps standing for it. -/
theorem standsFor (h : Ahead g p) (hs : g.StandsFor l t) (ht : t < g.size) : p.StandsFor l t := by
  induction hs with
  | self href =>
    refine .self ?_
    rw [h.node_of_not_reference ht href, href]
  | @forward id next t hf _ ih =>
    have hlt := lt_size_of_isReference hf.isReference
    obtain ⟨name, hf⟩ := hf
    refine .forward ⟨name, (h.node_eq id hlt fun _ heq => ?_).trans hf⟩ (ih ht)
    rw [hf] at heq
    cases heq

theorem trans {k : Grammar} (h : Ahead g p) (h' : Ahead p k) : Ahead g k := by
  refine ⟨h.size_le.trans h'.size_le, fun n hn hne => ?_, h.marks.trans h'.marks⟩
  have heq := h.node_eq n hn hne
  rw [h'.node_eq n (hn.trans_le h.size_le) (by rwa [heq]), heq]

theorem isOpen (h : Ahead g p) (ho : g.isOpen n = true) : p.isOpen n = true := by
  unfold Grammar.isOpen
  rw [h.node_of_composite (isOpen_iff.1 ho).1]
  exact ho

/-- A change of one composite, the same in both stores. -/
theorem set (h : Ahead g p) {f : Node → Node} {g₂ p₂ : Grammar} (hsize : g₂.size = g.size)
    (hsize' : p₂.size = p.size) (hc : (g.node id).isComposite = true)
    (hg : ∀ n, g₂.node n = if n = id then f (g.node id) else g.node n)
    (hp : ∀ n, p₂.node n = if n = id then f (p.node id) else p.node n) : Ahead g₂ p₂ := by
  have hid := h.node_of_composite hc
  refine ⟨by rw [hsize, hsize']; exact h.size_le, ?_, ?_⟩
  · intro n hn hne
    rw [hg, hp]
    split
    · rw [hid]
    · next hother =>
      refine h.node_eq n (hsize ▸ hn) fun name heq => hne name ?_
      rw [hg, if_neg hother, heq]
  · intro n
    rw [hg, hp]
    split
    · rw [hid]
    · exact h.marks n

theorem mark (h : Ahead g p) (hc : (g.node id).isComposite = true) (value : Bool) :
    Ahead (g.mark id value) (p.mark id value) :=
  h.set (size_mark ..) (size_mark ..) hc (node_mark g id value)
    (node_mark p id value)

theorem relink (h : Ahead g p) (hc : (g.node id).isComposite = true) (index : Nat)
    (link : NodeId) : Ahead (g.relink id index link) (p.relink id index link) :=
  h.set (size_relink ..) (size_relink ..) hc
    (node_relink g id index link) (node_relink p id index link)

end Ahead

/-! ## §2 Passes -/

/-- The links of the node that a task works at are the same in a store that is
ahead. -/
theorem Ahead.links_eq (ha : Ahead g p) (hr : g.Ready (.links id index)) :
    p.links id = g.links id :=
  links_congr (ha.node_of_composite (Node.isComposite_of_compressed hr.compressed))

/-- A pass that succeeds does so in a store that is ahead, with the same result
and the same changes. -/
theorem Pass.ahead (h : Pass task g r g') (hok : r = .ok t) (hr : g.Ready task) (ha : Ahead g p) :
    ∃ p', Pass task p r p' ∧ Ahead g' p' := by
  induction h generalizing t p with
  | unresolved | abstract | abandon | stop => cases hok
  | @skip g id target hs hc ho =>
    have hlt := lt_size_of_not_abstract hc
    have heq := ha.node_of_not_reference hlt hs.not_reference
    refine ⟨p, .skip (ha.standsFor hs hlt) (by rwa [heq]) ?_, ha⟩
    unfold isOpen
    rw [heq]
    exact ho
  | @enter g g' id target hs ho _ ih =>
    have hc := (isOpen_iff.1 ho).1
    obtain ⟨p', hp, ha'⟩ := ih rfl (ready_mark ho) (ha.mark hc true)
    have hs' := ha.standsFor hs (lt_size_of_composite hc)
    exact ⟨p', .enter hs' (ha.isOpen ho) hp, ha'⟩
  | @done g id index hi =>
    refine ⟨p, .done ?_, ha⟩
    rwa [ha.links_eq hr]
  | @next g g₁ g' id index link target result hi hp _ ihp ihr =>
    have hc := Node.isComposite_of_compressed hr.compressed
    obtain ⟨p₁, hp', ha₁⟩ := ihp rfl (ready_node g link) ha
    have hc₁ : (g₁.node id).isComposite = true := by rw [hp.sameShape.isComposite, hc]
    obtain ⟨p', hr', ha'⟩ := ihr hok (hp.ready_next hr) (ha₁.relink hc₁ index target)
    refine ⟨p', .next ?_ hp' hr', ha'⟩
    rwa [ha.links_eq hr]

/-- Whatever a task does to one store, it does to the other too, as far as result
and marks go. -/
def Mirrored (task : Task) (s p : Grammar) : Prop :=
  ∀ q s', Pass task s q s' → ∃ p', Pass task p q p' ∧ SameMarks s' p'

/-- A composite that is open in both stores is entered in both. -/
theorem Mirrored.node (hk : Akin s p) (hs : s.StandsFor id t) (hos : s.isOpen t = true)
    (hop : p.isOpen t = true) (h : Mirrored (.links t 0) (s.mark t true) (p.mark t true)) :
    Mirrored (.node id) s p := by
  intro q s' hq
  have hsp := hk.standsFor_iff.2 hs
  cases hq with
  | unresolved hres => rw [resolve_eq_ok_iff.2 hs] at hres; cases hres
  | abstract hs' hab =>
    have hc := (isOpen_iff.1 hos).1
    rw [hs.unique hs', hab] at hc
    cases hc
  | skip hs' _ hskip => rw [hs.unique hs', hskip] at hos; cases hos
  | enter hs' _ hl =>
    cases hs.unique hs'
    obtain ⟨p', hp, hm⟩ := h _ _ hl
    exact ⟨p', .enter hsp hop hp, hm⟩
  | abandon hs' _ hl =>
    cases hs.unique hs'
    obtain ⟨p', hp, hm⟩ := h _ _ hl
    have hak := hk.congr (mark_spliced s t true) (mark_spliced p t true)
    refine ⟨p'.mark t false, .abandon hsp hop hp, hm.mark ?_ t false⟩
    exact (hak.congr hl.spliced hp.spliced).toSameShape

/-- After the first link, there is no difference left between two stores. -/
theorem Mirrored.links_of_node (hk : Akin s p) (hi : (s.links id)[index]? = some l)
    (hi' : (p.links id)[index]? = some l') (h : Mirrored (.node l') s p) :
    Mirrored (.links id index) s p := by
  obtain ⟨l'', hl'', hlink⟩ := hk.getElem?_eq_some hi
  rw [hi'] at hl''
  cases hl''
  intro q s' hq
  cases hq with
  | done hnone => rw [hi] at hnone; cases hnone
  | stop hsome hq =>
    rw [hi] at hsome
    cases hsome
    obtain ⟨p', hp, hm⟩ := h _ _ (hq.of_sameTarget hlink)
    exact ⟨p', .stop hi' hp, hm⟩
  | @next _ s₁ _ _ _ _ target _ hsome hq hnext =>
    rw [hi] at hsome
    cases hsome
    obtain ⟨p₁, hp, hm⟩ := h _ _ (hq.of_sameTarget hlink)
    have hak := hk.congr (hq.spliced.relink hi hq.standsFor.1)
      (hp.spliced.relink hi' hp.standsFor.1)
    obtain ⟨p', hr, hm'⟩ := hnext.twin hak (hm.relink id index target)
    exact ⟨p', .next hi' hp hr, hm'⟩

/-- A link that is skipped in one store may lead the pass through the other to
wherever it ends, if what follows is mirrored from there. -/
theorem Mirrored.links_of_skip (hi : (s.links id)[index]? = some l)
    (hi' : (p.links id)[index]? = some l') (hskip : Pass (.node l) s (.ok t) s)
    (hp : Pass (.node l') p (.ok t) p')
    (h : Mirrored (.links id (index + 1)) (s.relink id index t) (p'.relink id index t)) :
    Mirrored (.links id index) s p := by
  intro q s' hq
  cases hq with
  | done hnone => rw [hi] at hnone; cases hnone
  | stop hsome hq =>
    rw [hi] at hsome
    cases hsome
    cases (hskip.unique hq).1
  | next hsome hq hnext =>
    rw [hi] at hsome
    cases hsome
    obtain ⟨hres, rfl⟩ := hskip.unique hq
    cases hres
    obtain ⟨p'', hr, hm⟩ := h _ _ hnext
    exact ⟨p'', .next hi' hp hr, hm⟩

/-- A composite that a failed pass has left is open again. -/
theorem isOpen_of_abandoned (hk : Akin p s) (ha : Ahead g p) (ho : g.isOpen t = true)
    (hl : Pass (.links t 0) (g.mark t true) r g₁) (hm : SameMarks s (g₁.mark t false)) :
    s.isOpen t = true ∧ SameMarks (s.mark t true) g₁ := by
  have hc := (isOpen_iff.1 ho).1
  have hcs : (s.node t).isComposite = true := by rw [hk.isComposite, ha.node_of_composite hc, hc]
  have hc₁ : (g₁.node t).isComposite = true := by
    rw [hl.sameShape.isComposite, (mark_sameShape ..).isComposite, hc]
  refine ⟨isOpen_iff.2 ⟨hcs, ?_⟩, fun n => ?_⟩
  · rw [hm t, compressed_mark, if_pos ⟨rfl, hc₁⟩]
  · rw [compressed_mark]
    split
    · next h => rw [h.1, hl.compressed_mono (ready_mark ho).compressed]
    · next h => rw [hm n, compressed_mark_of_ne fun heq => h ⟨heq, hcs⟩]

/-- What a failed pass has been through is settled, and skipped from then on. -/
theorem skip_of_settled (hk : Akin p s) (ha : Ahead g p) (hshape : SameShape g g₁)
    (hm : SameMarks s g₁) (hset : g₁.Settled t) (hs : s.StandsFor l t) :
    Pass (.node l) s (.ok t) s := by
  have hconcrete : g.node t ≠ .abstract := fun hab => hset.not_abstract (hshape.abstract_iff.2 hab)
  have hnode : p.node t = g.node t := by
    refine ha.node_of_not_reference (lt_size_of_not_abstract hconcrete) ?_
    rw [← hshape.isReference, hset.not_reference]
  refine .skip hs (fun hab => hconcrete ?_) (isOpen_eq_false_iff.2 fun hcs => ?_)
  · rw [← hnode]
    exact hk.abstract_iff.1 hab
  · rw [hm t]
    refine isOpen_eq_false_iff.1 hset.not_open ?_
    rwa [hshape.isComposite, ← hnode, ← hk.isComposite]

/-- **A pass made again after a fault** ends like one that is made for the first
time, and leaves the same marks. Since the first one, the store `g` that it found
has become `p`, and the store `g₁` that it left has become `s`. -/
theorem Pass.resumed (h : Pass task g r g₁) {fault : Fault} (hf : r = .error fault)
    (hr : g.Ready task) (ha : Ahead g p) (hk : Akin p s) (hm : SameMarks s g₁) :
    Mirrored task s p := by
  induction h generalizing p s with
  | unresolved | abstract => exact fun _ _ hq => hq.twin hk.symm (hm.trans ha.marks)
  | skip | enter | done => cases hf
  | @abandon g g₁ id target _ hs ho hl ih =>
    have hc := (isOpen_iff.1 ho).1
    have hss := hk.standsFor_iff.2 (ha.standsFor hs (lt_size_of_composite hc))
    obtain ⟨hos, hm'⟩ := isOpen_of_abandoned hk ha ho hl hm
    refine .node hk.symm hss hos (ha.isOpen ho) (ih hf (ready_mark ho) (ha.mark hc true) ?_ hm')
    exact hk.congr (mark_spliced p target true) (mark_spliced s target true)
  | @stop g g₁ id index link _ hi _ ih =>
    rw [← ha.links_eq hr] at hi
    obtain ⟨link', hi', _⟩ := hk.getElem?_eq_some hi
    exact .links_of_node hk.symm hi' hi (ih hf (ready_node g link) ha hk hm)
  | @next g g₀ g₁ id index link target _ hi hp hnext _ ihr =>
    have hc : (g₀.node id).isComposite = true := by
      rw [hp.sameShape.isComposite, Node.isComposite_of_compressed hr.compressed]
    obtain ⟨p₀, hp', ha₀⟩ := hp.ahead rfl (ready_node g link) ha
    have hip := hi
    rw [← ha.links_eq hr] at hip
    obtain ⟨link', his, hlink⟩ := hk.getElem?_eq_some hip
    have hss := hk.standsFor_iff.2 (hlink.standsFor hp'.standsFor.1)
    have hset : g₁.Settled target := by
      obtain ⟨t, hst, hset⟩ :=
        hp.entries_settled rfl (ready_node g link) link (List.mem_singleton_self link)
      cases hp.standsFor.1.unique hst
      exact hnext.settled hset.relink
    have hshape := (hp.spliced.relink hi hp.standsFor.1).toSameShape.trans hnext.sameShape
    refine .links_of_skip his hip (skip_of_settled hk ha hshape hm hset hss) hp' ?_
    refine ihr hf (hp.ready_next hr) (ha₀.relink hc index target) ?_ fun n => ?_
    · exact hk.congr (hp'.spliced.relink hip hp'.standsFor.1) (relink_spliced his (.inr hss))
    · rw [compressed_relink, hm n]

/-! ## §3 Edits -/

theorem ahead_add {n : Node} (hu : n.compressed = false) (g : Grammar) :
    Ahead g (Grammar.add n g).2 := by
  refine ⟨by rw [size_add]; exact Nat.le_succ _, fun m hm _ => node_add_of_lt n hm, fun m => ?_⟩
  rw [node_add]
  split
  · next h => rw [h, node_of_size_le (Nat.le_refl _), hu]; rfl
  · rfl

theorem ahead_bind (h : g.bind id t = .ok g') : Ahead g g' := by
  obtain ⟨name, hid, hsize, hnode⟩ := bind_eq_ok h
  refine ⟨Nat.le_of_eq hsize.symm, fun n _ hne => ?_, fun n => ?_⟩
  · rw [hnode, if_neg]
    rintro rfl
    exact hne name hid
  · rw [hnode]
    split
    · next heq => rw [heq, hid]; rfl
    · rfl

theorem Ahead.substitutes (h : Ahead g p) (hin : g.LinksInside) (hl : l < g.size)
    (hs : g.Substitutes l l') : p.Substitutes l l' := by
  rcases hs with rfl | hs
  · exact .inl rfl
  · exact .inr (h.standsFor hs (hin.reaches hs.reaches hl))

/-- What is marked has none but replaced links. -/
def Clean (s : Grammar) : Prop :=
  ∀ n, (s.node n).compressed = true → ∀ l, s.Linked n l → (s.node l).isReference = false

theorem Pass.clean (h : Pass (.node root) s r s') (hc : s.Clean) : s'.Clean := by
  intro n hm l hl
  rw [h.sameShape.isReference]
  cases hb : (s.node n).compressed with
  | true =>
    have heq := h.node_eq_of_compressed hb (by simp [Task.owner])
    exact hc n hb l ((linked_congr heq).1 hl)
  | false =>
    have hcomp : (s.node n).isComposite = true := by
      rw [← h.sameShape.isComposite]
      exact Node.isComposite_of_compressed hm
    obtain ⟨_, _, hs, _⟩ := (h.finished (ready_node s root) hb hm).exists_link hcomp hl
    exact hs.not_reference

/-- What a history of edits and failed passes from a root has come to, second,
against what its edits alone would have come to. -/
structure Retried (root : NodeId) (p s : Grammar) : Prop extends Spliced p s where
  plain : ∀ n, (p.node n).compressed = false
  inside : p.LinksInside
  clean : s.Clean
  /-- The marks are those that the last pass has left, or there are none. -/
  last : ∃ g g₁, Ahead g p ∧ SameMarks s g₁ ∧
    (g₁ = g ∨ ∃ fault, g.compress root = (.error fault, g₁))

/-- The next pass does to the one what it does to the other. -/
theorem Retried.mirrored (h : Retried root p s) : Mirrored (.node root) s p := by
  have hk := h.toSpliced.akin
  obtain ⟨g, g₁, ha, hm, rfl | ⟨fault, hfail⟩⟩ := h.last
  · exact fun _ _ hq => hq.twin hk.symm (hm.trans ha.marks)
  · exact (pass_iff_compress.2 hfail).resumed rfl (ready_node g root) ha hk hm

theorem Retried.fail (h : Retried root p s) {fault : Fault}
    (hc : s.compress root = (.error fault, s')) : Retried root p s' := by
  have hpass := pass_iff_compress.2 hc
  obtain ⟨p', hp, hm⟩ := h.mirrored _ _ hpass
  exact ⟨h.toSpliced.trans hpass.spliced, h.plain, h.inside, hpass.clean h.clean, p, p', .refl p,
    hm, .inr ⟨fault, pass_iff_compress.1 hp⟩⟩

/-- One edit made to both: nodes that it makes or changes are alike afterwards. -/
theorem Retried.edit (h : Retried root p s) (hp : Ahead p p') (hs : Ahead s s')
    (hin : p'.LinksInside) (hsize : s'.size = p'.size)
    (hnode : ∀ n, (p'.node n = p.node n ∧ s'.node n = s.node n) ∨
      ((s'.node n).shape = (p'.node n).shape ∧
        List.Forall₂ p'.Substitutes (p'.links n) (s'.links n))) : Retried root p' s' where
  size := hsize
  shape n := by
    rcases hnode n with ⟨heq, heq'⟩ | ⟨hshape, _⟩
    · rw [heq, heq', h.shape]
    · exact hshape
  links n := by
    rcases hnode n with ⟨heq, heq'⟩ | ⟨_, hlinks⟩
    · unfold links
      rw [heq, heq']
      refine List.forall₂_iff_get.2 ⟨(h.links n).length_eq, fun i h₁ h₂ => ?_⟩
      exact hp.substitutes h.inside (h.inside n _ (List.getElem_mem h₁)) ((h.links n).get h₁ h₂)
    · exact hlinks
  plain n := by rw [← hp.marks n, h.plain]
  inside := hin
  clean n hm l hl := by
    rw [← hs.marks n] at hm
    have heq := hs.node_of_composite (Node.isComposite_of_compressed hm)
    have hl := (linked_congr heq).1 hl
    have href := h.clean n hm l hl
    rw [hs.node_of_not_reference (h.toSpliced.linksInside h.inside n l hl) href, href]
  last := by
    obtain ⟨g, g₁, ha, hm, hlast⟩ := h.last
    exact ⟨g, g₁, ha.trans hp, hs.marks.symm.trans hm, hlast⟩

/-- A new node may have other links in the two, if they stand for the same. -/
theorem Retried.add (h : Retried root p s) {n m : Node} (hu : n.compressed = false)
    (hshape : m.shape = n.shape) (hu' : m.compressed = false) (hin : ∀ l ∈ n.links, l < p.size)
    (hlinks : List.Forall₂ p.Substitutes n.links m.links) :
    Retried root (Grammar.add n p).2 (Grammar.add m s).2 := by
  have hp := ahead_add hu p
  have hmove : Move .any p (Grammar.add n p).2 := .add hu hin
  refine h.edit hp (ahead_add hu' s) (hmove.linksInside h.inside) ?_ fun id => ?_
  · rw [size_add, size_add, h.size]
  · unfold links
    rw [node_add, node_add, h.size]
    split
    · refine .inr ⟨hshape, List.forall₂_iff_get.2 ⟨hlinks.length_eq, fun i h₁ h₂ => ?_⟩⟩
      exact hp.substitutes h.inside (hin _ (List.getElem_mem h₁)) (hlinks.get h₁ h₂)
    · exact .inl ⟨rfl, rfl⟩

/-- The same node may be added to both. -/
theorem Retried.add_same (h : Retried root p s) {n : Node} (hu : n.compressed = false)
    (hin : ∀ l ∈ n.links, l < p.size) :
    Retried root (Grammar.add n p).2 (Grammar.add n s).2 :=
  h.add hu rfl hu hin (forall₂_substitutes p n.links)

theorem run_bind_of_bound (h : ∀ name, g.node id ≠ .reference name none) :
    (Call.bind id t).run g = g := by
  simp only [Call.run]
  cases hb : g.bind id t with
  | error => rfl
  | ok g' =>
    obtain ⟨name, hid, _⟩ := bind_eq_ok hb
    exact absurd hid (h name)

/-- A reference is bound in both, or in neither. -/
theorem Retried.bind (h : Retried root p s) (ht : t < p.size) :
    Retried root ((Call.bind id t).run p) ((Call.bind id t).run s) := by
  by_cases hid : ∃ name, p.node id = .reference name none
  · obtain ⟨name, hid⟩ := hid
    have hid' : s.node id = .reference name none := by
      rw [h.toSameShape.node_eq (by rw [hid]; rfl), hid]
    have hb := bind_of_unbound (t := t) hid
    have hb' := bind_of_unbound (t := t) hid'
    have hmove : Move .any p (p.set id (.reference name (some t))) := .bind hb ht
    simp only [Call.run, hb, hb']
    refine h.edit (ahead_bind hb) (ahead_bind hb') (hmove.linksInside h.inside) ?_ fun n => ?_
    · rw [size_set, size_set, h.size]
    · by_cases heq : n = id
      · subst heq
        have hlt : n < p.size := lt_size_of_isReference (by rw [hid]; rfl)
        unfold links
        rw [node_set_self hlt, node_set_self (h.size ▸ hlt)]
        exact .inr ⟨rfl, forall₂_substitutes _ _⟩
      · exact .inl ⟨node_set_ne heq _, node_set_ne heq _⟩
  · have hid' : ∀ name, s.node id ≠ .reference name none := by
      intro name heq
      refine hid ⟨name, ?_⟩
      rw [h.toSameShape.symm.node_eq (by rw [heq]; rfl), heq]
    rw [run_bind_of_bound fun name heq => hid ⟨name, heq⟩, run_bind_of_bound hid']
    exact h

/-- Choices are nested alike. -/
theorem Retried.oneOf (h : Retried root p s) (first second : NodeId) (rest : List NodeId)
    (hin : ∀ l ∈ first :: second :: rest, l < p.size) :
    (Grammar.oneOf first second rest s).1 = (Grammar.oneOf first second rest p).1 ∧
      Retried root (Grammar.oneOf first second rest p).2
        (Grammar.oneOf first second rest s).2 := by
  induction rest generalizing first second with
  | nil => exact ⟨h.size, h.add_same rfl hin⟩
  | cons third rest ih =>
    have hrest : ∀ l ∈ second :: third :: rest, l < p.size := fun l hl =>
      hin l (List.mem_cons_of_mem first hl)
    obtain ⟨hid, hothers⟩ := ih second third hrest
    obtain ⟨hmoves, hlt⟩ := @oneOf_moves .any second third rest p hrest
    refine ⟨hothers.size, ?_⟩
    change Retried root (Grammar.add (.choice first _ false) _).2
      (Grammar.add (.choice first _ false) _).2
    rw [hid]
    refine hothers.add_same rfl fun l hl => ?_
    rcases List.mem_cons.1 hl with rfl | hl
    · exact (hin l List.mem_cons_self).trans_le hmoves.size_le
    · cases List.mem_singleton.1 hl
      exact hlt

/-- A sequence is extended in both. Its links may have been replaced in one. -/
theorem Retried.followedBy (h : Retried root p s) {other : NodeId} (hid : id < p.size)
    (hother : other < p.size) :
    Retried root (Grammar.followedBy id other p).2 (Grammar.followedBy id other s).2 := by
  have hpair : ∀ l ∈ [id, other], l < p.size := by
    intro l hl
    rcases List.mem_cons.1 hl with rfl | hl
    · exact hid
    · cases List.mem_singleton.1 hl
      exact hother
  have halike := Node.alike_of_shape (h.shape id) (h.links id)
  have hinside : ∀ l ∈ (p.node id).links, l < p.size := fun l => h.inside id l
  unfold Grammar.followedBy
  generalize p.node id = n, s.node id = m at halike hinside
  cases halike with
  | leaf hc =>
    cases n with
    | sequence => cases hc
    | _ => exact h.add_same rfl hpair
  | sequence hl =>
    refine h.add rfl ?_ rfl (fun l hmem => ?_) (List.rel_append hl (forall₂_substitutes p _))
    · simp [Node.shape, hl.length_eq]
    · rcases List.mem_append.1 hmem with hmem | hmem
      · exact hinside l hmem
      · exact hpair l (List.mem_cons_of_mem id hmem)
  | choice | repetition | action => exact h.add_same rfl hpair

end Grammar

/-! ## §4 Retries -/

namespace Call

/-- Whether a call makes nodes or binds a reference, and no pass. -/
def edits : Call → Bool
  | .compress _ | .prepare _ _ => false
  | _ => true

/-- Whether a call is a pass from a root, and fails. -/
def fails (root : NodeId) (g : Grammar) : Call → Bool
  | .compress id => id = root && (g.compress root).1.toBool.not
  | _ => false

end Call

namespace Grammar

variable {p s : Grammar} {root : NodeId}

/-- Calls on nodes that are there when their turn comes: edits, and passes from
one root, each of which fails. -/
def retries (root : NodeId) (g : Grammar) : List Call → Bool
  | [] => true
  | call :: rest =>
    call.arguments.all (· < g.size) && (call.edits || call.fails root g) &&
      (call.run g).retries root rest

theorem compress_of_fails {call : Call} (h : call.fails root s = true) :
    ∃ fault, s.compress root = (.error fault, call.run s) := by
  unfold Call.fails at h
  split at h
  · next id =>
    simp only [Bool.and_eq_true, decide_eq_true_eq] at h
    obtain ⟨rfl, hfail⟩ := h
    cases hc : s.compress id with
    | mk r s' =>
      cases r with
      | ok u => rw [hc] at hfail; cases hfail
      | error fault => exact ⟨fault, by rw [Call.run, hc]⟩
  · cases h

theorem Retried.call (h : Retried root p s) {call : Call} (he : call.edits = true)
    (hargs : ∀ id ∈ call.arguments, id < p.size) : Retried root (call.run p) (call.run s) := by
  cases call with
  | range | endOfInput | reference | abstract => exact h.add_same rfl (by simp [Node.links])
  | sequence children => exact h.add_same rfl hargs
  | oneOf first second rest => exact (h.oneOf first second rest hargs).2
  | repetition child => exact h.add_same rfl hargs
  | action child act => exact h.add_same rfl hargs
  | followedBy id other =>
    exact h.followedBy (hargs id List.mem_cons_self) (hargs other (by simp [Call.arguments]))
  | bind id target => exact h.bind (hargs target (by simp [Call.arguments]))
  | compress | prepare => cases he

theorem Retried.calls (h : Retried root p s) {calls : List Call}
    (hcalls : s.retries root calls = true) :
    Retried root ((calls.filter Call.edits).foldl Call.run p) (calls.foldl Call.run s) := by
  induction calls generalizing p s with
  | nil => exact h
  | cons call rest ih =>
    simp only [retries, Bool.and_eq_true, Bool.or_eq_true, List.all_eq_true,
      decide_eq_true_eq] at hcalls
    obtain ⟨⟨hargs, hkind⟩, hrest⟩ := hcalls
    cases he : call.edits with
    | true =>
      rw [List.filter_cons_of_pos he]
      exact ih (h.call he (h.size ▸ hargs)) hrest
    | false =>
      have hne : ¬ call.edits = true := by simp [he]
      rw [List.filter_cons_of_neg hne]
      obtain ⟨fault, hfail⟩ := compress_of_fails (hkind.resolve_left hne)
      exact ih (h.fail hfail) hrest

/-- A store without marks, before anything was tried. -/
theorem retried_self (hinside : p.LinksInside) (hplain : ∀ n, (p.node n).compressed = false) :
    Retried root p p where
  toSpliced := .refl p
  plain := hplain
  inside := hinside
  clean n hm := by
    rw [hplain] at hm
    cases hm
  last := ⟨p, p, .refl p, fun _ => rfl, .inl rfl⟩

/-- Replaced links are the targets of those that they have replaced. -/
theorem Spliced.links_eq_map {g g' : Grammar} {n : NodeId} (h : Spliced g g')
    (hfree : ∀ l ∈ g'.links n, (g'.node l).isReference = false) :
    g'.links n = (g.links n).map g.target := by
  refine List.ext_getElem (by rw [List.length_map, (h.links n).length_eq]) fun i h₁ h₂ => ?_
  rw [List.length_map] at h₂
  rw [List.getElem_map]
  have hfree := hfree _ (List.getElem_mem h₁)
  rw [h.isReference] at hfree
  have hs : g.StandsFor (g.links n)[i] (g'.links n)[i] := by
    rcases (h.links n).get h₂ h₁ with heq | hs
    · have heq : (g'.links n)[i] = (g.links n)[i] := heq
      rw [heq] at hfree ⊢
      exact .self hfree
    · exact hs
  exact hs.target_eq.symm

/-- **Retrying completes the work**: once nothing is missing, a pass after any
number of failed ones succeeds, and leaves all that the root reaches as the
first pass would have left it, had it been made after all edits. -/
theorem compress_retried {g : Grammar} {calls : List Call} (hinside : g.LinksInside)
    (hplain : ∀ n, (g.node n).compressed = false) (hcalls : g.retries root calls = true)
    (hs : s = calls.foldl Call.run g) (hp : p = (calls.filter Call.edits).foldl Call.run g)
    (hdone : s.Complete root) :
    ∃ u s' p', s.compress root = (.ok u, s') ∧ p.compress root = (.ok u, p') ∧
      ∀ n, p.Reaches root n ∨ s.Reaches root n → s'.node n = p'.node n := by
  subst hs hp
  have h := (retried_self hinside hplain).calls hcalls
  obtain ⟨u, s', hs'⟩ := hdone.compress_succeeds
  have hpass := pass_iff_compress.2 hs'
  obtain ⟨p', hpass', hm⟩ := h.mirrored _ _ hpass
  have hp' := pass_iff_compress.1 hpass'
  refine ⟨u, s', p', hs', hp', fun n hr => ?_⟩
  have hreached := hr.elim id h.toSpliced.reaches
  have hspl := h.toSpliced.trans hpass.spliced
  have hdone' := Fresh.compressed (fun n _ => h.plain n) hp'
  cases hc : (((calls.filter Call.edits).foldl Call.run g).node n).isComposite with
  | false => rw [hspl.toSameShape.node_eq hc, hdone'.leaves n hc]
  | true =>
    have hmark := hdone'.marked n hreached hc
    have hlinks := hspl.links_eq_map (hpass.clean h.clean n (hmark ▸ hm n))
    refine Node.ext_shape ?_ ?_ (hm n)
    · rw [hspl.shape, hpass'.sameShape.shape]
    · rw [hdone'.composites n hreached hc, Node.links_setCompressed, Node.links_mapLinks hc]
      exact hlinks

/-- Two references (1, 2) behind which passes from a choice (7) fail one after
the other. A sequence (5) that leads back to the choice is finished in the first
of these passes. -/
def patchedCalls : List Call :=
  [.reference (some "a"), .reference (some "x"), .reference (some "y"), .range (.single 'b'),
    .range (.single 'x'), .sequence [3, 0], .oneOf 5 1 [2], .bind 0 7, .compress 7, .bind 1 4,
    .repetition 3, .compress 7, .bind 2 8]

/-- The store that these calls leave. -/
def patched : Grammar := patchedCalls.foldl Call.run .empty

/-- The last pass meets the sequence with its mark, and the choices without. -/
theorem compress_retried_patched :
    empty.LinksInside ∧ (∀ n, (empty.node n).compressed = false) ∧
      empty.retries 7 patchedCalls = true ∧ patched.Complete 7 ∧
      (patched.node 5).compressed = true ∧ (patched.node 7).compressed = false ∧
      ∃ u s' p', patched.compress 7 = (.ok u, s') ∧
        ((patchedCalls.filter Call.edits).foldl Call.run empty).compress 7 = (.ok u, p') ∧
        s'.node 6 = p'.node 6 ∧ s'.node 6 = .choice 4 8 true := by
  have hplain : ∀ n, (empty.node n).compressed = false := by
    intro n
    rw [node_of_size_le (Nat.zero_le n)]
    rfl
  have hcalls : empty.retries 7 patchedCalls = true := by decide
  have hdone : patched.Complete 7 := by
    intro n hr
    have hn : n ∈ [7, 5, 6, 3, 4, 8, 2] := hr.mem_of_closed (by decide) (by decide)
    have hall : ∀ m ∈ [7, 5, 6, 3, 4, 8, 2],
        (patched.node m).kind ≠ .abstract ∧ (patched.resolve m).toBool = true := by decide
    refine ⟨fun ha => (hall n hn).1 (by rw [ha]; rfl), fun _ => ?_⟩
    have hres := (hall n hn).2
    cases ht : patched.resolve n with
    | ok t => exact ⟨t, resolve_eq_ok_iff.1 ht⟩
    | error => rw [ht] at hres; cases hres
  obtain ⟨u, s', p', hs, hp, heq⟩ :=
    compress_retried linksInside_empty hplain hcalls rfl rfl hdone
  have hlink : patched.Linked 7 6 := by
    unfold Linked
    decide
  have hrun : (patched.compress 7).2.node 6 = .choice 4 8 true := rfl
  have hs : patched.compress 7 = (.ok u, s') := hs
  rw [hs] at hrun
  exact ⟨linksInside_empty, hplain, hcalls, hdone, rfl, rfl, u, s', p', hs, hp,
    heq 6 (.inr (.single hlink)), hrun⟩

end Grammar

end PegGraph
