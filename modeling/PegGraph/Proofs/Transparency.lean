/-
PegGraph.Proofs.Transparency — compression does not change what a grammar
matches.

  §1 Alike nodes — nodes of one kind, with related links.
  §2 Congruence  — an attempt of a composite depends on its links through the
                   attempts of these alone.
  §3 Following   — where references are followed, stores that differ by
                   splicing parse alike.
  §4 Rejecting   — where no reference is reached, it does not matter what a
                   parse does with references.
  §5 Compression — `compress_transparent`, for the whole store and for the root.

The parses compared here agree in everything: outcome, position, guard and
events. The number of levels is the same on both sides, since following a
reference enters no section.
-/
import PegGraph.Parse.Attempt
import PegGraph.Proofs.Compression

namespace PegGraph

/-! ## §1 Alike nodes -/

/-- Two nodes of one kind whose links are related one by one. Marks may differ. -/
inductive Node.Alike (R : NodeId → NodeId → Prop) : Node → Node → Prop where
  /-- A leaf or a reference is alike to itself. -/
  | leaf {n} (h : n.isComposite = false) : Alike R n n
  | sequence {xs ys c c'} (h : List.Forall₂ R xs ys) : Alike R (.sequence xs c) (.sequence ys c')
  | choice {a b a' b' c c'} (ha : R a a') (hb : R b b') : Alike R (.choice a b c) (.choice a' b' c')
  | repetition {a a' c c'} (ha : R a a') : Alike R (.repetition a c) (.repetition a' c')
  | action {a a' act c c'} (ha : R a a') : Alike R (.action a act c) (.action a' act c')

/-- Nodes of one shape with related links are alike. -/
theorem Node.alike_of_shape {R : NodeId → NodeId → Prop} {n m : Node} (hs : m.shape = n.shape)
    (hl : List.Forall₂ R n.links m.links) : Node.Alike R n m := by
  cases n with
  | sequence =>
    cases m with
    | sequence => exact .sequence hl
    | _ => cases hs
  | choice =>
    cases m with
    | choice =>
      obtain ⟨ha, hb, -⟩ := (List.forall₂_cons.1 hl).imp_right List.forall₂_cons.1
      exact .choice ha hb
    | _ => cases hs
  | repetition =>
    cases m with
    | repetition => exact .repetition (List.forall₂_cons.1 hl).1
    | _ => cases hs
  | action =>
    cases m with
    | action =>
      cases hs
      exact .action (List.forall₂_cons.1 hl).1
    | _ => cases hs
  | _ =>
    rw [Node.eq_of_shape_eq hs.symm rfl]
    exact .leaf rfl

namespace Parse

open Grammar (Spliced Substitutes SameShape ReferenceFree Linked)

variable {cx cx' : Setting} {att att' : Attempt} {l l' t n root : NodeId} {g' : Grammar}

/-! ## §2 Congruence -/

theorem attemptAll_congr {xs ys : List NodeId}
    (h : List.Forall₂ (fun l l' => att l = att' l') xs ys) (values : List Value) (st : Progress) :
    attemptAll att xs values st = attemptAll att' ys values st := by
  induction h generalizing values st with
  | nil => rfl
  | cons heq _ ih =>
    unfold attemptAll
    rw [heq]
    split
    · exact ih ..
    · rfl

theorem attemptEither_congr {a a' b b' : NodeId} (ha : att a = att' a') (hb : att b = att' b')
    (source : Source) : attemptEither att source a b = attemptEither att' source a' b' := by
  funext st
  unfold attemptEither
  rw [ha, hb]

theorem attemptMany_congr {a a' : NodeId} (ha : att a = att' a') (source : Source) (id : NodeId)
    (tries : Nat) (values : List Value) (st : Progress) :
    attemptMany att source id a tries values st =
      attemptMany att' source id a' tries values st := by
  induction tries generalizing values st with
  | zero => rfl
  | succ tries ih =>
    unfold attemptMany
    rw [ha]
    simp only [ih]

/-- The same node in two stores, where its links are attempted alike. -/
theorem attemptActor_congr (hsource : cx'.source = cx.source)
    (hread : cx'.readDepth = cx.readDepth)
    (hn : Node.Alike (fun l l' => att l = att' l') (cx.grammar.node n) (cx'.grammar.node n)) :
    attemptActor cx' att' n = attemptActor cx att n := by
  funext st
  unfold attemptActor
  generalize cx.grammar.node n = a, cx'.grammar.node n = b at hn
  cases hn with
  | leaf h => rw [hsource]; cases a <;> first | rfl | cases h
  | sequence h =>
    have hbody := fun st => attemptAll_congr h [] st
    simp only [funext hbody]
  | choice ha hb => simp only [attemptEither_congr ha hb, hsource]
  | repetition ha => simp only [attemptMany_congr ha, hsource]
  | action ha =>
    have happly : ∀ id act, applyAction cx' id act = applyAction cx id act := by
      intro id act
      unfold applyAction
      rw [hread]
    simp only [ha, happly]

/-! ## §3 Following -/

/-- A node that is no reference acts for itself. -/
theorem Setting.actor_of_not_reference (h : (cx.grammar.node n).isReference = false) :
    cx.actor n = .ok n := by
  unfold Setting.actor
  split
  · next heq => rw [heq] at h; cases h
  · rfl

/-- Where references are followed, the node that a node stands for acts for it. -/
theorem Setting.actor_of_standsFor (hm : cx.mode = .follow) (hs : cx.grammar.StandsFor n t) :
    cx.actor n = .ok t := by
  have hres := Grammar.resolve_eq_ok_iff.2 hs
  cases hs with
  | self h => exact actor_of_not_reference h
  | forward hf _ =>
    obtain ⟨name, hf⟩ := hf
    unfold Setting.actor
    rw [hf, hm]
    exact hres

/-- Which node acts is read off the references alone. -/
theorem Setting.actor_congr (h : SameShape cx.grammar g') (n : NodeId) :
    Setting.actor { cx with grammar := g' } n = cx.actor n := by
  cases hn : (cx.grammar.node n).isReference with
  | false =>
    rw [actor_of_not_reference hn, actor_of_not_reference]
    rw [h.isReference, hn]
  | true =>
    have heq := h.node_eq (Node.not_composite_of_reference hn)
    simp only [Setting.actor, heq, h.resolve]

theorem attemptNode_of_standsFor (hm : cx.mode = .follow) (hs : cx.grammar.StandsFor l t) :
    attemptNode cx att l = attemptNode cx att t := by
  funext st
  unfold attemptNode
  rw [Setting.actor_of_standsFor hm hs, Setting.actor_of_not_reference hs.not_reference]

/-- A link and what may stand in its place are attempted alike. -/
theorem attempt_of_standsFor (cx : Setting) (hm : cx.mode = .follow) (levels : Nat)
    (hs : cx.grammar.StandsFor l t) : attempt cx levels l = attempt cx levels t := by
  cases levels <;> exact attemptNode_of_standsFor hm hs

theorem attempt_of_substitutes (hm : cx.mode = .follow) (levels : Nat)
    (h : Substitutes cx.grammar l l') : attempt cx levels l = attempt cx levels l' := by
  rcases h with rfl | hs
  · rfl
  · exact attempt_of_standsFor cx hm levels hs

theorem attemptNode_spliced (h : Spliced cx.grammar g')
    (hatt : ∀ l l', Substitutes cx.grammar l l' → att l = att' l') (n : NodeId) :
    attemptNode { cx with grammar := g' } att' n = attemptNode cx att n := by
  funext st
  unfold attemptNode
  rw [Setting.actor_congr h.toSameShape]
  split
  · rfl
  · next actor _ =>
    have halike := Node.alike_of_shape (h.shape actor) ((h.links actor).imp hatt)
    have hactor : attemptActor { cx with grammar := g' } att' actor = attemptActor cx att actor :=
      attemptActor_congr rfl rfl halike
    rw [hactor]

/-- **Splicing is transparent**: every node of the store is attempted alike at
every progress. -/
theorem attempt_spliced (cx : Setting) (hm : cx.mode = .follow) (h : Spliced cx.grammar g')
    (levels : Nat) : attempt { cx with grammar := g' } levels = attempt cx levels := by
  funext n
  induction levels generalizing n with
  | zero => exact attemptNode_spliced h (fun _ _ _ => rfl) n
  | succ levels ih =>
    refine attemptNode_spliced h (fun l l' hl => ?_) n
    rw [ih, attempt_of_substitutes hm levels hl]

/-! ## §4 Rejecting -/

/-- Below a node that reaches no reference, the mode of a parse is never asked. -/
theorem attempt_mode (cx : Setting) (mode : ReferenceMode) (levels : Nat)
    (hfree : cx.grammar.ReferenceFree n) :
    attempt { cx with mode } levels n = attempt cx levels n := by
  have hstep : ∀ {n : NodeId} {att att' : Attempt}, cx.grammar.ReferenceFree n →
      (∀ l, cx.grammar.Linked n l → att l = att' l) →
      attemptNode { cx with mode } att' n = attemptNode cx att n := by
    intro n att att' hfree hatt
    have hn := hfree n .refl
    have halike : Node.Alike (fun l l' => att l = att' l') (cx.grammar.node n)
        (cx.grammar.node n) := Node.alike_of_shape rfl (List.forall₂_same.2 hatt)
    have hactor : attemptActor { cx with mode } att' n = attemptActor cx att n :=
      attemptActor_congr rfl rfl halike
    have hmode : Setting.actor { cx with mode } n = .ok n := Setting.actor_of_not_reference hn
    funext st
    unfold attemptNode
    rw [hmode, Setting.actor_of_not_reference hn]
    exact congrFun hactor st
  induction levels generalizing n with
  | zero => exact hstep hfree fun _ _ => rfl
  | succ levels ih => exact hstep hfree fun l hl => (ih (hfree.of_linked hl)).symm

/-! ## §5 Compression -/

/-- **Compression is transparent**: where references are followed, it changes
the parse of no node of the store, also where it stops with a fault; and a
compressed grammar parses without following as its original did with it. -/
theorem compress_transparent (g : Grammar) (root : NodeId) (source : Source)
    (readDepth : Int → String → Option Int) :
    (∀ n pos guard, run ⟨(g.compress root).2, source, .follow, readDepth⟩ n pos guard =
      run ⟨g, source, .follow, readDepth⟩ n pos guard) ∧
    ∀ u g', g.Fresh root → g.compress root = (.ok u, g') → ∀ pos guard,
      run ⟨g', source, .reject, readDepth⟩ u pos guard =
        run ⟨g, source, .follow, readDepth⟩ root pos guard := by
  have hspl : ∀ {r g'}, g.compress root = (r, g') → ∀ n pos guard,
      run ⟨g', source, .follow, readDepth⟩ n pos guard =
        run ⟨g, source, .follow, readDepth⟩ n pos guard := by
    intro r g' h n pos guard
    have hpass := (Grammar.pass_iff_compress.2 h).spliced
    unfold run
    rw [attempt_spliced ⟨g, source, .follow, readDepth⟩ rfl hpass]
  refine ⟨hspl rfl, fun u g' hu h pos guard => ?_⟩
  have hdone := hu.compressed h
  calc run ⟨g', source, .reject, readDepth⟩ u pos guard
      = run ⟨g', source, .follow, readDepth⟩ u pos guard := by
        unfold run
        rw [attempt_mode ⟨g', source, .follow, readDepth⟩ .reject _ hdone.free]
    _ = run ⟨g, source, .follow, readDepth⟩ u pos guard := hspl h u pos guard
    _ = run ⟨g, source, .follow, readDepth⟩ root pos guard := by
        have hs := Grammar.resolve_eq_ok_iff.1 hdone.result
        unfold run
        rw [attempt_of_standsFor ⟨g, source, .follow, readDepth⟩ rfl _ hs]

/-- A loop that is compressed, and gives back what it consumed in vain. -/
theorem compress_transparent_looped :
    Grammar.looped.Fresh 0 ∧
      Grammar.looped.compress 0 = (.ok 3, (Grammar.looped.compress 0).2) ∧
      run ⟨(Grammar.looped.compress 0).2, .ofString "aaa", .reject, fun _ _ => none⟩ 3 0 ⟨8, 0⟩ =
        run ⟨Grammar.looped, .ofString "aaa", .follow, fun _ _ => none⟩ 0 0 ⟨8, 0⟩ ∧
      (run ⟨Grammar.looped, .ofString "aaa", .follow, fun _ _ => none⟩ 0 0 ⟨8, 0⟩).2.pos = 3 := by
  have hc : Grammar.looped.compress 0 = (.ok 3, (Grammar.looped.compress 0).2) := rfl
  have heq := (compress_transparent Grammar.looped 0 (.ofString "aaa") fun _ _ => none).2 3 _
    Grammar.looped_fresh hc 0 ⟨8, 0⟩
  exact ⟨Grammar.looped_fresh, hc, heq, by decide +kernel⟩

end Parse

end PegGraph
