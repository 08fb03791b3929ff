/-
PegGraph.Proofs.Recognition — what actions have no part in.

  §1 Recasting — grammars that differ in their actions alone, and actions that
                 are total functions of the value.
  §2 Cursors   — parses with such grammars go side by side, position by
                 position.
  §3 Trees     — the tree of a match, which is found without calling an action.
  §4 Values    — the value of a match is the value of its tree.
  §5 Parses    — `run_recast`.

Whether a child has matched, and how far, is read off the outcome and the cursor
and never off the value; §2 says this of the parse that moves a cursor, so it
holds of the cursor after no match too. The tree is built by matchers, which
have no state that an attempt given up could leave something in; §4 has the
actions called on it from the leaves up.
-/
import PegGraph.Proofs.Backtracking
import PegGraph.Proofs.Spelling

namespace PegGraph

variable {g g' : Grammar} {n l : NodeId}

/-! ## §1 Recasting -/

/-- Two nodes that are equal but for their actions, if they have any. -/
inductive Node.Recast : Node → Node → Prop where
  | same (n : Node) : Recast n n
  | action {child : NodeId} {act act' : Action} {mark : Bool} :
    Recast (.action child act mark) (.action child act' mark)

theorem Node.Recast.links_eq {a b : Node} (h : Node.Recast a b) : a.links = b.links := by
  cases h <;> rfl

theorem Node.Recast.isComposite_eq {a b : Node} (h : Node.Recast a b) :
    a.isComposite = b.isComposite := by
  cases h <;> rfl

/-- An action that makes its value of its argument alone, and never fails. -/
def Action.IsTotal (act : Action) : Prop :=
  ∃ f : Value → Value, ∀ readDepth v, act.apply readDepth v = .ok (f v)

theorem Action.IsTotal.isPure {act : Action} (h : act.IsTotal) : act.isPure = true := by
  obtain ⟨f, hf⟩ := h
  cases act with
  | gauged guard => cases hf (fun _ => none) .none
  | _ => rfl

/-- Whether a node acts by a total action, if it acts at all. -/
def Node.IsTotal : Node → Prop
  | .action _ act _ => act.IsTotal
  | _ => True

namespace Grammar

/-- Two grammars that are equal, in all that a node reaches, but for actions. -/
def Recast (g g' : Grammar) (n : NodeId) : Prop :=
  ∀ m, g.Reaches n m → Node.Recast (g.node m) (g'.node m)

/-- Every action that a node reaches is total. -/
def ActsTotally (g : Grammar) (n : NodeId) : Prop := ∀ m, g.Reaches n m → (g.node m).IsTotal

theorem Recast.refl (g : Grammar) (n : NodeId) : g.Recast g n := fun _ _ => .same _

theorem Recast.of_linked (h : g.Recast g' n) (hl : g.Linked n l) : g.Recast g' l :=
  fun m hm => h m (.head hl hm)

theorem Recast.linked (h : g.Recast g' n) (hl : g.Linked n l) : g'.Linked n l := by
  unfold Linked links at hl ⊢
  rwa [← (h n .refl).links_eq]

theorem ActsTotally.of_linked (h : g.ActsTotally n) (hl : g.Linked n l) : g.ActsTotally l :=
  fun m hm => h m (.head hl hm)

theorem ActsTotally.actsPurely (h : g.ActsTotally n) : g.ActsPurely n := by
  intro m hr
  have htotal := h m hr
  unfold Node.isPure
  unfold Node.IsTotal at htotal
  split
  · next heq =>
    rw [heq] at htotal
    exact htotal.isPure
  · rfl

end Grammar

/-! ## §2 Cursors -/

namespace Parse

variable {cx cx' : Setting} {att att' : Attempt} {source : Source}

/-- The same position and the same guard. The events may differ. -/
structure InStep (st st' : Progress) : Prop where
  pos : st.pos = st'.pos
  guard : st.guard = st'.guard

/-- Two attempts that have ended alike: both with a match that ends at the same
position, both without, or both with the same fault; and with the cursor at the
same position. Values may differ. -/
inductive Parallel : Outcome × Progress → Outcome × Progress → Prop where
  | matched {v v' : Value} {pos : Int} {st st' : Progress} (h : InStep st st') :
    Parallel (.matched v pos, st) (.matched v' pos, st')
  | noMatch {st st' : Progress} (h : InStep st st') : Parallel (.noMatch, st) (.noMatch, st')
  | failed {fault : Fault} {st st' : Progress} (h : InStep st st') :
    Parallel (.failed fault, st) (.failed fault, st')

/-- Two ways of trying that end alike wherever they start alike. -/
def Alongside (a a' : Progress → Outcome × Progress) : Prop :=
  ∀ st st', InStep st st' → Parallel (a st) (a' st')

theorem InStep.note {st st' : Progress} (h : InStep st st') (e e' : Event) :
    InStep (st.note e) (st'.note e') := ⟨h.pos, h.guard⟩

/-- Both go back, or neither can. -/
theorem restore_cases {st st' : Progress} (h : InStep st st') (source : Source) (pos : Int) :
    (∃ fault, st.restore source pos = .error fault ∧ st'.restore source pos = .error fault) ∨
      ∃ back back', st.restore source pos = .ok back ∧ st'.restore source pos = .ok back' ∧
        InStep back back' := by
  unfold Progress.restore
  cases Cursor.checkPosition source pos with
  | error fault => exact .inl ⟨fault, rfl, rfl⟩
  | ok => exact .inr ⟨_, _, rfl, rfl, rfl, h.guard⟩

theorem alongside_range (bounds : CharRange) :
    Alongside (attemptRange source bounds) (attemptRange source bounds) := by
  intro st st' h
  unfold attemptRange
  rw [h.pos]
  split
  · exact .noMatch h
  · split
    · exact .failed h
    · split
      · exact .matched ⟨rfl, h.guard⟩
      · exact .noMatch h

theorem alongside_end : Alongside (attemptEnd source) (attemptEnd source) := by
  intro st st' h
  unfold attemptEnd
  rw [h.pos]
  split
  · exact .matched h
  · exact .noMatch h

theorem alongside_guarded {a a' : Progress → Outcome × Progress} (h : Alongside a a')
    (id : NodeId) : Alongside (guarded id a) (guarded id a') := by
  intro st st' hst
  unfold guarded Progress.enter
  rw [hst.guard]
  cases st'.guard.enter with
  | error fault => exact .failed hst
  | ok inside =>
    have hbody := h ({ st with guard := inside }.note (.entered id st.pos inside.currentDepth))
      ({ st' with guard := inside }.note (.entered id st'.pos inside.currentDepth)) ⟨hst.pos, rfl⟩
    simp only
    generalize a _ = r, a' _ = r' at hbody
    have hleave : ∀ {st st' : Progress}, InStep st st' → InStep (st.leave id) (st'.leave id) :=
      fun h => ⟨h.pos, by simp only [Progress.leave, Progress.note, h.guard]⟩
    cases hbody with
    | matched h => exact .matched (hleave h)
    | noMatch h => exact .noMatch (hleave h)
    | failed h => exact .failed (hleave h)

theorem alongside_all (ids : List NodeId) (h : ∀ l ∈ ids, Alongside (att l) (att' l))
    (values values' : List Value) : Alongside (attemptAll att ids values)
      (attemptAll att' ids values') := by
  induction ids generalizing values values' with
  | nil =>
    intro st st' hst
    unfold attemptAll
    rw [hst.pos]
    exact .matched hst
  | cons id rest ih =>
    intro st st' hst
    have hid := h id List.mem_cons_self st st' hst
    unfold attemptAll
    generalize att id st = r, att' id st' = r' at hid
    cases hid with
    | matched hst => exact ih (fun l hl => h l (List.mem_cons_of_mem id hl)) _ _ _ _ hst
    | noMatch hst => exact .noMatch hst
    | failed hst => exact .failed hst

theorem alongside_either {first second : NodeId} (hfirst : Alongside (att first) (att' first))
    (hsecond : Alongside (att second) (att' second)) :
    Alongside (attemptEither att source first second)
      (attemptEither att' source first second) := by
  intro st st' hst
  have hone := hfirst st st' hst
  unfold attemptEither
  rw [hst.pos]
  generalize att first st = r, att' first st' = r' at hone
  cases hone with
  | matched h => exact .matched h
  | noMatch h =>
    obtain ⟨fault, heq, heq'⟩ | ⟨back, back', heq, heq', hback⟩ := restore_cases h source st'.pos
    · simp only [heq, heq']
      exact .failed h
    · simp only [heq, heq']
      exact hsecond back back' hback
  | failed h => exact .failed h

/-- A repetition goes on by the position. -/
theorem alongside_many {child : NodeId} (h : Alongside (att child) (att' child)) (id : NodeId)
    (tries : Nat) (values values' : List Value) :
    Alongside (attemptMany att source id child tries values)
      (attemptMany att' source id child tries values') := by
  induction tries generalizing values values' with
  | zero =>
    intro st st' hst
    unfold attemptMany
    rw [hst.pos]
    exact .matched hst
  | succ tries ih =>
    intro st st' hst
    have htry := h _ _ (hst.note (.tried id st.pos st.guard.currentDepth)
      (.tried id st'.pos st'.guard.currentDepth))
    unfold attemptMany
    generalize att child _ = r, att' child _ = r' at htry
    cases htry with
    | @matched v v' _ after after' h =>
      simp only [hst.pos, h.pos]
      split
      · exact .matched h
      · exact ih _ _ _ _ h
    | noMatch h =>
      rw [hst.pos]
      obtain ⟨fault, heq, heq'⟩ | ⟨back, back', heq, heq', hback⟩ := restore_cases h source st'.pos
      · simp only [heq, heq']
        exact .failed h
      · simp only [heq, heq', hback.pos]
        exact .matched hback
    | failed h => exact .failed h

/-- Total actions turn a match into a match. -/
theorem parallel_action {act act' : Action} (h : act.IsTotal) (h' : act'.IsTotal) (id : NodeId)
    {r r' : Outcome × Progress} (hr : Parallel r r') :
    Parallel (applyAction cx id act r) (applyAction cx' id act' r') := by
  obtain ⟨f, hf⟩ := h
  obtain ⟨f', hf'⟩ := h'
  cases hr with
  | matched h =>
    simp only [applyAction, hf, hf']
    exact .matched (h.note ..)
  | noMatch h => exact .noMatch h
  | failed h => exact .failed h

theorem alongside_actor (hsource : cx.source = cx'.source)
    (hnode : Node.Recast (cx.grammar.node n) (cx'.grammar.node n))
    (htotal : (cx.grammar.node n).IsTotal) (htotal' : (cx'.grammar.node n).IsTotal)
    (h : ∀ l, cx.grammar.Linked n l → Alongside (att l) (att' l)) :
    Alongside (attemptActor cx att n) (attemptActor cx' att' n) := by
  unfold Grammar.Linked Grammar.links at h
  intro st st' hst
  unfold attemptActor
  generalize cx.grammar.node n = a, cx'.grammar.node n = b at hnode htotal htotal' h
  rw [hsource]
  cases hnode with
  | action =>
    have hchild := alongside_guarded (h _ (List.mem_singleton_self _)) n st st' hst
    exact parallel_action htotal htotal' n hchild
  | same =>
    cases a with
    | abstract | reference => exact .failed hst
    | range bounds => exact alongside_range bounds st st' hst
    | endOfInput => exact alongside_end st st' hst
    | sequence ids => exact alongside_guarded (alongside_all ids h [] []) n st st' hst
    | choice first second =>
      have hfirst := h first List.mem_cons_self
      have hsecond := h second (List.mem_cons_of_mem first List.mem_cons_self)
      exact alongside_guarded (alongside_either hfirst hsecond) n st st' hst
    | repetition c =>
      refine alongside_guarded (fun st st' hst => ?_) n st st' hst
      have htries : st.remaining cx'.source = st'.remaining cx'.source := by
        unfold Progress.remaining
        rw [hst.pos]
      rw [htries]
      exact alongside_many (h c (List.mem_singleton_self c)) n _ [] [] st st' hst
    | action c act =>
      have hchild := alongside_guarded (h _ (List.mem_singleton_self _)) n st st' hst
      exact parallel_action htotal htotal' n hchild

/-- Parses with grammars that differ in total actions go side by side. -/
theorem alongside_attempt (hsource : cx.source = cx'.source) (hm : cx.mode = .reject)
    (hm' : cx'.mode = .reject) (hrecast : cx.grammar.Recast cx'.grammar n)
    (htotal : cx.grammar.ActsTotally n) (htotal' : cx'.grammar.ActsTotally n) (levels : Nat) :
    Alongside (attempt cx levels n) (attempt cx' levels n) := by
  induction levels generalizing n with
  | zero =>
    rw [attempt, attempt, attemptNode_reject hm, attemptNode_reject hm']
    refine alongside_actor hsource (hrecast n .refl) (htotal n .refl) (htotal' n .refl) ?_
    intro _ _ st st' hst
    simp only [hst.guard]
    exact .failed hst
  | succ levels ih =>
    rw [attempt, attempt, attemptNode_reject hm, attemptNode_reject hm']
    refine alongside_actor hsource (hrecast n .refl) (htotal n .refl) (htotal' n .refl) ?_
    intro l hl
    exact ih (hrecast.of_linked hl) (htotal.of_linked hl) (htotal'.of_linked (hrecast.linked hl))

end Parse

/-! ## §3 Trees -/

/-- How a match has come about: what was matched, without what actions make of
it. Of a choice there is the part that has matched, of a repetition the parts
that are recorded. -/
inductive ParseTree where
  /-- A character of a range, or the end of the source. -/
  | leaf (value : Value)
  | sequence (parts : List ParseTree)
  | choice (part : ParseTree)
  | repetition (parts : List ParseTree)
  /-- A match on whose value the action of a node is called. -/
  | action (node : NodeId) (part : ParseTree)

namespace Peg

/-- The tree matcher of a node, over tree matchers for its links. -/
def treeNode (source : Source) (inner : NodeId → Matcher ParseTree) (id : NodeId) :
    Node → Matcher ParseTree
  | .abstract => fun _ => .failed (.abstractOperation .parse)
  | .range bounds => fun p => (character source bounds p).map .leaf
  | .sequence children _ => fun p => (inOrder (children.map inner) p).map .sequence
  | .choice first second _ => fun p => (either (inner first) (inner second) p).map .choice
  | .repetition child _ => fun p => (many source.length (inner child) p).map .repetition
  | .action child _ _ => fun p => (inner child p).map (.action id)
  | .endOfInput => fun p => (atEnd source p).map .leaf
  | .reference name _ => fun _ => .failed (.uncompressedReference (Node.labelOf id name))

/-- The tree of what a node matches, where composites may nest as deeply as the
headroom allows. No action is called. -/
def tree (g : Grammar) (source : Source) (limit : Int) : Nat → NodeId → Matcher ParseTree
  | 0, id =>
    if (g.node id).isComposite then fun _ => .failed (.depthLimitExceeded limit)
    else treeNode source (fun _ _ => .noMatch) id (g.node id)
  | headroom + 1, id => treeNode source (tree g source limit headroom) id (g.node id)

end Peg

mutual

/-- The text of a tree: its leaves, from left to right. -/
def ParseTree.text : ParseTree → List Char
  | .leaf value => value.join.toList
  | .sequence parts => ParseTree.texts parts
  | .choice part => part.text
  | .repetition parts => ParseTree.texts parts
  | .action _ part => part.text

/-- The texts of trees, one after another. -/
def ParseTree.texts : List ParseTree → List Char
  | [] => []
  | part :: rest => part.text ++ ParseTree.texts rest

end

theorem ParseTree.texts_eq (parts : List ParseTree) :
    ParseTree.texts parts = parts.flatMap ParseTree.text := by
  induction parts with
  | nil => rw [ParseTree.texts, List.flatMap_nil]
  | cons part rest ih => rw [ParseTree.texts, ih, List.flatMap_cons]

namespace Peg

theorem reads_treeNode {source : Source} {inner : NodeId → Matcher ParseTree}
    (h : ∀ l, Reads source ParseTree.text (inner l)) (id : NodeId) (node : Node) :
    Reads source ParseTree.text (treeNode source inner id node) := by
  cases node with
  | abstract | reference => exact reads_failed _
  | range bounds => exact (reads_character bounds).map fun v => by rw [ParseTree.text]
  | endOfInput => exact reads_atEnd.map fun v => by rw [ParseTree.text]
  | sequence ids =>
    refine Reads.map (reads_inOrder fun m hm => ?_) fun parts => by
      rw [ParseTree.text, ParseTree.texts_eq]
    obtain ⟨l, _, rfl⟩ := List.mem_map.1 hm
    exact h l
  | choice first second =>
    exact Reads.map ((h first).either (h second)) fun part => by rw [ParseTree.text]
  | repetition c =>
    exact Reads.map (h c).many fun parts => by rw [ParseTree.text, ParseTree.texts_eq]
  | action c => exact (h c).map fun part => by rw [ParseTree.text]

/-- A tree has the text that was matched for its leaves, and no other. -/
theorem reads_tree (g : Grammar) (source : Source) (limit : Int) (headroom : Nat) (id : NodeId) :
    Reads source ParseTree.text (tree g source limit headroom id) := by
  induction headroom generalizing id with
  | zero =>
    unfold tree
    split
    · exact reads_failed _
    · exact reads_treeNode (fun _ => reads_noMatch) id _
  | succ headroom ih =>
    unfold tree
    exact reads_treeNode ih id _

end Peg

/-! ## §4 Values -/

/-- What the action of a node makes of a value. A node without an action passes
it on. -/
def Grammar.act (g : Grammar) (id : NodeId) (v : Value) : Except Fault Value :=
  match g.node id with
  | .action _ act _ => act.apply (fun _ => none) v
  | _ => .ok v

mutual

/-- The value of a tree: the actions of a grammar, called from the leaves up. -/
def ParseTree.value (g : Grammar) : ParseTree → Except Fault Value
  | .leaf value => .ok value
  | .sequence parts => (ParseTree.values g parts).map .tuple
  | .choice part => part.value g
  | .repetition parts => (ParseTree.values g parts).map .tuple
  | .action node part =>
    match part.value g with
    | .ok value => g.act node value
    | .error fault => .error fault

/-- The values of trees, from left to right. -/
def ParseTree.values (g : Grammar) : List ParseTree → Except Fault (List Value)
  | [] => .ok []
  | part :: rest =>
    match part.value g with
    | .ok value => (ParseTree.values g rest).map (value :: ·)
    | .error fault => .error fault

end

namespace Peg

variable {α β γ δ : Type} {R : α → β → Prop} {S : γ → δ → Prop}

/-- The same answer, with related values. -/
inductive Answer.Lift (R : α → β → Prop) : Answer α → Answer β → Prop where
  | matched {a : α} {b : β} {pos : Nat} (h : R a b) : Lift R (.matched a pos) (.matched b pos)
  | noMatch : Lift R .noMatch .noMatch
  | failed {fault : Fault} : Lift R (.failed fault) (.failed fault)

theorem Answer.Lift.map {a : Answer α} {b : Answer β} {f : α → γ} {f' : β → δ}
    (h : Lift R a b) (hf : ∀ a b, R a b → S (f a) (f' b)) : Lift S (a.map f) (b.map f') := by
  cases h with
  | matched h => exact .matched (hf _ _ h)
  | noMatch => exact .noMatch
  | failed => exact .failed

theorem Answer.Lift.mapRight {S : α → δ → Prop} {a : Answer α} {b : Answer β} {f : β → δ}
    (h : Lift R a b) (hf : ∀ a b, R a b → S a (f b)) : Lift S a (b.map f) := by
  cases h with
  | matched h => exact .matched (hf _ _ h)
  | noMatch => exact .noMatch
  | failed => exact .failed

theorem Answer.Lift.orElse {a a' : Answer α} {b b' : Answer β} (h : Lift R a b)
    (h' : Lift R a' b') : Lift R (a.orElse a') (b.orElse b') := by
  cases h with
  | matched h => exact .matched h
  | noMatch => exact h'
  | failed => exact .failed

open Answer (Lift)

theorem inOrder_lift {ids : List NodeId} {m : NodeId → Matcher α} {m' : NodeId → Matcher β}
    (h : ∀ l ∈ ids, ∀ p, Lift R (m l p) (m' l p)) (p : Nat) :
    Lift (List.Forall₂ R) (inOrder (ids.map m) p) (inOrder (ids.map m') p) := by
  induction ids generalizing p with
  | nil => exact .matched .nil
  | cons id rest ih =>
    have hid := h id List.mem_cons_self p
    have hrest := ih fun l hl => h l (List.mem_cons_of_mem id hl)
    simp only [List.map_cons, inOrder]
    generalize m id p = a, m' id p = b at hid
    cases hid with
    | matched hv => exact (hrest _).map fun _ _ hvs => .cons hv hvs
    | noMatch => exact .noMatch
    | failed => exact .failed

/-- Runs of matches are recorded by how far each match reaches. -/
theorem many_lift {length : Nat} {m : Matcher α} {m' : Matcher β}
    (h : ∀ p, Lift R (m p) (m' p)) (p : Nat) :
    Lift (List.Forall₂ R) (many length m p) (many length m' p) := by
  induction hleft : length - p using Nat.strongRecOn generalizing p with
  | ind left ih =>
    have hone := h p
    rw [many, many]
    generalize m p = a, m' p = b at hone
    cases hone with
    | @matched v v' q hv =>
      simp only
      split
      · next hlt => exact (ih (length - q) (by omega) q rfl).map fun _ _ hvs => .cons hv hvs
      · exact .matched .nil
    | noMatch => exact .matched .nil
    | failed => exact .failed

/-- A value is what a grammar's actions make of a tree. -/
def ValueOf (g : Grammar) (v : Value) (t : ParseTree) : Prop := t.value g = .ok v

theorem values_of_forall₂ {vs : List Value} {ts : List ParseTree}
    (h : List.Forall₂ (ValueOf g) vs ts) : ParseTree.values g ts = .ok vs := by
  induction h with
  | nil => rw [ParseTree.values]
  | cons hv _ ih =>
    rw [ParseTree.values, hv, ih]
    rfl

theorem valueOf_sequence {vs : List Value} {ts : List ParseTree}
    (h : List.Forall₂ (ValueOf g) vs ts) : ValueOf g (.tuple vs) (.sequence ts) := by
  unfold ValueOf
  rw [ParseTree.value, values_of_forall₂ h]
  rfl

theorem valueOf_choice {v : Value} {t : ParseTree} (h : ValueOf g v t) :
    ValueOf g v (.choice t) := by
  unfold ValueOf
  rw [ParseTree.value]
  exact h

theorem valueOf_repetition {vs : List Value} {ts : List ParseTree}
    (h : List.Forall₂ (ValueOf g) vs ts) : ValueOf g (.tuple vs) (.repetition ts) := by
  unfold ValueOf
  rw [ParseTree.value, values_of_forall₂ h]
  rfl

/-- A total action keeps a match a match, and its value the value of the tree. -/
theorem acting_lift {a : Matcher Value} {a' : Matcher ParseTree} {c : NodeId} {act : Action}
    {mark : Bool} (hnode : g.node n = .action c act mark) (htotal : act.IsTotal) {p : Nat}
    (h : Lift (ValueOf g) (a p) (a' p)) :
    Lift (ValueOf g) (acting (act.apply fun _ => none) a p) ((a' p).map (.action n)) := by
  obtain ⟨f, hf⟩ := htotal
  unfold acting
  generalize a p = r, a' p = r' at h
  cases h with
  | matched hv =>
    simp only [Answer.andThen, Answer.map, hf]
    refine .matched ?_
    unfold ValueOf at hv ⊢
    rw [ParseTree.value, hv]
    simp only [Grammar.act, hnode, hf]
  | noMatch => exact .noMatch
  | failed => exact .failed

theorem leaf_lift (g : Grammar) (a : Answer Value) : Lift (ValueOf g) a (a.map .leaf) := by
  cases a with
  | matched v p => exact .matched (by unfold ValueOf; rw [ParseTree.value])
  | noMatch => exact .noMatch
  | failed => exact .failed

/-- The matcher of a node follows the tree matcher of its recast node. -/
theorem evalNode_lift {source : Source} {m : NodeId → Matcher Value}
    {m' : NodeId → Matcher ParseTree} (hnode : Node.Recast (g.node n) (g'.node n))
    (htotal : (g'.node n).IsTotal)
    (h : ∀ l, g.Linked n l → ∀ p, Lift (ValueOf g') (m l p) (m' l p)) (p : Nat) :
    Lift (ValueOf g') (evalNode source m n (g'.node n) p) (treeNode source m' n (g.node n) p) := by
  unfold Grammar.Linked Grammar.links at h
  generalize ha : g.node n = a, hb : g'.node n = b at hnode htotal h
  cases hnode with
  | action => exact acting_lift hb htotal (h _ (List.mem_singleton_self _) p)
  | same =>
    cases a with
    | abstract | reference => exact .failed
    | range bounds => exact leaf_lift g' _
    | endOfInput => exact leaf_lift g' _
    | sequence ids => exact (inOrder_lift h p).map fun _ _ => valueOf_sequence
    | choice first second =>
      have hfirst := h first List.mem_cons_self p
      have hsecond := h second (List.mem_cons_of_mem first List.mem_cons_self) p
      exact (hfirst.orElse hsecond).mapRight fun _ _ => valueOf_choice
    | repetition c =>
      exact (many_lift (h c (List.mem_singleton_self c)) p).map fun _ _ => valueOf_repetition
    | action c act => exact acting_lift hb htotal (h _ (List.mem_singleton_self _) p)

/-- **Values come from trees**: whatever actions a grammar is given, what it
answers is what the tree matcher answers, with the value of the tree. -/
theorem eval_lift {source : Source} {limit : Int} (hrecast : g.Recast g' n)
    (htotal : g'.ActsTotally n) (headroom : Nat) (p : Nat) :
    Lift (ValueOf g') (eval g' source limit headroom n p) (tree g source limit headroom n p) := by
  have hnode := hrecast n .refl
  induction headroom generalizing n p with
  | zero =>
    unfold eval tree
    rw [hnode.isComposite_eq]
    split
    · exact .failed
    · exact evalNode_lift hnode (htotal n .refl) (fun _ _ _ => .noMatch) p
  | succ headroom ih =>
    refine evalNode_lift hnode (htotal n .refl) (fun l hl q => ?_) p
    have hl' := hrecast.linked hl
    exact ih (hrecast.of_linked hl) (htotal.of_linked hl') q (hrecast l (.single hl))

end Peg

/-! ## §5 Parses -/

namespace Parse

open Peg (Answer)

/-- **Actions have no part in recognition**: parses with grammars that differ in
total actions alone end alike, with the cursor at the same position, and what
each makes of a match is what its actions make of one tree, whose leaves are the
text of the match. -/
theorem run_recast (hrecast : g.Recast g' n) (htotal : g.ActsTotally n)
    (htotal' : g'.ActsTotally n) (source : Source)
    (readDepth readDepth' : Int → String → Option Int) (guard : DepthGuard) {p : Nat}
    (hp : p ≤ source.length) :
    Parallel (run ⟨g, source, .reject, readDepth⟩ n p guard)
        (run ⟨g', source, .reject, readDepth'⟩ n p guard) ∧
      ∀ v q, (run ⟨g, source, .reject, readDepth⟩ n p guard).1 = .matched v q →
        ∃ (t : ParseTree) (e : Nat) (v' : Value),
          Peg.tree g source guard.maxDepth guard.headroom n p = .matched t e ∧ q = e ∧
          source.Spells p t.text e ∧ t.value g = .ok v ∧ t.value g' = .ok v' ∧
          (run ⟨g', source, .reject, readDepth'⟩ n p guard).1 = .matched v' q := by
  let cx : Setting := ⟨g, source, .reject, readDepth⟩
  let cx' : Setting := ⟨g', source, .reject, readDepth'⟩
  let st : Progress := { pos := p, guard, events := [] }
  refine ⟨?_, fun v q hv => ?_⟩
  · exact @alongside_attempt n cx cx' rfl rfl rfl hrecast htotal htotal' guard.headroom st st
      ⟨rfl, rfl⟩
  · have hrun := (follows_attempt cx rfl guard.headroom guard (Nat.le_refl _) htotal.actsPurely st
      p hp rfl rfl).outcome_eq
    have hrun' := (follows_attempt cx' rfl guard.headroom guard (Nat.le_refl _) htotal'.actsPurely
      st p hp rfl rfl).outcome_eq
    have hlift : Answer.Lift (Peg.ValueOf g) (Peg.eval g source guard.maxDepth _ n p) _ :=
      Peg.eval_lift (.refl g n) htotal guard.headroom p
    have hlift' : Answer.Lift (Peg.ValueOf g') (Peg.eval g' source guard.maxDepth _ n p) _ :=
      Peg.eval_lift hrecast htotal' guard.headroom p
    have hread := Peg.reads_tree g source guard.maxDepth guard.headroom n p
    replace hv := hrun.symm.trans hv
    rw [show (run cx' n p guard).1 = _ from hrun']
    generalize Peg.eval g source _ _ n p = a at hv hlift
    generalize Peg.eval g' source _ _ n p = a' at hlift'
    generalize Peg.tree g source _ _ n p = b at hlift hlift' hread ⊢
    cases hlift with
    | @matched _ t e ht =>
      cases hv
      cases hlift' with
      | @matched v' _ _ ht' => exact ⟨t, e, v', rfl, rfl, hread t e hp rfl, ht, ht', rfl⟩
    | noMatch | failed => cases hv

/-- A letter and `b`, or else any number of letters, where a letter is an `a`
that is acted on. -/
def letters (act : Action) : Grammar :=
  ⟨#[.choice 1 2 false, .sequence [3, 4] false, .repetition 3 false, .action 5 act false,
    .range (.single 'b'), .range (.single 'a')]⟩

theorem reaches_letters {act : Action} {m : NodeId} (h : (letters act).Reaches 0 m) :
    m ∈ [0, 1, 2, 3, 4, 5] :=
  h.mem_of_closed (by decide) (by simp [letters, Grammar.links, Grammar.node, Node.links])

/-- The parse of two letters, which finds the `b` missing first. -/
def twoLetters (act : Action) : Outcome × Progress :=
  run ⟨letters act, .ofString "aa", .reject, fun _ _ => none⟩ 0 (0 : Nat) ⟨9, 0⟩

/-- The text inside the value of a match, and where the match ends. -/
def joined : Outcome → Option (String × Int)
  | .matched value pos => some (value.join, pos)
  | _ => none

theorem ne_failed_of_joined {outcome : Outcome} {read : String × Int}
    (h : joined outcome = some read) (fault : Fault) : outcome ≠ .failed fault := by
  rintro rfl
  cases h

/-- The first letter is acted on, given up and acted on again. That actions yield
nothing does not keep letters from matching. -/
theorem run_recast_letters :
    (letters (.tag "a")).Recast (letters .nothing) 0 ∧ (letters (.tag "a")).ActsTotally 0 ∧
      (letters .nothing).ActsTotally 0 ∧ 0 ≤ (Source.ofString "aa").length ∧
      Parallel (twoLetters (.tag "a")) (twoLetters .nothing) ∧
      ∃ (t : ParseTree) (v v' : Value), t.text = ['a', 'a'] ∧
        t.value (letters (.tag "a")) = .ok v ∧ v.join = "aaaa" ∧
        t.value (letters .nothing) = .ok v' ∧ v'.join = "" := by
  have hrecast : (letters (.tag "a")).Recast (letters .nothing) 0 := by
    intro m hr
    have hall : ∀ k ∈ [0, 1, 2, 3, 4, 5],
        Node.Recast ((letters (.tag "a")).node k) ((letters .nothing).node k) := by
      simp only [List.forall_mem_cons]
      exact ⟨.same _, .same _, .same _, .action, .same _, .same _, nofun⟩
    exact hall m (reaches_letters hr)
  have htotal : ∀ {act : Action}, act.IsTotal → (letters act).ActsTotally 0 := by
    intro act hact m hr
    have hall : ∀ k ∈ [0, 1, 2, 3, 4, 5], ((letters act).node k).IsTotal := by
      simp only [List.forall_mem_cons]
      exact ⟨trivial, trivial, trivial, hact, trivial, trivial, nofun⟩
    exact hall m (reaches_letters hr)
  have htag : (letters (.tag "a")).ActsTotally 0 := htotal ⟨_, fun _ _ => rfl⟩
  have hnothing : (letters .nothing).ActsTotally 0 := htotal ⟨_, fun _ _ => rfl⟩
  obtain ⟨hparallel, hvalue⟩ := run_recast hrecast htag hnothing (.ofString "aa")
    (fun _ _ => none) (fun _ _ => none) ⟨9, 0⟩ (Nat.zero_le _)
  have hrun : joined (twoLetters (.tag "a")).1 = some ("aaaa", 2) := by decide +kernel
  have hrun' : joined (twoLetters .nothing).1 = some ("", 2) := by decide +kernel
  cases hout : (twoLetters (.tag "a")).1 with
  | matched v q =>
    rw [hout] at hrun
    obtain ⟨hjoin, rfl⟩ := Prod.mk.inj (Option.some.inj hrun)
    obtain ⟨t, e, v', -, he, htext, hv, hv', hsame⟩ := hvalue v 2 hout
    rw [show (twoLetters .nothing).1 = .matched v' 2 from hsame] at hrun'
    obtain rfl : e = 2 := by omega
    exact ⟨hrecast, htag, hnothing, Nat.zero_le _, hparallel, t, v, v',
      Source.Spells.iff_toList.1 htext, hv, hjoin, hv', congrArg Prod.fst (Option.some.inj hrun')⟩
  | noMatch | failed =>
    rw [hout] at hrun
    cases hrun

end Parse

end PegGraph
