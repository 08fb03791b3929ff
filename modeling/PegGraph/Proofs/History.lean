/-
PegGraph.Proofs.History — what a store can have been through.

  §1 Calls    — the operations that nodes are made and changed by.
  §2 Moves    — the three ways in which these change a store: a new node, a
                reference bound, a pass of compression.
  §3 Links    — links stay inside the store.
  §4 Freedom  — where no reference is reached, none ever will be.
  §5 Sealing  — as long as no pass fails, marked nodes lead to finished ones.
  §6 Calls as moves
  §7 Histories — what holds along every one of them.

Every property of histories here is shown for one move and carried along a
history by induction; how calls are composed of moves is shown once
(`History.moves`).
-/
import PegGraph.Parser
import PegGraph.Proofs.Marking

namespace PegGraph

open Relation (ReflTransGen)

/-! ## §1 Calls -/

/-- An operation on a store. -/
inductive Call where
  | range (bounds : CharRange)
  | sequence (children : List NodeId)
  | oneOf (first second : NodeId) (rest : List NodeId)
  | repetition (child : NodeId)
  | action (child : NodeId) (act : Action)
  | endOfInput
  | reference (name : Option String)
  | abstract
  | followedBy (id other : NodeId)
  | bind (id target : NodeId)
  | compress (root : NodeId)
  | prepare (root : NodeId) (config : Parser.Config)

namespace Call

/-- The nodes that a call is given. -/
def arguments : Call → List NodeId
  | .range _ | .endOfInput | .reference _ | .abstract => []
  | .sequence children => children
  | .oneOf first second rest => first :: second :: rest
  | .repetition child | .action child _ => [child]
  | .followedBy id other => [id, other]
  | .bind id target => [id, target]
  | .compress root | .prepare root _ => [root]

/-- The store after a call. A call that is refused, or stops with a fault, leaves
one too. -/
def run (g : Grammar) : Call → Grammar
  | .range bounds => (Grammar.range bounds g).2
  | .sequence children => (Grammar.sequence children g).2
  | .oneOf first second rest => (Grammar.oneOf first second rest g).2
  | .repetition child => (Grammar.repetition child g).2
  | .action child act => (Grammar.action child act g).2
  | .endOfInput => (Grammar.endOfInput g).2
  | .reference name => (Grammar.reference name g).2
  | .abstract => (Grammar.abstract g).2
  | .followedBy id other => (Grammar.followedBy id other g).2
  | .bind id target =>
    match g.bind id target with
    | .ok g => g
    | .error _ => g
  | .compress root => (g.compress root).2
  | .prepare root config => (Parser.prepare root config g).2

/-- Which passes of compression a history may contain, by root and result. -/
abbrev Passes := NodeId → Except Fault NodeId → Prop

/-- Any pass. -/
def Passes.any : Passes := fun _ _ => True

/-- A pass that succeeds. -/
def Passes.successful : Passes := fun _ r => ∃ u, r = .ok u

/-- Whether the pass that a call makes, if it makes one, is of the given kind. -/
def Makes (passes : Passes) (g : Grammar) : Call → Prop
  | .compress root => passes root (g.compress root).1
  | .prepare root _ => g.unboundReferences root = [] → passes root (g.compress root).1
  | _ => True

theorem makes_any (call : Call) (g : Grammar) : call.Makes .any g := by
  cases call with
  | prepare => exact fun _ => trivial
  | _ => trivial

end Call

namespace Grammar

/-- One call, on nodes that are there. -/
def Step (passes : Call.Passes) (g g' : Grammar) : Prop :=
  ∃ call : Call, (∀ id ∈ call.arguments, id < g.size) ∧ call.Makes passes g ∧ call.run g = g'

/-- Any number of calls, one after another. -/
abbrev History (passes : Call.Passes) : Grammar → Grammar → Prop := ReflTransGen (Step passes)

/-! ## §2 Moves -/

/-- The smallest changes of a store. -/
inductive Move (passes : Call.Passes) (g : Grammar) : Grammar → Prop where
  /-- A node without a mark is added. -/
  | add {n : Node} (hu : n.compressed = false) (hin : ∀ l ∈ n.links, l < g.size) :
      Move passes g (add n g).2
  /-- A reference is bound. -/
  | bind {g' id target} (h : g.bind id target = .ok g') (hin : target < g.size) : Move passes g g'
  /-- A pass is made. -/
  | pass {g' root r} (h : g.compress root = (r, g')) (hp : passes root r) : Move passes g g'

variable {g g' : Grammar} {passes : Call.Passes} {n l t u root id target : NodeId}

/-- A node after another was added. -/
theorem node_add (m : Node) (n : NodeId) :
    (add m g).2.node n = if n = g.size then m else g.node n := by
  split
  · next h => rw [h, node_add_self]
  · next h =>
    by_cases hlt : n < g.size
    · exact node_add_of_lt m hlt
    · have hge : g.size ≤ n := Nat.le_of_not_lt hlt
      rw [node_of_size_le hge, node_of_size_le]
      rw [size_add]
      exact Nat.lt_of_le_of_ne hge (Ne.symm h)

theorem bind_of_unbound {name : Option String} (h : g.node id = .reference name none) :
    g.bind id t = .ok (g.set id (.reference name (some t))) := by
  unfold Grammar.bind
  rw [h]

/-- Only references that have no target are bound, and nothing else changes. -/
theorem bind_eq_ok (h : g.bind id target = .ok g') : ∃ name, g.node id = .reference name none ∧
    g'.size = g.size ∧
    ∀ n, g'.node n = if n = id then .reference name (some target) else g.node n := by
  unfold bind at h
  split at h
  · next name hn =>
    cases h
    refine ⟨name, hn, size_set .., node_set fun hout => ?_⟩
    rw [node_of_size_le hout] at hn
    cases hn
  · cases h
  · cases h

theorem bind_node_eq (h : g.bind id target = .ok g') (hn : (g.node n).isReference = false) :
    g'.node n = g.node n := by
  obtain ⟨name, hid, _, hnode⟩ := bind_eq_ok h
  rw [hnode, if_neg]
  rintro rfl
  rw [hid] at hn
  cases hn

/-! ## §3 Links -/

/-- Links lead to nodes that are there. -/
def LinksInside (g : Grammar) : Prop := ∀ n l, g.Linked n l → l < g.size

theorem LinksInside.reaches (h : g.LinksInside) (hr : g.Reaches n l) (hn : n < g.size) :
    l < g.size := by
  induction hr with
  | refl => exact hn
  | tail _ hl _ => exact h _ _ hl

theorem Move.size_le (h : Move passes g g') : g.size ≤ g'.size := by
  cases h with
  | add => rw [size_add]; exact Nat.le_succ _
  | bind h =>
    obtain ⟨_, _, hsize, _⟩ := bind_eq_ok h
    exact Nat.le_of_eq hsize.symm
  | pass h => exact Nat.le_of_eq (pass_iff_compress.2 h).sameShape.size.symm

theorem Spliced.linksInside (h : Spliced g g') (hin : g.LinksInside) : g'.LinksInside := by
  intro n l hl
  obtain ⟨l₀, hl₀, hsub⟩ := h.exists_link hl
  rw [h.size]
  exact hin.reaches hsub.reaches (hin n l₀ hl₀)

theorem Move.linksInside (h : Move passes g g') (hin : g.LinksInside) : g'.LinksInside := by
  cases h with
  | @add m _ hm =>
    intro n l hl
    rw [size_add]
    unfold Linked links at hl
    rw [node_add] at hl
    split at hl
    · exact Nat.lt_succ_of_lt (hm l hl)
    · exact Nat.lt_succ_of_lt (hin n l hl)
  | bind h htarget =>
    intro n l hl
    obtain ⟨_, _, hsize, hnode⟩ := bind_eq_ok h
    rw [hsize]
    unfold Linked links at hl
    rw [hnode] at hl
    split at hl
    · cases List.mem_singleton.1 hl
      exact htarget
    · exact hin n l hl
  | pass h => exact (pass_iff_compress.2 h).spliced.linksInside hin

/-! ## §4 Freedom -/

/-- A node that is there and from which no reference is reached keeps that,
whatever is done to the store. -/
theorem Move.referenceFree (h : Move passes g g') (hin : g.LinksInside) (hu : u < g.size)
    (hfree : g.ReferenceFree u) : g'.ReferenceFree u := by
  -- A move that leaves all alone that is reached changes nothing about it.
  have hkeep : (∀ n, g.Reaches u n → g'.node n = g.node n) → g'.ReferenceFree u := by
    intro hsame n hr
    have hold : g.Reaches u n := by
      induction hr with
      | refl => exact .refl
      | @tail b c _ hl ih =>
        exact ih.tail ((linked_congr (hsame b ih)).1 hl)
    rw [hsame n hold]
    exact hfree n hold
  cases h with
  | add =>
    refine hkeep fun n hr => ?_
    exact node_add_of_lt _ (hin.reaches hr hu)
  | bind h =>
    refine hkeep fun n hr => ?_
    exact bind_node_eq h (hfree n hr)
  | pass h =>
    have hspl := (pass_iff_compress.2 h).spliced
    intro n hr
    rw [hspl.isReference]
    exact hfree n (hspl.reaches hr)

/-! ## §5 Sealing -/

/-- Marked nodes link to finished nodes alone: compression may pass over them
without leaving anything undone behind them. -/
def Sealed (g : Grammar) : Prop :=
  ∀ n, (g.node n).compressed = true → ∀ l, g.Linked n l → g.Settled l

theorem Settled.of_node_eq (h : g.Settled l) (heq : g'.node l = g.node l) : g'.Settled l where
  not_abstract := by rw [heq]; exact h.not_abstract
  not_reference := by rw [heq]; exact h.not_reference
  not_open := by
    unfold isOpen
    rw [heq]
    exact h.not_open

theorem Settled.lt_size (h : g.Settled l) : l < g.size := lt_size_of_not_abstract h.not_abstract

/-- Only a pass that fails can break a seal. -/
theorem Move.isSealed (h : Move .successful g g') (hs : g.Sealed) : g'.Sealed := by
  intro n hm l hl
  cases h with
  | @add m hfresh =>
    have hn : n ≠ g.size := by
      rintro rfl
      rw [node_add_self, hfresh] at hm
      cases hm
    have heq : (Grammar.add m g).2.node n = g.node n := by rw [node_add, if_neg hn]
    rw [heq] at hm
    have hset := hs n hm l ((linked_congr heq).1 hl)
    exact hset.of_node_eq (node_add_of_lt m hset.lt_size)
  | @bind _ id _ h =>
    obtain ⟨name, _, _, hnode⟩ := bind_eq_ok h
    have hne : n ≠ id := by
      rintro rfl
      rw [hnode, if_pos rfl] at hm
      cases hm
    have heq : g'.node n = g.node n := by rw [hnode, if_neg hne]
    rw [heq] at hm
    have hset := hs n hm l ((linked_congr heq).1 hl)
    exact hset.of_node_eq (bind_node_eq h hset.not_reference)
  | pass h hok =>
    obtain ⟨u, rfl⟩ := hok
    have hp := pass_iff_compress.2 h
    cases hb : (g.node n).compressed with
    | true =>
      have heq := hp.node_eq_of_compressed hb (by simp [Task.owner])
      exact hp.settled (hs n hb l ((linked_congr heq).1 hl))
    | false =>
      have hfin := compress_finished_of_marked h hb hm
      have hc : (g.node n).isComposite = true := by
        rw [← hp.sameShape.isComposite]
        exact Node.isComposite_of_compressed hm
      obtain ⟨_, _, _, hset⟩ := hfin.exists_link hc hl
      exact hset u rfl

/-! ## §6 Calls as moves -/

/-- Any number of moves. -/
abbrev Moves (passes : Call.Passes) : Grammar → Grammar → Prop := ReflTransGen (Move passes)

theorem Moves.size_le (h : Moves passes g g') : g.size ≤ g'.size := by
  induction h with
  | refl => exact Nat.le_refl _
  | tail _ hm ih => exact ih.trans hm.size_le

theorem oneOf_moves (first second : NodeId) (rest : List NodeId) (g : Grammar)
    (hin : ∀ l ∈ first :: second :: rest, l < g.size) :
    Moves passes g (oneOf first second rest g).2 ∧
      (oneOf first second rest g).1 < (oneOf first second rest g).2.size := by
  induction rest generalizing first second with
  | nil =>
    refine ⟨.single (.add rfl hin), ?_⟩
    exact Nat.lt_of_lt_of_eq (Nat.lt_succ_self _) (size_add ..).symm
  | cons third rest ih =>
    obtain ⟨hmoves, hlt⟩ := ih second third fun l hl => hin l (List.mem_cons_of_mem first hl)
    refine ⟨hmoves.tail (.add rfl fun l hl => ?_), ?_⟩
    · rcases List.mem_cons.1 hl with rfl | hl
      · exact Nat.lt_of_lt_of_le (hin l List.mem_cons_self) (Moves.size_le hmoves)
      · cases List.mem_singleton.1 hl
        exact hlt
    · exact Nat.lt_of_lt_of_eq (Nat.lt_succ_self _) (size_add ..).symm

/-- A call is made of moves. -/
theorem Step.moves (h : Step passes g g') (hin : g.LinksInside) : Moves passes g g' := by
  obtain ⟨call, hargs, hmakes, rfl⟩ := h
  cases call with
  | range | endOfInput | reference | abstract => exact .single (.add rfl (by simp [Node.links]))
  | sequence children => exact .single (.add rfl hargs)
  | oneOf first second rest => exact (oneOf_moves first second rest g hargs).1
  | repetition child => exact .single (.add rfl hargs)
  | action child act => exact .single (.add rfl hargs)
  | followedBy id other =>
    change Moves passes g (followedBy id other g).2
    unfold followedBy
    split
    · next children c hid =>
      refine .single (.add rfl fun l hl => ?_)
      rcases List.mem_append.1 hl with hl | hl
      · exact hin id l (linked_of_node hid hl)
      · cases List.mem_singleton.1 hl
        exact hargs other (by simp [Call.arguments])
    · exact .single (.add rfl hargs)
  | bind id target =>
    simp only [Call.run]
    split
    · next h => exact .single (.bind h (hargs target (by simp [Call.arguments])))
    · exact .refl
  | compress root => exact .single (.pass rfl hmakes)
  | prepare root config =>
    simp only [Call.run, Parser.prepare]
    split
    · next hnone =>
      have hp := hmakes hnone
      split
      · next h => rw [h] at hp; exact .single (.pass h hp)
      · next h => rw [h] at hp; exact .single (.pass h hp)
    · exact .refl

/-! ## §7 Histories -/

theorem Moves.linksInside (h : Moves passes g g') (hin : g.LinksInside) : g'.LinksInside := by
  induction h with
  | refl => exact hin
  | tail _ hm ih => exact hm.linksInside ih

theorem Moves.referenceFree (h : Moves passes g g') (hin : g.LinksInside) (hu : u < g.size)
    (hfree : g.ReferenceFree u) : g'.ReferenceFree u := by
  induction h with
  | refl => exact hfree
  | tail hbefore hm ih =>
    exact hm.referenceFree (Moves.linksInside hbefore hin) (hu.trans_le (Moves.size_le hbefore)) ih

theorem Moves.isSealed (h : Moves .successful g g') (hs : g.Sealed) : g'.Sealed := by
  induction h with
  | refl => exact hs
  | tail _ hm ih => exact hm.isSealed ih

/-- **A history is made of moves**, on nodes that are there at each of them. -/
theorem History.moves (h : History passes g g') (hin : g.LinksInside) : Moves passes g g' := by
  induction h with
  | refl => exact .refl
  | tail _ hstep ih => exact ih.trans (hstep.moves (Moves.linksInside ih hin))

theorem links_empty (n : NodeId) : empty.links n = [] := by
  unfold links
  rw [node_of_size_le (Nat.zero_le n)]
  rfl

theorem linksInside_empty : empty.LinksInside := by
  intro n l hl
  unfold Linked at hl
  rw [links_empty] at hl
  cases hl

theorem sealed_empty : empty.Sealed := by
  intro n _ l hl
  unfold Linked at hl
  rw [links_empty] at hl
  cases hl

/-- Whether calls are given nodes that are there, each when its turn comes. -/
def admits (g : Grammar) : List Call → Bool
  | [] => true
  | call :: rest => call.arguments.all (· < g.size) && (call.run g).admits rest

/-- Such calls are a history. -/
theorem history_of_admits (calls : List Call) (g : Grammar) (h : g.admits calls = true) :
    History .any g (calls.foldl Call.run g) := by
  induction calls generalizing g with
  | nil => exact .refl
  | cons call rest ih =>
    rw [admits, Bool.and_eq_true, List.all_eq_true] at h
    obtain ⟨hargs, hrest⟩ := h
    have hin : ∀ id ∈ call.arguments, id < g.size := fun id hid => by simpa using hargs id hid
    exact .head ⟨call, hin, call.makes_any g, rfl⟩ (ih _ hrest)

end Grammar

end PegGraph
