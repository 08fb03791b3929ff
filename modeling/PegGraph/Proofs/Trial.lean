/-
PegGraph.Proofs.Trial — which nodes a node tries, from where, and what for.

  §1 Trials — a node at some progress, and the trials that it makes itself.
  §2 Starts — where the trials of a trial start.
  §3 Parts  — what a trial inside another has to do with its result.
  §4 Faults — a fault is one of a trial inside, or the node's own.

A trial is one call of the engine. Which trials a composite makes depends on what
those before them came to, so `Tries` is given the function that tries children
and reads the results off it. Loops are followed from one round to the next
(`Proceeds`, `Repeats`) without counting the rounds: that a repetition is never
short of tries is shown in §3.
-/
import PegGraph.Proofs.Trace

namespace PegGraph.Parse

/-! ## §1 Trials -/

/-- A node that is tried at some progress. -/
structure Trial where
  node : NodeId
  start : Progress

/-- What a trial comes to, under a way of trying nodes. -/
def Trial.result (att : Attempt) (t : Trial) : Outcome × Progress := att t.node t.start

/-- The progress inside the section of a trial. -/
def Trial.inside (t : Trial) : Progress := t.start.within t.node

/-- From one list of children and progress to the rest of the list and the
progress at which it is the turn of these: all children in between have matched,
each from where the one before it has ended. -/
inductive Proceeds (att : Attempt) : List NodeId → Progress → List NodeId → Progress → Prop
  | done {ids : List NodeId} {st : Progress} : Proceeds att ids st ids st
  | next {id : NodeId} {ids rest : List NodeId} {st after last : Progress} {value : Value}
      {pos : Int} (h : att id st = (.matched value pos, after))
      (hrest : Proceeds att ids after rest last) : Proceeds att (id :: ids) st rest last

/-- From the progress at one round of a repetition to that at another: in every
round in between the child has matched and moved on. -/
inductive Repeats (att : Attempt) (id child : NodeId) : Progress → Progress → Prop
  | done {st : Progress} : Repeats att id child st st
  | next {st after last : Progress} {value : Value} {pos : Int}
      (h : att child (st.note (.tried id st.pos st.guard.currentDepth)) =
        (.matched value pos, after))
      (hmoved : after.pos ≠ st.pos) (hrest : Repeats att id child after last) :
    Repeats att id child st last

/-- The trials that a trial makes itself, where children are tried by a given
function. All are made inside its section, so none is without room for that. -/
inductive Tries (cx : Setting) (att : Attempt) (t : Trial) : Trial → Prop
  /-- A child of a sequence is tried once all those before it have matched. -/
  | sequence {ids rest : List NodeId} {mark : Bool} {id : NodeId} {st : Progress}
      (hnode : cx.grammar.node t.node = .sequence ids mark) (hroom : t.start.HasRoom)
      (h : Proceeds att ids t.inside (id :: rest) st) : Tries cx att t ⟨id, st⟩
  | first {a b : NodeId} {mark : Bool} (hnode : cx.grammar.node t.node = .choice a b mark)
      (hroom : t.start.HasRoom) : Tries cx att t ⟨a, t.inside⟩
  /-- The second child of a choice is tried once the first one has not matched and
  the position is back where it was. -/
  | second {a b : NodeId} {mark : Bool} {after back : Progress}
      (hnode : cx.grammar.node t.node = .choice a b mark) (hroom : t.start.HasRoom)
      (h : att a t.inside = (.noMatch, after))
      (hback : after.restore cx.source t.inside.pos = .ok back) : Tries cx att t ⟨b, back⟩
  | again {child : NodeId} {mark : Bool} {st : Progress}
      (hnode : cx.grammar.node t.node = .repetition child mark) (hroom : t.start.HasRoom)
      (h : Repeats att t.node child t.inside st) :
    Tries cx att t ⟨child, st.note (.tried t.node st.pos st.guard.currentDepth)⟩
  | action {child : NodeId} {act : Action} {mark : Bool}
      (hnode : cx.grammar.node t.node = .action child act mark) (hroom : t.start.HasRoom) :
    Tries cx att t ⟨child, t.inside⟩

variable {cx : Setting} {att : Attempt} {source : Source} {t u : Trial} {st last : Progress}
  {id child : NodeId} {ids rest : List NodeId} {fault : Fault}

/-! ## §2 Starts -/

theorem Proceeds.later (hatt : Orderly source att) (h : Proceeds att ids st rest last) :
    Later source st last := by
  induction h with
  | done => exact .refl source _
  | @next id _ _ st _ _ _ _ heq _ ih =>
    have hid := hatt id st
    rw [heq] at hid
    exact hid.toLater.trans ih

theorem Repeats.later (hatt : Orderly source att) (h : Repeats att id child st last) :
    Later source st last := by
  induction h with
  | done => exact .refl source _
  | @next st _ _ _ _ heq _ _ ih =>
    have hchild := hatt child (st.note (.tried id st.pos st.guard.currentDepth))
    rw [heq] at hchild
    exact ((Later.tried source st id).trans hchild.toLater).trans ih

namespace Tries

theorem hasRoom (h : Tries cx att t u) : t.start.HasRoom := by
  cases h <;> assumption

/-- A trial starts inside the section of the one that makes it. -/
theorem later (hatt : Orderly cx.source att) (h : Tries cx att t u) :
    Later cx.source t.inside u.start := by
  cases h with
  | sequence _ _ h => exact h.later hatt
  | first | action => exact .refl cx.source _
  | @second a _ _ _ _ _ _ h hback =>
    have hfirst := hatt a t.inside
    rw [h] at hfirst
    exact hfirst.toLater.restore hback
  | again _ _ h => exact (h.later hatt).trans (.tried cx.source _ _)

/-- One level down. -/
theorem guard_eq (hatt : Orderly cx.source att) (h : Tries cx att t u) :
    u.start.guard = { t.start.guard with currentDepth := t.start.guard.currentDepth + 1 } :=
  (h.later hatt).guard

theorem headroom (hatt : Orderly cx.source att) (h : Tries cx att t u) :
    t.start.guard.headroom = u.start.guard.headroom + 1 := by
  rw [(h.later hatt).guard]
  exact Progress.headroom_within h.hasRoom

/-- The section of the trial that makes it is on record already. -/
theorem events_length (hatt : Orderly cx.source att) (h : Tries cx att t u) :
    t.start.events.length < u.start.events.length := by
  have hlater := (h.later hatt).events_suffix.length_le
  exact Nat.lt_of_succ_le hlater

end Tries

/-! ## §3 Parts -/

/-- A result that a part of an attempt comes to, against that of the whole: its
fault is the fault of the whole, and what it has put on record stays there. -/
structure PartOf (r whole : Outcome × Progress) : Prop where
  failed : ∀ fault, r.1 = .failed fault → whole.1 = .failed fault
  events : r.2.events <:+ whole.2.events

namespace PartOf

variable {r r' r'' : Outcome × Progress}

theorem refl (r : Outcome × Progress) : PartOf r r := ⟨fun _ h => h, List.suffix_refl _⟩

theorem trans (h : PartOf r r') (h' : PartOf r' r'') : PartOf r r'' :=
  ⟨fun fault hr => h'.failed fault (h.failed fault hr), h.events.trans h'.events⟩

/-- Whoever goes on from a part that is no fault, and keeps the record. -/
theorem of_suffix (hok : ∀ fault, r.1 ≠ .failed fault) (h : r.2.events <:+ r'.2.events) :
    PartOf r r' :=
  ⟨fun fault hr => absurd hr (hok fault), h⟩

/-- The body of a section. -/
theorem guarded (hroom : st.HasRoom) (id : NodeId) (body : Progress → Outcome × Progress) :
    PartOf (body (st.within id)) (guarded id body st) := by
  rw [guarded_of_hasRoom hroom]
  exact ⟨fun _ h => h, List.suffix_cons _ _⟩

theorem applyAction (id : NodeId) (act : Action) (r : Outcome × Progress) :
    PartOf r (applyAction cx id act r) := by
  obtain ⟨outcome, after⟩ := r
  cases outcome with
  | matched value pos =>
    refine .of_suffix (by simp) ?_
    unfold Parse.applyAction
    simp only
    split <;> exact List.suffix_cons _ _
  | noMatch | failed => exact .refl _

end PartOf

theorem attemptAll_partOf (hatt : Orderly source att) (id : NodeId) (ids : List NodeId)
    (values : List Value) (st : Progress) :
    PartOf (att id st) (attemptAll att (id :: ids) values st) := by
  unfold attemptAll
  split
  · next value pos after heq =>
    rw [heq]
    have hrest := attemptAll_ends hatt ids (value :: values) after
    exact .of_suffix (by simp) hrest.toLater.events_suffix
  · exact .refl _

theorem attemptEither_partOf (hatt : Orderly source att) (first second : NodeId) (st : Progress) :
    PartOf (att first st) (attemptEither att source first second st) := by
  have hfirst := hatt first st
  unfold attemptEither
  split
  · next after heq =>
    rw [heq] at hfirst ⊢
    split
    · exact .of_suffix (by simp) (List.suffix_refl _)
    · next back hback =>
      obtain ⟨-, rfl⟩ := Progress.restore_eq_ok.1 hback
      refine .of_suffix (by simp) ?_
      exact (hatt second { after with pos := st.pos }).toLater.events_suffix
  · exact .refl _

/-- The children before the one whose turn it is are done with. -/
theorem Proceeds.attemptAll_eq (h : Proceeds att ids st rest last) (values : List Value) :
    ∃ values', attemptAll att ids values st = attemptAll att rest values' last := by
  induction h generalizing values with
  | done => exact ⟨values, rfl⟩
  | @next id ids _ st after _ value _ heq _ ih =>
    obtain ⟨values', hrest⟩ := ih (value :: values)
    refine ⟨values', ?_⟩
    rw [attemptAll, heq]
    exact hrest

/-- The rounds before are done with, and there are tries left: each of these rounds
has consumed something. -/
theorem Repeats.attemptMany_eq (hatt : Orderly source att) (h : Repeats att id child st last)
    {tries : Nat} (htries : st.remaining source < tries) (values : List Value) :
    ∃ tries' values', last.remaining source < tries' ∧
      attemptMany att source id child tries values st =
        attemptMany att source id child tries' values' last := by
  induction h generalizing tries values with
  | done => exact ⟨tries, values, htries, rfl⟩
  | @next st after _ value _ heq hmoved _ ih =>
    have hchild := hatt child (st.note (.tried id st.pos st.guard.currentDepth))
    rw [heq] at hchild
    have hlow : st.pos ≤ after.pos := hchild.le_pos
    have hhigh : after.pos ≤ max st.pos source.length := hchild.pos_le
    cases tries with
    | zero => omega
    | succ tries =>
      have hless : after.remaining source < tries := by
        unfold Progress.remaining at htries ⊢
        omega
      obtain ⟨tries', values', hleft, hrest⟩ := ih hless (value :: values)
      refine ⟨tries', values', hleft, ?_⟩
      rw [attemptMany, heq]
      simp only [hmoved, if_false]
      exact hrest

theorem attemptMany_partOf (hatt : Orderly source att) (id child : NodeId) {tries : Nat}
    (htries : 0 < tries) (values : List Value) (st : Progress) :
    PartOf (att child (st.note (.tried id st.pos st.guard.currentDepth)))
      (attemptMany att source id child tries values st) := by
  cases tries with
  | zero => cases htries
  | succ tries =>
    unfold attemptMany
    split
    · next heq =>
      rw [heq]
      exact .refl _
    · next heq =>
      rw [heq]
      split
      · exact .of_suffix (by simp) (List.suffix_refl _)
      · next hback =>
        obtain ⟨-, rfl⟩ := Progress.restore_eq_ok.1 hback
        exact .of_suffix (by simp) (List.suffix_refl _)
    · next value _ after heq =>
      rw [heq]
      split
      · exact .of_suffix (by simp) (List.suffix_refl _)
      · have hrest := attemptMany_ends hatt id child tries (value :: values) after
        exact .of_suffix (by simp) hrest.toLater.events_suffix

/-- **A trial is part** of the one that makes it. -/
theorem Tries.partOf (hatt : Orderly cx.source att) (h : Tries cx att t u) :
    PartOf (u.result att) (t.result (attemptActor cx att)) := by
  have hroom := h.hasRoom
  unfold Trial.result
  cases h with
  | @sequence ids rest _ id st hnode _ h =>
    obtain ⟨values, heq⟩ := h.attemptAll_eq []
    have hpart := attemptAll_partOf hatt id rest values st
    rw [← heq] at hpart
    rw [attemptActor_sequence hnode]
    exact hpart.trans (.guarded hroom t.node (attemptAll att ids []))
  | @first a b _ hnode _ =>
    rw [attemptActor_choice hnode]
    exact (attemptEither_partOf hatt a b t.inside).trans (.guarded hroom t.node _)
  | @second a b _ after back hnode _ h hback =>
    have heq : attemptEither att cx.source a b t.inside = att b back := by
      simp only [attemptEither, h, hback]
    have hpart := PartOf.guarded hroom t.node (attemptEither att cx.source a b)
    rw [← Trial.inside, heq] at hpart
    rw [attemptActor_choice hnode]
    exact hpart
  | @again child _ st hnode _ h =>
    have htries := Nat.lt_succ_self (t.inside.remaining cx.source)
    obtain ⟨tries, values, hleft, heq⟩ := h.attemptMany_eq hatt htries []
    have hpart := attemptMany_partOf hatt t.node child (Nat.zero_lt_of_lt hleft) values st
    rw [← heq] at hpart
    rw [attemptActor_repetition hnode]
    exact hpart.trans (.guarded hroom t.node fun st =>
      attemptMany att cx.source t.node child (st.remaining cx.source + 1) [] st)
  | @action child act _ hnode _ =>
    rw [attemptActor_action hnode]
    exact (PartOf.guarded hroom t.node (att child)).trans (.applyAction t.node act _)

/-- What is on record when a trial starts stays there. -/
theorem Tries.events_suffix (hatt : Orderly cx.source att) (h : Tries cx att t u) :
    u.start.events <:+ (t.result (attemptActor cx att)).2.events :=
  (hatt u.node u.start).toLater.events_suffix.trans (h.partOf hatt).events

/-! ## §4 Faults -/

/-- The faults that a trial has of its own, other than those of the trials that it
makes. -/
inductive Fails (cx : Setting) (att : Attempt) (t : Trial) : Fault → Prop
  /-- The guard has refused a composite. -/
  | refused (hc : (cx.grammar.node t.node).isComposite = true) (hfull : ¬ t.start.HasRoom) :
    Fails cx att t (.depthLimitExceeded t.start.guard.maxDepth)
  /-- The source has refused a character before its end. -/
  | unread {fault : Fault} (hpos : t.start.pos < cx.source.length)
      (h : cx.source.read t.start.pos = .error fault) : Fails cx att t fault
  /-- The start of a trial is no position to go back to. -/
  | astray {u : Trial} {fault : Fault} (hu : Tries cx att t u)
      (h : Cursor.checkPosition cx.source u.start.pos = .error fault) : Fails cx att t fault
  | action {child : NodeId} {act : Action} {mark : Bool} {depth : Int} {value : Value}
      {fault : Fault} (hnode : cx.grammar.node t.node = .action child act mark)
      (h : act.apply (cx.readDepth depth) value = .error fault) : Fails cx att t fault
  | abstract (hnode : cx.grammar.node t.node = .abstract) :
    Fails cx att t (.abstractOperation .parse)
  | reference {name : Option String} {target : Option NodeId}
      (hnode : cx.grammar.node t.node = .reference name target) :
    Fails cx att t (.uncompressedReference (Node.labelOf t.node name))

theorem restore_failed {pos : Int} (h : st.restore source pos = .error fault) :
    Cursor.checkPosition source pos = .error fault := by
  unfold Progress.restore at h
  split at h
  · next heq => cases h; exact heq
  · cases h

theorem attemptAll_failed {values : List Value}
    (h : (attemptAll att ids values st).1 = .failed fault) :
    ∃ id rest last, Proceeds att ids st (id :: rest) last ∧ (att id last).1 = .failed fault := by
  induction ids generalizing values st with
  | nil => cases h
  | cons id ids ih =>
    unfold attemptAll at h
    split at h
    · next heq =>
      obtain ⟨id, rest, last, hway, hfail⟩ := ih h
      exact ⟨id, rest, last, .next heq hway, hfail⟩
    · exact ⟨id, ids, st, .done, h⟩

/-- A repetition fails in some round: in a try, or on going back from it. -/
theorem attemptMany_failed {tries : Nat} {values : List Value}
    (h : (attemptMany att source id child tries values st).1 = .failed fault) :
    ∃ last, Repeats att id child st last ∧
      ((att child (last.note (.tried id last.pos last.guard.currentDepth))).1 = .failed fault ∨
        Cursor.checkPosition source last.pos = .error fault) := by
  induction tries generalizing values st with
  | zero => cases h
  | succ tries ih =>
    unfold attemptMany at h
    split at h
    · next heq =>
      cases h
      exact ⟨st, .done, .inl (by rw [heq])⟩
    · split at h
      · next hback =>
        cases h
        exact ⟨st, .done, .inr (restore_failed hback)⟩
      · cases h
    · next heq =>
      split at h
      · cases h
      · next hmoved =>
        obtain ⟨last, hway, hfail⟩ := ih h
        exact ⟨last, .next heq hmoved hway, hfail⟩

theorem guarded_failed {body : Progress → Outcome × Progress}
    (h : (guarded id body st).1 = .failed fault) :
    (st.HasRoom ∧ (body (st.within id)).1 = .failed fault) ∨
      (¬ st.HasRoom ∧ fault = .depthLimitExceeded st.guard.maxDepth) := by
  by_cases hroom : st.HasRoom
  · rw [guarded_of_hasRoom hroom] at h
    exact .inl ⟨hroom, h⟩
  · rw [guarded_of_not_hasRoom hroom] at h
    cases h
    exact .inr ⟨hroom, rfl⟩

/-- A composite that the guard refuses fails with its limit, and nothing happens. -/
theorem attemptActor_of_not_hasRoom {n : NodeId}
    (hc : (cx.grammar.node n).isComposite = true) (hfull : ¬ st.HasRoom) :
    attemptActor cx att n st = (.failed (.depthLimitExceeded st.guard.maxDepth), st) := by
  unfold attemptActor
  cases hnode : cx.grammar.node n with
  | sequence | choice | repetition | action =>
    simp only [guarded_of_not_hasRoom hfull, applyAction]
  | abstract | range | endOfInput | reference => rw [hnode] at hc; cases hc

/-- A fault is that of a trial inside, or the trial's own. -/
theorem failed_cases (h : (t.result (attemptActor cx att)).1 = .failed fault) :
    (∃ u, Tries cx att t u ∧ (u.result att).1 = .failed fault) ∨ Fails cx att t fault := by
  unfold Trial.result attemptActor at h
  cases hnode : cx.grammar.node t.node with
  | abstract =>
    rw [hnode] at h
    cases h
    exact .inr (.abstract hnode)
  | reference name target =>
    rw [hnode] at h
    cases h
    exact .inr (.reference hnode)
  | endOfInput =>
    rw [hnode] at h
    unfold attemptEnd at h
    simp only at h
    split at h <;> cases h
  | range bounds =>
    rw [hnode] at h
    unfold attemptRange at h
    simp only at h
    split at h
    · cases h
    · next hlt =>
      split at h
      · next heq =>
        cases h
        exact .inr (.unread (Int.not_le.1 hlt) heq)
      · split at h <;> cases h
  | sequence ids mark =>
    rw [hnode] at h
    rcases guarded_failed h with ⟨hroom, hbody⟩ | ⟨hfull, rfl⟩
    · obtain ⟨id, rest, last, hway, hfail⟩ := attemptAll_failed hbody
      exact .inl ⟨⟨id, last⟩, .sequence hnode hroom hway, hfail⟩
    · exact .inr (.refused (by rw [hnode]; rfl) hfull)
  | choice a b mark =>
    rw [hnode] at h
    rcases guarded_failed h with ⟨hroom, hbody⟩ | ⟨hfull, rfl⟩
    · unfold attemptEither at hbody
      split at hbody
      · next heq =>
        split at hbody
        · next hback =>
          cases hbody
          exact .inr (.astray (.first hnode hroom) (restore_failed hback))
        · next hback => exact .inl ⟨⟨b, _⟩, .second hnode hroom heq hback, hbody⟩
      · exact .inl ⟨⟨a, t.inside⟩, .first hnode hroom, hbody⟩
    · exact .inr (.refused (by rw [hnode]; rfl) hfull)
  | repetition child mark =>
    rw [hnode] at h
    rcases guarded_failed h with ⟨hroom, hbody⟩ | ⟨hfull, rfl⟩
    · obtain ⟨last, hway, hfail | hout⟩ := attemptMany_failed hbody
      · exact .inl ⟨_, .again hnode hroom hway, hfail⟩
      · exact .inr (.astray (.again hnode hroom hway) hout)
    · exact .inr (.refused (by rw [hnode]; rfl) hfull)
  | action child act mark =>
    rw [hnode] at h
    unfold applyAction at h
    simp only at h
    split at h
    · split at h
      · cases h
      · next heq =>
        cases h
        exact .inr (.action hnode heq)
    · rcases guarded_failed h with ⟨hroom, hbody⟩ | ⟨hfull, rfl⟩
      · exact .inl ⟨⟨child, t.inside⟩, .action hnode hroom, hbody⟩
      · exact .inr (.refused (by rw [hnode]; rfl) hfull)

end PegGraph.Parse
