/-
PegGraph.Proofs.Record — which trial has put an event on record.

  §1 Events     — the record by number, and what a trial puts there itself.
  §2 Composites — one lemma for each way of trying children.
  §3 Origins    — `exists_records`: every event comes from one trial.
  §4 Nesting    — `exists_encloses`: what is on record before a section is left comes
                  from inside it.

The record is what can be seen of a parse from outside. No section, no round and no
call that shows in it is left out of the trials inside (`Covers`), and each event
shows the cursor and the guard as they are at some moment (`Moment`). Events are
numbered from the earliest on: what is on record keeps its number, and the trials
that are made in turn put intervals of numbers on record, one after another.
-/
import PegGraph.Proofs.Dispatch

namespace PegGraph.Parse

variable {cx : Setting} {att : Attempt} {source : Source} {t u : Trial}
  {st mid last after : Progress} {r : Outcome × Progress} {id child : NodeId}
  {ids rest : List NodeId} {e : Event} {i : Nat}

/-! ## §1 Events -/

/-- The position that an event shows. A call shows none. -/
def Event.pos? : Event → Option Int
  | .entered _ pos _ | .left _ pos _ | .tried _ pos _ => some pos
  | .applied _ _ _ _ => none

/-- The depth that an event shows. -/
def Event.depth : Event → Int
  | .entered _ _ depth | .left _ _ depth | .tried _ _ depth | .applied _ _ _ depth => depth

/-- The number of events on record. -/
def Progress.count (st : Progress) : Nat := st.events.length

/-- The event of a number. -/
def Progress.event? (st : Progress) (i : Nat) : Option Event := st.events.reverse[i]?

theorem Progress.count_note (st : Progress) (e : Event) : (st.note e).count = st.count + 1 := rfl

theorem Progress.event?_note (st : Progress) (e : Event) : (st.note e).event? st.count = some e := by
  simp [event?, note, count]

theorem Progress.exists_event? (h : e ∈ st.events) : ∃ i < st.count, st.event? i = some e := by
  obtain ⟨i, hi, hget⟩ := List.getElem_of_mem (List.mem_reverse.2 h)
  have hlt : i < st.count := by rwa [List.length_reverse] at hi
  exact ⟨i, hlt, List.getElem?_eq_some_iff.2 ⟨hi, hget⟩⟩

theorem Progress.lt_count (h : st.event? i = some e) : i < st.count := by
  obtain ⟨hi, -⟩ := List.getElem?_eq_some_iff.1 h
  rwa [List.length_reverse] at hi

/-- What is on record keeps its number. -/
theorem event?_of_suffix (h : st.events <:+ after.events) (hi : i < st.count) :
    after.event? i = st.event? i := by
  obtain ⟨new, heq⟩ := h
  have hi' : i < st.events.reverse.length := by rwa [List.length_reverse]
  unfold Progress.event?
  rw [← heq, List.reverse_append, List.getElem?_append_left hi']

/-- A number that was given out between one progress and another. -/
def Made (i : Nat) (st after : Progress) : Prop := st.count ≤ i ∧ i < after.count

namespace Made

/-- On the way there, it was given out before some progress or after it. -/
theorem cases (h : Made i st after) (mid : Progress) : Made i st mid ∨ Made i mid after := by
  unfold Made at *
  omega

theorem of_note (h : Made i st (after.note e)) : i = after.count ∨ Made i st after := by
  unfold Made at *
  rw [Progress.count_note] at h
  omega

theorem not_self (h : Made i st st) : False := Nat.not_lt.2 h.1 h.2

end Made

/-- The events that a trial puts on record itself, other than those of the trials
that it makes, each with a progress that it shows. The first one has the number of
events that are on record at the start. -/
inductive Records (cx : Setting) (att : Attempt) (t : Trial) : Nat → Event → Progress → Prop
  | entered (hc : (cx.grammar.node t.node).isComposite = true) (hroom : t.start.HasRoom) :
    Records cx att t t.start.count
      (.entered t.node t.inside.pos t.inside.guard.currentDepth) t.inside
  | left (hc : (cx.grammar.node t.node).isComposite = true) (hroom : t.start.HasRoom) {i : Nat}
      {after : Progress} (hafter : (t.result (attemptActor cx att)).2 = after) :
    Records cx att t i (.left t.node after.pos after.guard.currentDepth) after
  | tried {child : NodeId} {mark : Bool} {i : Nat} {u : Trial}
      (hnode : cx.grammar.node t.node = .repetition child mark) (hu : Tries cx att t u) :
    Records cx att t i (.tried t.node u.start.pos u.start.guard.currentDepth) u.start
  | applied {child : NodeId} {act : Action} {mark : Bool} {value : Value} {i : Nat}
      {after : Progress} (hnode : cx.grammar.node t.node = .action child act mark)
      (hafter : (t.result (attemptActor cx att)).2 = after) :
    Records cx att t i (.applied t.node act.label? value after.guard.currentDepth) after

theorem Records.shows (h : Records cx att t i e st) :
    (∀ pos, e.pos? = some pos → pos = st.pos) ∧ e.depth = st.guard.currentDepth := by
  cases h with
  | entered | left | tried => exact ⟨fun _ hpos => (Option.some.inj hpos).symm, rfl⟩
  | applied => exact ⟨nofun, rfl⟩

/-! ## §2 Composites -/

theorem attemptAll_made {values : List Value} (h : Made i st (attemptAll att ids values st).2) :
    ∃ id rest last, Proceeds att ids st (id :: rest) last ∧ Made i last (att id last).2 := by
  induction ids generalizing values st with
  | nil => exact h.not_self.elim
  | cons id ids ih =>
    rcases h.cases (att id st).2 with hid | hrest
    · exact ⟨id, ids, st, .done, hid⟩
    · unfold attemptAll at hrest
      split at hrest
      · next heq =>
        rw [heq] at hrest
        obtain ⟨id, rest, last, hway, hmade⟩ := ih hrest
        exact ⟨id, rest, last, .next heq hway, hmade⟩
      · exact hrest.not_self.elim

theorem attemptEither_made {first second : NodeId}
    (h : Made i st (attemptEither att source first second st).2) :
    Made i st (att first st).2 ∨ ∃ after back, att first st = (.noMatch, after) ∧
      after.restore source st.pos = .ok back ∧ Made i back (att second back).2 := by
  rcases h.cases (att first st).2 with hfirst | hsecond
  · exact .inl hfirst
  · unfold attemptEither at hsecond
    split at hsecond
    · next after heq =>
      rw [heq] at hsecond
      split at hsecond
      · exact hsecond.not_self.elim
      · next back hback =>
        obtain ⟨-, rfl⟩ := Progress.restore_eq_ok.1 hback
        exact .inr ⟨after, _, heq, hback, hsecond⟩
    · exact hsecond.not_self.elim

/-- In a repetition: at the start of some round, or in that round. -/
theorem attemptMany_made {tries : Nat} {values : List Value}
    (h : Made i st (attemptMany att source id child tries values st).2) :
    ∃ last, Repeats att id child st last ∧ (i = last.count ∨
      Made i (last.note (.tried id last.pos last.guard.currentDepth))
        (att child (last.note (.tried id last.pos last.guard.currentDepth))).2) := by
  induction tries generalizing values st with
  | zero => exact h.not_self.elim
  | succ tries ih =>
    rcases h.cases (att child (st.note (.tried id st.pos st.guard.currentDepth))).2 with hround | h
    · rcases hround.cases (st.note (.tried id st.pos st.guard.currentDepth)) with htried | hchild
      · exact ⟨st, .done, .inl (htried.of_note.resolve_right Made.not_self)⟩
      · exact ⟨st, .done, .inr hchild⟩
    · unfold attemptMany at h
      split at h
      · next heq =>
        rw [heq] at h
        exact h.not_self.elim
      · next heq =>
        rw [heq] at h
        split at h
        · exact h.not_self.elim
        · next hback =>
          obtain ⟨-, rfl⟩ := Progress.restore_eq_ok.1 hback
          exact (Made.not_self h).elim
      · next heq =>
        rw [heq] at h
        split at h
        · exact h.not_self.elim
        · next hmoved =>
          obtain ⟨last, hway, hmade⟩ := ih h
          exact ⟨last, .next heq hmoved hway, hmade⟩

/-- An action adds its call to what its section has put on record. -/
theorem applyAction_made {act : Action} (h : Made i st (applyAction cx id act r).2) :
    Made i st r.2 ∨ ∃ value, (applyAction cx id act r).2.event? i =
      some (.applied id act.label? value (applyAction cx id act r).2.guard.currentDepth) := by
  obtain ⟨outcome, after⟩ := r
  cases outcome with
  | noMatch | failed => exact .inl h
  | matched value pos =>
    unfold applyAction at h ⊢
    simp only at h ⊢
    split at h
    all_goals
      rcases h.of_note with rfl | h
      · exact .inr ⟨value, Progress.event?_note _ _⟩
      · exact .inl h

/-- A call moves neither the cursor nor the guard. -/
theorem applyAction_stays (cx : Setting) (id : NodeId) (act : Action) (r : Outcome × Progress) :
    (applyAction cx id act r).2.pos = r.2.pos ∧ (applyAction cx id act r).2.guard = r.2.guard := by
  obtain ⟨outcome, after⟩ := r
  cases outcome with
  | noMatch | failed => exact ⟨rfl, rfl⟩
  | matched value pos =>
    unfold applyAction
    simp only
    split <;> exact ⟨rfl, rfl⟩

theorem attemptRange_not_made {bounds : CharRange}
    (h : Made i st (attemptRange source bounds st).2) : False := by
  unfold attemptRange at h
  split at h
  · exact h.not_self
  · split at h
    · exact h.not_self
    · split at h
      · exact Made.not_self h
      · exact h.not_self

theorem attemptEnd_not_made (h : Made i st (attemptEnd source st).2) : False := by
  unfold attemptEnd at h
  split at h <;> exact h.not_self

/-! ## §3 Origins -/

/-- What a composite does in its section. It ends where the section ends, and adds a
call to the record at most. -/
structure Section (cx : Setting) (att : Attempt) (t : Trial)
    (body : Progress → Outcome × Progress) : Prop where
  ends : ∀ st, Ends cx.source st (body st)
  pos : (t.result (attemptActor cx att)).2.pos = (guarded t.node body t.start).2.pos
  guard : (t.result (attemptActor cx att)).2.guard = (guarded t.node body t.start).2.guard
  events : (guarded t.node body t.start).2.events <:+ (t.result (attemptActor cx att)).2.events

namespace Section

variable {body : Progress → Outcome × Progress} {mark : Bool}

theorem of_eq (hends : ∀ st, Ends cx.source st (body st))
    (heq : attemptActor cx att t.node = guarded t.node body) : Section cx att t body := by
  have hresult : t.result (attemptActor cx att) = guarded t.node body t.start :=
    congrFun heq t.start
  constructor
  case ends => exact hends
  case pos | guard => rw [hresult]
  case events => rw [hresult]

theorem sequence (hatt : Orderly cx.source att)
    (hnode : cx.grammar.node t.node = .sequence ids mark) :
    Section cx att t (attemptAll att ids []) :=
  .of_eq (attemptAll_ends hatt ids []) (attemptActor_sequence hnode)

theorem choice {a b : NodeId} (hatt : Orderly cx.source att)
    (hnode : cx.grammar.node t.node = .choice a b mark) :
    Section cx att t (attemptEither att cx.source a b) :=
  .of_eq (attemptEither_ends hatt a b) (attemptActor_choice hnode)

theorem repetition (hatt : Orderly cx.source att)
    (hnode : cx.grammar.node t.node = .repetition child mark) :
    Section cx att t fun st =>
      attemptMany att cx.source t.node child (st.remaining cx.source + 1) [] st :=
  .of_eq (fun st => attemptMany_ends hatt t.node child _ [] st) (attemptActor_repetition hnode)

theorem action {act : Action} (hatt : Orderly cx.source att)
    (hnode : cx.grammar.node t.node = .action child act mark) : Section cx att t (att child) := by
  have hresult : t.result (attemptActor cx att) =
      applyAction cx t.node act (guarded t.node (att child) t.start) :=
    congrFun (attemptActor_action hnode) t.start
  obtain ⟨hpos, hguard⟩ := applyAction_stays cx t.node act (guarded t.node (att child) t.start)
  constructor
  case ends => exact hatt child
  case pos => rw [hresult, hpos]
  case guard => rw [hresult, hguard]
  case events =>
    rw [hresult]
    exact (PartOf.applyAction t.node act _).events

theorem exists_of_isComposite (hatt : Orderly cx.source att)
    (hc : (cx.grammar.node t.node).isComposite = true) : ∃ body, Section cx att t body := by
  cases hnode : cx.grammar.node t.node with
  | sequence => exact ⟨_, .sequence hatt hnode⟩
  | choice => exact ⟨_, .choice hatt hnode⟩
  | repetition => exact ⟨_, .repetition hatt hnode⟩
  | action => exact ⟨_, .action hatt hnode⟩
  | abstract | range | endOfInput | reference => rw [hnode] at hc; cases hc

/-- A section is on record from its first event to its last. -/
theorem count (h : Section cx att t body) (hroom : t.start.HasRoom) :
    t.start.count < (body t.inside).2.count ∧
      (guarded t.node body t.start).2.count = (body t.inside).2.count + 1 := by
  have hbody : t.inside.count ≤ (body t.inside).2.count :=
    (h.ends t.inside).toLater.events_suffix.length_le
  rw [guarded_of_hasRoom hroom]
  exact ⟨hbody, rfl⟩

/-- The first event. -/
theorem entered (h : Section cx att t body) (hroom : t.start.HasRoom) :
    (t.result (attemptActor cx att)).2.event? t.start.count =
      some (.entered t.node t.inside.pos t.inside.guard.currentDepth) := by
  obtain ⟨hlow, hhigh⟩ := h.count hroom
  have hinside : t.inside.event? t.start.count =
      some (.entered t.node t.inside.pos t.inside.guard.currentDepth) :=
    Progress.event?_note _ _
  have hlt : t.start.count < t.inside.count := Nat.lt_succ_self _
  have hbody : t.inside.events <:+ (body t.inside).2.events :=
    (h.ends t.inside).toLater.events_suffix
  have hleave : (body t.inside).2.events <:+ (guarded t.node body t.start).2.events :=
    (PartOf.guarded hroom t.node body).events
  rw [event?_of_suffix h.events (by omega), event?_of_suffix hleave hlow,
    event?_of_suffix hbody hlt, hinside]

/-- The last event. -/
theorem left (h : Section cx att t body) (hroom : t.start.HasRoom) :
    (t.result (attemptActor cx att)).2.event? (body t.inside).2.count =
      some (.left t.node (t.result (attemptActor cx att)).2.pos
        (t.result (attemptActor cx att)).2.guard.currentDepth) := by
  obtain ⟨-, hhigh⟩ := h.count hroom
  rw [event?_of_suffix h.events (by omega), h.pos, h.guard, guarded_of_hasRoom hroom]
  exact Progress.event?_note _ _

/-- What the section puts on record is made in between, if it is not the trial's own. -/
theorem made (h : Section cx att t body) (hc : (cx.grammar.node t.node).isComposite = true)
    (hmade : Made i t.start (guarded t.node body t.start).2) :
    (t.start.HasRoom ∧ Made i t.inside (body t.inside).2) ∨
      ∃ e st, Records cx att t i e st ∧ (t.result (attemptActor cx att)).2.event? i = some e := by
  by_cases hroom : t.start.HasRoom
  · obtain ⟨-, hcount⟩ := h.count hroom
    rcases hmade.cases t.inside with hmade | hmade
    · obtain rfl := hmade.of_note.resolve_right Made.not_self
      exact .inr ⟨_, _, .entered hc hroom, h.entered hroom⟩
    · by_cases hi : i < (body t.inside).2.count
      · exact .inl ⟨hroom, hmade.1, hi⟩
      · obtain rfl : i = (body t.inside).2.count := by
          have hlt := hmade.2
          omega
        exact .inr ⟨_, _, .left hc hroom rfl, h.left hroom⟩
  · rw [guarded_of_not_hasRoom hroom] at hmade
    exact hmade.not_self.elim

end Section

/-- An event that a trial leaves on record is one of a trial that it makes, or its
own. -/
theorem made_cases (hatt : Orderly cx.source att)
    (h : Made i t.start (t.result (attemptActor cx att)).2) :
    (∃ u, Tries cx att t u ∧ Made i u.start (u.result att).2) ∨
      ∃ e st, Records cx att t i e st ∧ (t.result (attemptActor cx att)).2.event? i = some e := by
  have hresult : t.result (attemptActor cx att) = attemptActor cx att t.node t.start := rfl
  cases hnode : cx.grammar.node t.node with
  | abstract | reference =>
    simp only [hresult, attemptActor, hnode] at h
    exact h.not_self.elim
  | range bounds =>
    simp only [hresult, attemptActor, hnode] at h
    exact (attemptRange_not_made h).elim
  | endOfInput =>
    simp only [hresult, attemptActor, hnode] at h
    exact (attemptEnd_not_made h).elim
  | sequence ids mark =>
    rw [hresult, attemptActor_sequence hnode] at h
    rcases (Section.sequence hatt hnode).made (by rw [hnode]; rfl) h with ⟨hroom, h⟩ | hown
    · obtain ⟨id, rest, last, hway, hmade⟩ := attemptAll_made h
      exact .inl ⟨⟨id, last⟩, .sequence hnode hroom hway, hmade⟩
    · exact .inr hown
  | choice a b mark =>
    rw [hresult, attemptActor_choice hnode] at h
    rcases (Section.choice hatt hnode).made (by rw [hnode]; rfl) h with ⟨hroom, h⟩ | hown
    · rcases attemptEither_made h with hmade | ⟨after, back, hno, hback, hmade⟩
      · exact .inl ⟨⟨a, t.inside⟩, .first hnode hroom, hmade⟩
      · exact .inl ⟨⟨b, back⟩, .second hnode hroom hno hback, hmade⟩
    · exact .inr hown
  | repetition child mark =>
    rw [hresult, attemptActor_repetition hnode] at h
    rcases (Section.repetition hatt hnode).made (by rw [hnode]; rfl) h with ⟨hroom, h⟩ | hown
    · obtain ⟨last, hway, rfl | hmade⟩ := attemptMany_made h
      · have hu : Tries cx att t _ := .again hnode hroom hway
        refine .inr ⟨_, _, .tried hnode hu, ?_⟩
        rw [event?_of_suffix (hu.events_suffix hatt) (Nat.lt_succ_self last.count)]
        exact Progress.event?_note _ _
      · exact .inl ⟨_, .again hnode hroom hway, hmade⟩
    · exact .inr hown
  | action child act mark =>
    have heq : t.result (attemptActor cx att) =
        applyAction cx t.node act (guarded t.node (att child) t.start) :=
      congrFun (attemptActor_action hnode) t.start
    rw [heq] at h
    rcases applyAction_made h with h | ⟨value, hvalue⟩
    · rcases (Section.action hatt hnode).made (by rw [hnode]; rfl) h with ⟨hroom, h⟩ | hown
      · exact .inl ⟨⟨child, t.inside⟩, .action hnode hroom, h⟩
      · exact .inr hown
    · rw [← heq] at hvalue
      exact .inr ⟨_, _, .applied hnode rfl, hvalue⟩

/-- **Every event has an origin**: a trial that has put it on record. -/
theorem exists_records (hm : cx.mode = .reject)
    (h : Made i t.start (t.result (attemptFull cx)).2) :
    ∃ u e st, Covers cx t u ∧ Records cx (attemptFull cx) u i e st ∧
      (t.result (attemptFull cx)).2.event? i = some e := by
  induction t using Trial.induct cx with
  | step t ih =>
    rw [result_eq hm] at h ⊢
    rcases made_cases (attemptFull_orderly cx) h with ⟨u, hu, hmade⟩ | ⟨e, st, hown, hevent⟩
    · obtain ⟨v, e, st, hv, hrecords, hevent⟩ := ih u hu hmade
      have hpart := (hu.partOf (attemptFull_orderly cx)).events
      refine ⟨v, e, st, .head hu hv, hrecords, ?_⟩
      rw [event?_of_suffix hpart hmade.2, hevent]
    · exact ⟨t, e, st, .refl, hown, hevent⟩

/-- What an event shows is how things are at a moment of the parse. -/
theorem Records.moment (hm : cx.mode = .reject) (h : Covers cx t u)
    (hrecords : Records cx (attemptFull cx) u i e st) : Moment cx t st := by
  cases hrecords with
  | entered hc hroom => exact .inside h hc hroom
  | tried _ hu => exact .start (h.tail hu)
  | left _ _ hafter | applied _ hafter =>
    rw [← hafter, ← result_eq hm]
    exact .finish h

/-- The origin of an event in the record of a parse. -/
theorem exists_records_of_mem (hm : cx.mode = .reject) {root : NodeId} {pos : Int}
    {guard : DepthGuard} (he : e ∈ (run cx root pos guard).2.events) :
    ∃ u i st, Covers cx ⟨root, ⟨pos, guard, []⟩⟩ u ∧ Records cx (attemptFull cx) u i e st := by
  obtain ⟨i, hi, hevent⟩ := Progress.exists_event? he
  obtain ⟨u, e', st, hcovers, hrecords, hevent'⟩ :=
    exists_records (t := ⟨root, ⟨pos, guard, []⟩⟩) hm ⟨Nat.zero_le i, hi⟩
  obtain rfl : e' = e := Option.some.inj (hevent'.symm.trans hevent)
  exact ⟨u, i, st, hcovers, hrecords⟩

/-! ## §4 Nesting -/

section Nesting

variable {n n' root : NodeId} {p p' d d' pos : Int} {guard : DepthGuard} {j : Nat}

/-- A section on record is that of a trial that started with all events before it. -/
theorem exists_covers_of_entered (hm : cx.mode = .reject) (hi : t.start.count ≤ i)
    (h : (t.result (attemptFull cx)).2.event? i = some (.entered n p d)) :
    ∃ st, Covers cx t ⟨n, st⟩ ∧ st.count = i ∧ st.pos = p ∧ st.guard.currentDepth + 1 = d ∧
      st.HasRoom ∧ (cx.grammar.node n).isComposite = true := by
  obtain ⟨u, e, st, hcovers, hrecords, hevent⟩ := exists_records hm ⟨hi, Progress.lt_count h⟩
  obtain rfl : e = .entered n p d := Option.some.inj (hevent.symm.trans h)
  cases hrecords with
  | entered hc hroom => exact ⟨u.start, hcovers, rfl, rfl, rfl, hroom, hc⟩

/-- **What is on record before a section is left comes from inside it.** Events outside
a section show a lesser depth than those inside, the last one of its own first. -/
theorem exists_encloses (hm : cx.mode = .reject) (hij : i < j)
    (hi : (run cx root pos guard).2.event? i = some (.entered n p d))
    (hj : (run cx root pos guard).2.event? j = some (.entered n' p' d'))
    (hopen : ∀ k e, i < k → k < j → (run cx root pos guard).2.event? k = some e → d ≤ e.depth) :
    ∃ outer inner, Covers cx ⟨root, ⟨pos, guard, []⟩⟩ ⟨n, outer⟩ ∧
      Encloses cx ⟨n, outer⟩ ⟨n', inner⟩ ∧ outer.pos = p ∧ inner.pos = p' := by
  obtain ⟨outer, houter, hcount, hpos, hdepth, hroom, hc⟩ :=
    exists_covers_of_entered (t := ⟨root, ⟨pos, guard, []⟩⟩) hm (Nat.zero_le i) hi
  let u : Trial := ⟨n, outer⟩
  have hkept : (u.result (attemptFull cx)).2.events <:+ (run cx root pos guard).2.events :=
    (houter.partOf hm).events
  by_cases hlt : j < (u.result (attemptFull cx)).2.count
  · have hjoined : (u.result (attemptFull cx)).2.event? j = some (.entered n' p' d') := by
      rw [← event?_of_suffix hkept hlt, hj]
    have hbefore : u.start.count ≤ j := by
      show outer.count ≤ j
      omega
    obtain ⟨inner, hinner, hcount', hpos', -⟩ := exists_covers_of_entered hm hbefore hjoined
    rcases Relation.reflTransGen_iff_eq_or_transGen.1 hinner with heq | hinner
    · obtain ⟨-, rfl⟩ := Trial.mk.inj heq
      omega
    · exact ⟨outer, inner, houter, hinner, hpos, hpos'⟩
  · obtain ⟨body, hsection⟩ := Section.exists_of_isComposite (t := u) (attemptFull_orderly cx) hc
    have hleft := hsection.left hroom
    have hguard : (u.result (attemptFull cx)).2.guard = outer.guard :=
      (attemptFull_orderly cx n outer).guard
    rw [← result_eq hm, hguard] at hleft
    have hlow : outer.count < (body u.inside).2.count := (hsection.count hroom).1
    have hhigh := Progress.lt_count hleft
    rw [← event?_of_suffix hkept hhigh] at hleft
    have hshown : d ≤ outer.guard.currentDepth := hopen _ _ (by omega) (by omega) hleft
    omega

end Nesting

end PegGraph.Parse
