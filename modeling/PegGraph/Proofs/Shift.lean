/-
PegGraph.Proofs.Shift — the same trial elsewhere: further on in a longer text,
or deeper under another guard.

  §1 Shifts     — what becomes of a progress and of a result.
  §2 Sources    — texts that look alike from two positions.
  §3 Composites — one lemma for each way of trying children.
  §4 Trials     — `attemptActor_shift`: a trial shifts with the trials it makes.

A trial sees positions only against one another and against the end of the text,
and depths only against the limit. So to shift a trial is to shift its result, if
the guard lets it in or refuses it on both sides. With the shift that changes
nothing this says that what a trial comes to depends on the trials it makes and
on nothing else (`attemptActor_congr_tries`).
-/
import PegGraph.Proofs.Trial

namespace PegGraph.Parse

/-! ## §1 Shifts -/

/-- Where else: so many characters further on, so many levels further down under a
guard with a limit of its own, and after what is on record there already. -/
structure Shift where
  chars : Nat
  levels : Int
  limit : Int
  before : List Event

namespace Shift

variable {s : Shift} {st : Progress} {id : NodeId}

def guard (s : Shift) (guard : DepthGuard) : DepthGuard where
  maxDepth := s.limit
  currentDepth := guard.currentDepth + s.levels

def event (s : Shift) : Event → Event
  | .entered id pos depth => .entered id (pos + s.chars) (depth + s.levels)
  | .left id pos depth => .left id (pos + s.chars) (depth + s.levels)
  | .tried id pos depth => .tried id (pos + s.chars) (depth + s.levels)
  | .applied id label value depth => .applied id label value (depth + s.levels)

def progress (s : Shift) (st : Progress) : Progress where
  pos := st.pos + s.chars
  guard := s.guard st.guard
  events := st.events.map s.event ++ s.before

def outcome (s : Shift) : Outcome → Outcome
  | .matched value pos => .matched value (pos + s.chars)
  | .noMatch => .noMatch
  | .failed fault => .failed fault

def result (s : Shift) (r : Outcome × Progress) : Outcome × Progress :=
  (s.outcome r.1, s.progress r.2)

/-- The shift that changes nothing, under a given limit. -/
def none (limit : Int) : Shift := ⟨0, 0, limit, []⟩

theorem event_none (limit : Int) (e : Event) : (none limit).event e = e := by
  cases e <;> simp [event, none]

theorem progress_none {limit : Int} (h : st.guard.maxDepth = limit) :
    (none limit).progress st = st := by
  obtain ⟨pos, ⟨maxDepth, depth⟩, events⟩ := st
  have hevents : events.map (none limit).event = events :=
    List.map_id'' (event_none limit) events
  simp only [progress, hevents]
  simp [none, guard, h.symm]

theorem result_none {limit : Int} {r : Outcome × Progress} (h : r.2.guard.maxDepth = limit) :
    (none limit).result r = r := by
  obtain ⟨outcome, after⟩ := r
  unfold result
  rw [progress_none h]
  cases outcome <;> simp [Shift.outcome, none]

/-- The shift onto a progress of a start at its position with nothing on record,
under some guard. -/
def onto (guard : DepthGuard) (st : Progress) : Shift :=
  ⟨0, st.guard.currentDepth - guard.currentDepth, st.guard.maxDepth, st.events⟩

theorem guard_onto (guard : DepthGuard) (st : Progress) :
    (onto guard st).guard guard = st.guard := by
  have hdepth : guard.currentDepth + (st.guard.currentDepth - guard.currentDepth) =
      st.guard.currentDepth := by omega
  simp only [Shift.guard, onto, hdepth]

theorem progress_onto (guard : DepthGuard) (st : Progress) :
    (onto guard st).progress ⟨st.pos, guard, []⟩ = st := by
  simp only [progress, guard_onto]
  simp [onto]

/-- Onto a progress at the same position, outcomes stay what they are. -/
theorem outcome_onto (guard : DepthGuard) (st : Progress) (outcome : Outcome) :
    (onto guard st).outcome outcome = outcome := by
  cases outcome with
  | matched value pos => exact congrArg (Outcome.matched value) (Int.add_zero pos)
  | noMatch | failed => rfl

theorem within_progress : (s.progress st).within id = s.progress (st.within id) := by
  simp [Progress.within, Progress.note, progress, guard, event, Int.add_right_comm]

theorem leave_progress : (s.progress st).leave id = s.progress (st.leave id) := by
  have hdepth : st.guard.currentDepth + s.levels - 1 = st.guard.currentDepth - 1 + s.levels := by
    omega
  simp [Progress.leave, DepthGuard.leave, Progress.note, progress, guard, event, hdepth]

/-! ## §2 Sources -/

/-- A position of one text and the shifted position of another, which is longer by
the characters before it: the same is read at both, and if one is no position to
go back to, neither is the other. -/
structure Fits (s : Shift) (source source' : Source) (pos : Int) : Prop where
  length : (source'.length : Int) = source.length + s.chars
  read : source'.read (pos + s.chars) = source.read pos
  check : Cursor.checkPosition source' (pos + s.chars) = Cursor.checkPosition source pos

/-- In one and the same text every position fits itself. -/
theorem fits_self (h : s.chars = 0) (source : Source) (pos : Int) : s.Fits source source pos := by
  constructor <;> simp [h]

end Shift

variable {s : Shift} {cx cx' : Setting} {att att' : Attempt} {source source' : Source}
  {st : Progress} {t : Trial} {id child : NodeId}

/-- Going back to where another progress stands. -/
theorem restore_shift (hfits : s.Fits source source' st.pos) (after : Progress) :
    (s.progress after).restore source' (s.progress st).pos =
      (after.restore source st.pos).map s.progress := by
  have hcheck : Cursor.checkPosition source' (s.progress st).pos =
      Cursor.checkPosition source st.pos := hfits.check
  unfold Progress.restore
  rw [hcheck]
  cases Cursor.checkPosition source st.pos <;> rfl

/-- A position further on is as far from the end. -/
theorem remaining_shift (hfits : s.Fits source source' st.pos) :
    (s.progress st).remaining source' = st.remaining source := by
  have hlength := hfits.length
  simp only [Progress.remaining, Shift.progress]
  omega

theorem atEnd_shift (hfits : s.Fits source source' st.pos) :
    (s.progress st).pos ≥ source'.length ↔ st.pos ≥ source.length := by
  have hlength := hfits.length
  simp only [Shift.progress]
  omega

/-! ## §3 Composites -/

theorem attemptRange_shift (bounds : CharRange) (hfits : s.Fits source source' st.pos) :
    attemptRange source' bounds (s.progress st) = s.result (attemptRange source bounds st) := by
  have hread : source'.read (s.progress st).pos = source.read st.pos := hfits.read
  have hnext : (s.progress st).pos + 1 = st.pos + 1 + s.chars := Int.add_right_comm _ _ _
  unfold attemptRange
  simp only [atEnd_shift hfits, hread, hnext]
  split
  · rfl
  · split
    · rfl
    · split <;> rfl

theorem attemptEnd_shift (hfits : s.Fits source source' st.pos) :
    attemptEnd source' (s.progress st) = s.result (attemptEnd source st) := by
  unfold attemptEnd
  simp only [atEnd_shift hfits]
  split <;> rfl

theorem attemptAll_shift {ids : List NodeId} (values : List Value)
    (h : ∀ id rest last, Proceeds att ids st (id :: rest) last →
      att' id (s.progress last) = s.result (att id last)) :
    attemptAll att' ids values (s.progress st) = s.result (attemptAll att ids values st) := by
  induction ids generalizing values st with
  | nil => rfl
  | cons id ids ih =>
    have hid := h id ids st .done
    have hrest := fun value pos after (heq : att id st = (.matched value pos, after)) =>
      ih (value :: values) fun id' rest last hway => h id' rest last (.next heq hway)
    unfold attemptAll
    rw [hid]
    generalize att id st = r at hrest
    obtain ⟨outcome, after⟩ := r
    cases outcome with
    | matched value pos => exact hrest value pos after rfl
    | noMatch | failed => rfl

theorem attemptEither_shift {first second : NodeId} (hfits : s.Fits source source' st.pos)
    (hfirst : att' first (s.progress st) = s.result (att first st))
    (hsecond : ∀ after back, att first st = (.noMatch, after) →
      after.restore source st.pos = .ok back →
        att' second (s.progress back) = s.result (att second back)) :
    attemptEither att' source' first second (s.progress st) =
      s.result (attemptEither att source first second st) := by
  unfold attemptEither
  rw [hfirst]
  generalize att first st = r at hsecond
  obtain ⟨outcome, after⟩ := r
  cases outcome with
  | matched | failed => rfl
  | noMatch =>
    have hback := hsecond after
    simp only [Shift.result, Shift.outcome, restore_shift hfits]
    generalize after.restore source st.pos = b at hback
    cases b with
    | error fault => rfl
    | ok back => exact hback back rfl rfl

theorem attemptMany_shift (tries : Nat) (values : List Value)
    (hfits : ∀ last, Repeats att id child st last → s.Fits source source' last.pos)
    (h : ∀ last, Repeats att id child st last →
      att' child (s.progress (last.note (.tried id last.pos last.guard.currentDepth))) =
        s.result (att child (last.note (.tried id last.pos last.guard.currentDepth)))) :
    attemptMany att' source' id child tries values (s.progress st) =
      s.result (attemptMany att source id child tries values st) := by
  induction tries generalizing values st with
  | zero => rfl
  | succ tries ih =>
    have htry := h st .done
    have hrest := fun value pos after (heq : att child (st.note (.tried id st.pos
        st.guard.currentDepth)) = (.matched value pos, after)) (hmoved : after.pos ≠ st.pos) =>
      ih (value :: values) (fun last hway => hfits last (.next heq hmoved hway))
        fun last hway => h last (.next heq hmoved hway)
    unfold attemptMany
    rw [show (s.progress st).note (.tried id (s.progress st).pos
      (s.progress st).guard.currentDepth) =
        s.progress (st.note (.tried id st.pos st.guard.currentDepth)) from rfl]
    rw [htry]
    generalize att child _ = r at hrest
    obtain ⟨outcome, after⟩ := r
    cases outcome with
    | failed => rfl
    | noMatch =>
      simp only [Shift.result, Shift.outcome, restore_shift (hfits st .done)]
      cases after.restore source st.pos <;> rfl
    | matched value pos =>
      have hmoved : (s.progress after).pos = (s.progress st).pos ↔ after.pos = st.pos := by
        simp [Shift.progress]
      simp only [Shift.result, Shift.outcome, hmoved]
      split
      · rfl
      · next hne => exact hrest value pos after rfl hne

theorem applyAction_shift {act : Action}
    (hact : ∀ depth, act.apply (cx'.readDepth (depth + s.levels)) = act.apply (cx.readDepth depth))
    (id : NodeId) (r : Outcome × Progress) :
    applyAction cx' id act (s.result r) = s.result (applyAction cx id act r) := by
  obtain ⟨outcome, after⟩ := r
  cases outcome with
  | noMatch | failed => rfl
  | matched value pos =>
    have happly : act.apply (cx'.readDepth (s.progress after).guard.currentDepth) =
        act.apply (cx.readDepth after.guard.currentDepth) := hact after.guard.currentDepth
    simp only [Shift.result, Shift.outcome, applyAction, happly]
    split <;> rfl

/-! ## §4 Trials -/

/-- The guard lets a section be entered on both sides of a shift or on neither, and
where on neither it names the same limit. -/
structure Shift.Admits (s : Shift) (st : Progress) : Prop where
  hasRoom : st.HasRoom → (s.progress st).HasRoom
  refused : ¬ st.HasRoom → ¬ (s.progress st).HasRoom ∧ s.limit = st.guard.maxDepth

theorem guarded_shift {body body' : Progress → Outcome × Progress} (hadmits : s.Admits st)
    (h : st.HasRoom → body' (s.progress (st.within id)) = s.result (body (st.within id))) :
    guarded id body' (s.progress st) = s.result (guarded id body st) := by
  by_cases hroom : st.HasRoom
  · rw [guarded_of_hasRoom hroom, guarded_of_hasRoom (hadmits.hasRoom hroom),
      Shift.within_progress, h hroom]
    simp only [Shift.result, Shift.leave_progress]
  · obtain ⟨hfull, hlimit⟩ := hadmits.refused hroom
    rw [guarded_of_not_hasRoom hroom, guarded_of_not_hasRoom hfull, ← hlimit]
    rfl

/-- **A trial shifts** with the trials that it makes. -/
theorem attemptActor_shift (hatt : Orderly cx.source att) (hgrammar : cx'.grammar = cx.grammar)
    (hfits : ∀ pos, t.start.pos ≤ pos → pos ≤ max t.start.pos cx.source.length →
      s.Fits cx.source cx'.source pos)
    (hadmits : (cx.grammar.node t.node).isComposite = true → s.Admits t.start)
    (hact : ∀ child act mark, cx.grammar.node t.node = .action child act mark →
      ∀ depth, act.apply (cx'.readDepth (depth + s.levels)) = act.apply (cx.readDepth depth))
    (h : ∀ u, Tries cx att t u → att' u.node (s.progress u.start) = s.result (u.result att)) :
    attemptActor cx' att' t.node (s.progress t.start) =
      s.result (t.result (attemptActor cx att)) := by
  have hself := hfits t.start.pos (Int.le_refl _) (Int.le_max_left _ _)
  unfold Trial.result attemptActor
  rw [hgrammar]
  cases hnode : cx.grammar.node t.node with
  | abstract | reference => rfl
  | range bounds => exact attemptRange_shift bounds hself
  | endOfInput => exact attemptEnd_shift hself
  | sequence ids =>
    rw [hnode] at hadmits
    refine guarded_shift (hadmits rfl) fun hroom => attemptAll_shift [] fun id rest last hway => ?_
    exact h ⟨id, last⟩ (.sequence hnode hroom hway)
  | choice a b =>
    rw [hnode] at hadmits
    refine guarded_shift (hadmits rfl) fun hroom => attemptEither_shift hself ?_ ?_
    · exact h ⟨a, t.inside⟩ (.first hnode hroom)
    · exact fun after back heq hback => h ⟨b, back⟩ (.second hnode hroom heq hback)
  | repetition child =>
    rw [hnode] at hadmits
    refine guarded_shift (hadmits rfl) fun hroom => ?_
    have hinside : s.Fits cx.source cx'.source t.inside.pos := hself
    show attemptMany att' _ _ _ ((s.progress t.inside).remaining _ + 1) _ _ = _
    rw [remaining_shift hinside]
    refine attemptMany_shift _ [] (fun last hway => ?_) fun last hway => ?_
    · have hlater := hway.later hatt
      exact hfits last.pos hlater.le_pos hlater.pos_le
    · exact h _ (.again hnode hroom hway)
  | action child act mark =>
    rw [hnode] at hadmits
    have hchild : guarded t.node (att' child) (s.progress t.start) =
        s.result (guarded t.node (att child) t.start) :=
      guarded_shift (hadmits rfl) fun hroom => h ⟨child, t.inside⟩ (.action hnode hroom)
    simp only [hchild]
    exact applyAction_shift (hact child act mark hnode) t.node _

/-- What a trial comes to depends on the trials that it makes, and on nothing else
of the function that tries children. -/
theorem attemptActor_congr_tries (hatt : Orderly cx.source att)
    (h : ∀ u, Tries cx att t u → u.result att' = u.result att) :
    t.result (attemptActor cx att') = t.result (attemptActor cx att) := by
  let s := Shift.none t.start.guard.maxDepth
  have hstart : s.progress t.start = t.start := Shift.progress_none rfl
  have hends : (t.result (attemptActor cx att)).2.guard = t.start.guard :=
    (attemptActor_ends hatt t.node t.start).guard
  have hresult : s.result (t.result (attemptActor cx att)) = t.result (attemptActor cx att) :=
    Shift.result_none (by rw [hends])
  have hadmits : s.Admits t.start :=
    ⟨fun hroom => by rwa [hstart], fun hfull => ⟨by rwa [hstart], rfl⟩⟩
  have hact : ∀ (act : Action) depth,
      act.apply (cx.readDepth (depth + s.levels)) = act.apply (cx.readDepth depth) :=
    fun act depth => congrArg (fun d => act.apply (cx.readDepth d)) (Int.add_zero depth)
  have htries : ∀ u, Tries cx att t u →
      att' u.node (s.progress u.start) = s.result (u.result att) := by
    intro u hu
    have hguard : u.start.guard.maxDepth = t.start.guard.maxDepth := by rw [hu.guard_eq hatt]
    have hends : (u.result att).2.guard = u.start.guard := (hatt u.node u.start).guard
    rw [Shift.progress_none hguard, Shift.result_none (by rw [hends, hguard])]
    exact h u hu
  have hshift := attemptActor_shift hatt rfl (fun pos _ _ => Shift.fits_self rfl cx.source pos)
    (fun _ => hadmits) (fun _ act _ _ => hact act) htries
  rwa [hstart, hresult] at hshift

end PegGraph.Parse
