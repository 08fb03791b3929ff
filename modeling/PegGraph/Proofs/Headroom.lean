/-
PegGraph.Proofs.Headroom — what a parse can see of its guard.

  §1 Shifts — a trial under another guard, when the guard has no say in how it ends.
  §2 Calls  — the actions called in a parse.
  §3 Parses — `run_headroom`: nothing but the headroom counts, and more of it changes
              no parse that had enough.

A refusal of the guard is final: no choice and no repetition takes it for no match
(`Covers.partOf`). So where a parse does not end with one there was none, and with
more headroom every section is entered that was entered before. The rest is the
shift of a trial (`attemptActor_shift`), by induction from the trials that it makes.
-/
import PegGraph.Proofs.Dispatch
import PegGraph.Proofs.Recognition

namespace PegGraph

namespace Parse

/-! ## §1 Shifts -/

/-- The guard has no say in how a trial ends elsewhere: it is as it was, or there is
no less headroom and it has refused nothing. -/
inductive Shift.Spares (s : Shift) (cx : Setting) (t : Trial) : Prop
  | same (hlimit : s.limit = t.start.guard.maxDepth) (hlevels : s.levels = 0)
  | deeper (hroom : t.start.guard.headroom ≤ (s.guard t.start.guard).headroom)
      (hcut : (t.result (attemptFull cx)).1 ≠ .failed (.depthLimitExceeded t.start.guard.maxDepth))

variable {s : Shift} {cx cx' : Setting} {t u : Trial}

theorem Shift.Spares.admits (hm : cx.mode = .reject)
    (hc : (cx.grammar.node t.node).isComposite = true) (h : s.Spares cx t) : s.Admits t.start := by
  cases h with
  | same hlimit hlevels =>
    have hroom : (s.progress t.start).HasRoom ↔ t.start.HasRoom := by
      simp [Progress.HasRoom, Shift.progress, Shift.guard, hlimit, hlevels]
    exact ⟨hroom.2, fun hfull => ⟨fun h => hfull (hroom.1 h), hlimit⟩⟩
  | deeper hroom hcut =>
    have henter : t.start.HasRoom := by
      by_contra hfull
      rw [result_eq hm] at hcut
      exact hcut (congrArg Prod.fst (attemptActor_of_not_hasRoom hc hfull))
    have hpos := Progress.hasRoom_iff.1 henter
    exact ⟨fun _ => Progress.hasRoom_iff.2 (Nat.lt_of_lt_of_le hpos hroom),
      fun hfull => absurd henter hfull⟩

/-- What a guard has no say in, it has no say in any part of. -/
theorem Shift.Spares.tries (hm : cx.mode = .reject) (hu : Tries cx (attemptFull cx) t u)
    (h : s.Spares cx t) : s.Spares cx u := by
  have hguard := hu.guard_eq (attemptFull_orderly cx)
  have hlimit : u.start.guard.maxDepth = t.start.guard.maxDepth := by rw [hguard]
  cases h with
  | same hsame hlevels => exact .same (hsame.trans hlimit.symm) hlevels
  | deeper hroom hcut =>
    refine .deeper ?_ fun hfail => hcut ?_
    · have henter := hu.hasRoom
      unfold Progress.HasRoom at henter
      rw [hguard]
      simp only [DepthGuard.headroom, Shift.guard] at hroom ⊢
      omega
    · have hpart := hu.partOf (attemptFull_orderly cx)
      rw [result_eq hm, ← hlimit]
      exact hpart.failed _ hfail

/-- **A trial elsewhere** comes to the same there, if the guard has no say in it. -/
theorem result_shift (hm : cx.mode = .reject) (hm' : cx'.mode = .reject)
    (hgrammar : cx'.grammar = cx.grammar)
    (hfits : ∀ pos, t.start.pos ≤ pos → pos ≤ max t.start.pos cx.source.length →
      s.Fits cx.source cx'.source pos)
    (hact : ∀ n child act mark, cx.grammar.Reaches t.node n →
      cx.grammar.node n = .action child act mark →
      ∀ depth, act.apply (cx'.readDepth (depth + s.levels)) = act.apply (cx.readDepth depth))
    (h : s.Spares cx t) :
    attemptFull cx' t.node (s.progress t.start) = s.result (t.result (attemptFull cx)) := by
  induction t using Trial.induct cx with
  | step t ih =>
    rw [attemptFull_eq cx', attemptNode_reject hm', result_eq hm]
    refine attemptActor_shift (attemptFull_orderly cx) hgrammar hfits (fun hc => h.admits hm hc)
      (fun child act mark hnode => hact t.node child act mark .refl hnode) fun u hu => ?_
    have hlater := hu.later (attemptFull_orderly cx)
    have hlow : t.start.pos ≤ u.start.pos := hlater.le_pos
    have hhigh : u.start.pos ≤ max t.start.pos cx.source.length := hlater.pos_le
    refine ih u hu (fun pos hpos hend => ?_)
      (fun n child act mark hr => hact n child act mark (.head hu.linked hr)) (h.tries hm hu)
    exact hfits pos (hlow.trans hpos) (by omega)

/-- A trial anywhere, as the shift of one that starts with nothing on record. -/
theorem result_onto (hm : cx.mode = .reject) {n : NodeId} (hpure : cx.grammar.ActsPurely n)
    (guard : DepthGuard) (st : Progress)
    (h : (Shift.onto guard st).Spares cx ⟨n, ⟨st.pos, guard, []⟩⟩) :
    attemptFull cx n st = (Shift.onto guard st).result (attemptFull cx n ⟨st.pos, guard, []⟩) := by
  let t : Trial := ⟨n, ⟨st.pos, guard, []⟩⟩
  have hact : ∀ m child act mark, cx.grammar.Reaches n m →
      cx.grammar.node m = .action child act mark → ∀ depth,
        act.apply (cx.readDepth (depth + (Shift.onto guard st).levels)) =
          act.apply (cx.readDepth depth) :=
    fun _ _ _ _ hr hnode _ => hpure.apply_eq hr hnode _ _
  have hshift := result_shift (t := t) hm hm rfl
    (fun pos _ _ => Shift.fits_self rfl cx.source pos) hact h
  rw [Shift.progress_onto] at hshift
  exact hshift

/-! ## §2 Calls -/

/-- The call that an event records: the node whose action is called, and the value
that it is given. -/
def Event.call? : Event → Option (NodeId × Value)
  | .applied id _ value _ => some (id, value)
  | _ => none

/-- The calls of actions up to some progress, the earliest first. -/
def Progress.calls (st : Progress) : List (NodeId × Value) :=
  st.events.reverse.filterMap Event.call?

theorem Shift.call?_event (s : Shift) (e : Event) : (s.event e).call? = e.call? := by
  cases e <;> rfl

theorem Shift.calls_progress (s : Shift) (hs : s.before = []) (st : Progress) :
    (s.progress st).calls = st.calls := by
  simp only [Progress.calls, Shift.progress, hs, List.append_nil, ← List.map_reverse,
    List.filterMap_map]
  exact List.filterMap_congr fun e _ => s.call?_event e

end Parse

/-! ## §3 Parses -/

/-- Outcomes under two guards that differ at most in the limit that a refusal
names. -/
inductive Outcome.AlikeUnder (guard guard' : DepthGuard) : Outcome → Outcome → Prop
  /-- The same value at the same position, no match, or the same fault. -/
  | same (outcome : Outcome) : AlikeUnder guard guard' outcome outcome
  /-- Each guard has refused a composite. -/
  | refused : AlikeUnder guard guard' (.failed (.depthLimitExceeded guard.maxDepth))
      (.failed (.depthLimitExceeded guard'.maxDepth))

namespace Parse

variable {cx : Setting} {n : NodeId}

/-- With no less headroom a parse that was refused nothing goes the same way. -/
theorem run_deeper (hm : cx.mode = .reject) (hpure : cx.grammar.ActsPurely n) (pos : Int)
    {guard guard' : DepthGuard} (hroom : guard.headroom ≤ guard'.headroom)
    (hcut : (run cx n pos guard).1 ≠ .failed (.depthLimitExceeded guard.maxDepth)) :
    (run cx n pos guard').1 = (run cx n pos guard).1 ∧
      (run cx n pos guard').2.pos = (run cx n pos guard).2.pos ∧
      (run cx n pos guard').2.calls = (run cx n pos guard).2.calls := by
  have hspares : (Shift.onto guard ⟨pos, guard', []⟩).Spares cx ⟨n, ⟨pos, guard, []⟩⟩ := by
    refine .deeper ?_ hcut
    rw [Shift.guard_onto]
    exact hroom
  have hrun : run cx n pos guard' =
      (Shift.onto guard ⟨pos, guard', []⟩).result (run cx n pos guard) :=
    result_onto hm hpure guard ⟨pos, guard', []⟩ hspares
  rw [hrun]
  exact ⟨Shift.outcome_onto _ _ _, Int.add_zero _, Shift.calls_progress _ rfl _⟩

/-- **Nothing but the headroom counts**: a parse ends alike under guards with the
same headroom, and if it was refused nothing, then with more headroom it ends with
the same outcome and at the same position after the same calls. -/
theorem run_headroom (hm : cx.mode = .reject) (hpure : cx.grammar.ActsPurely n) (pos : Int)
    (guard guard' : DepthGuard) :
    (guard.headroom = guard'.headroom →
      Outcome.AlikeUnder guard guard' (run cx n pos guard).1 (run cx n pos guard').1) ∧
    (guard.headroom ≤ guard'.headroom →
      (run cx n pos guard).1 ≠ .failed (.depthLimitExceeded guard.maxDepth) →
        (run cx n pos guard').1 = (run cx n pos guard).1 ∧
        (run cx n pos guard').2.pos = (run cx n pos guard).2.pos ∧
        (run cx n pos guard').2.calls = (run cx n pos guard).2.calls) := by
  refine ⟨fun hroom => ?_, fun hroom hcut => run_deeper hm hpure pos hroom hcut⟩
  by_cases hcut : (run cx n pos guard).1 = .failed (.depthLimitExceeded guard.maxDepth)
  · by_cases hcut' : (run cx n pos guard').1 = .failed (.depthLimitExceeded guard'.maxDepth)
    · rw [hcut, hcut']
      exact .refused
    · rw [(run_deeper hm hpure pos hroom.ge hcut').1]
      exact .same _
  · rw [(run_deeper hm hpure pos hroom.le hcut).1]
    exact .same _

/-- The text of two letters, where a call changes nothing. -/
def tracedLetters : Setting :=
  ⟨letters (.traced "a"), .ofString "aa", .reject, fun _ _ => none⟩

/-- Three levels are enough, also deep down in a roomier guard; with two, guards of
different limits refuse the same letter. -/
theorem run_headroom_letters :
    tracedLetters.mode = .reject ∧ tracedLetters.grammar.ActsPurely 0 ∧
      (Outcome.AlikeUnder ⟨2, 0⟩ ⟨8, 6⟩ (run tracedLetters 0 0 ⟨2, 0⟩).1
          (run tracedLetters 0 0 ⟨8, 6⟩).1 ∧
        (run tracedLetters 0 0 ⟨2, 0⟩).2.calls = []) ∧
      (run tracedLetters 0 0 ⟨3, 0⟩).1 ≠ .failed (.depthLimitExceeded 3) ∧
      (run tracedLetters 0 0 ⟨20, 6⟩).1 = (run tracedLetters 0 0 ⟨3, 0⟩).1 ∧
      (run tracedLetters 0 0 ⟨20, 6⟩).2.pos = (run tracedLetters 0 0 ⟨3, 0⟩).2.pos ∧
      (run tracedLetters 0 0 ⟨20, 6⟩).2.calls = (run tracedLetters 0 0 ⟨3, 0⟩).2.calls ∧
      (run tracedLetters 0 0 ⟨3, 0⟩).2.calls.length = 3 := by
  have hpure : tracedLetters.grammar.ActsPurely 0 := by
    intro m hr
    have hall : ∀ k ∈ [0, 1, 2, 3, 4, 5], ((letters (.traced "a")).node k).isPure = true := by
      decide
    exact hall m (reaches_letters hr)
  have hcut : (run tracedLetters 0 0 ⟨3, 0⟩).1 ≠ .failed (.depthLimitExceeded 3) := by
    intro hfail
    have hjoined : joined (run tracedLetters 0 0 ⟨3, 0⟩).1 = some ("aa", 2) := by decide +kernel
    rw [hfail] at hjoined
    cases hjoined
  have hless := (run_headroom rfl hpure 0 ⟨2, 0⟩ ⟨8, 6⟩).1 (by decide)
  have hnone : (run tracedLetters 0 0 ⟨2, 0⟩).2.calls.length = 0 := by decide +kernel
  have hcalls : (run tracedLetters 0 0 ⟨3, 0⟩).2.calls.length = 3 := by decide +kernel
  obtain ⟨hout, hpos, hsame⟩ := (run_headroom rfl hpure 0 ⟨3, 0⟩ ⟨20, 6⟩).2 (by decide) hcut
  exact ⟨rfl, hpure, ⟨hless, List.length_eq_zero_iff.1 hnone⟩, hcut, hout, hpos, hsame, hcalls⟩

end Parse

end PegGraph
