/-
PegGraph.Proofs.LeftRecursion — a node that is tried again where it is being tried.

  §1 Records — how much two trials of one node put on record, from one position.
  §2 Reentry — `run_reentered`: a parse that comes back to a node at the same
               position exceeds the depth limit.

No cycle of the grammar is looked for. Whether a node is come back to before
anything is consumed depends on the text, on what has matched nothing and on what
was given up, so it is the parse that is followed. Suppose that the trial inside,
which has less headroom, is not refused. Then the one around it goes the same way
(`result_onto`), and both put equally much on record. But the one around it has the
other's record inside its own, and its own entry before that.
-/
import PegGraph.Proofs.Headroom
import PegGraph.Proofs.Record

namespace PegGraph.Parse

variable {cx : Setting} {n root : NodeId} {outer inner : Progress}

/-! ## §1 Records -/

theorem Shift.length_events (s : Shift) (st : Progress) :
    (s.progress st).events.length = st.events.length + s.before.length := by
  simp [Shift.progress]

/-- Whether an event is the entry of a node. -/
def Event.isEntry (n : NodeId) (pos depth : Int) : Event → Bool
  | .entered n' pos' depth' => n' == n && pos' == pos && depth' == depth
  | _ => false

theorem Event.eq_of_isEntry {pos depth : Int} {e : Event} (h : e.isEntry n pos depth = true) :
    e = .entered n pos depth := by
  cases e with
  | entered => simpa [isEntry, and_assoc] using h
  | left | tried | applied => cases h

theorem event?_of_any_isEntry {st : Progress} {pos depth : Int} {i : Nat}
    (h : (st.event? i).any (Event.isEntry n pos depth) = true) :
    st.event? i = some (.entered n pos depth) := by
  obtain ⟨e, he, hentry⟩ := (Option.any_eq_true ..).1 h
  rw [he, Event.eq_of_isEntry hentry]

/-- Two trials of one node from the same position put equally much on record, if the
one with less headroom is not refused. -/
theorem exists_length_record (hm : cx.mode = .reject) (hpure : cx.grammar.ActsPurely n)
    (hpos : inner.pos = outer.pos) (hroom : inner.guard.headroom ≤ outer.guard.headroom)
    (hcut : (attemptFull cx n inner).1 ≠ .failed (.depthLimitExceeded inner.guard.maxDepth)) :
    ∃ length, (attemptFull cx n inner).2.events.length = length + inner.events.length ∧
      (attemptFull cx n outer).2.events.length = length + outer.events.length := by
  have hinner := result_onto hm hpure inner.guard inner (.same rfl (Int.sub_self _))
  have hcut' : (attemptFull cx n ⟨inner.pos, inner.guard, []⟩).1 ≠
      .failed (.depthLimitExceeded inner.guard.maxDepth) := by
    intro hfail
    rw [hinner] at hcut
    refine hcut ?_
    show Shift.outcome _ _ = _
    rw [hfail]
    rfl
  have houter : attemptFull cx n outer = _ := result_onto hm hpure inner.guard outer
    (.deeper (by rw [Shift.guard_onto]; exact hroom) (by rwa [← hpos]))
  refine ⟨(attemptFull cx n ⟨inner.pos, inner.guard, []⟩).2.events.length, ?_, ?_⟩
  · rw [hinner]
    exact Shift.length_events _ _
  · rw [houter, ← hpos]
    exact Shift.length_events _ _

/-! ## §2 Reentry -/

/-- A node that is tried again, at the position where it is being tried, is refused
somewhere inside. -/
theorem Encloses.refused (hm : cx.mode = .reject) (hpure : cx.grammar.ActsPurely n)
    (h : Encloses cx ⟨n, outer⟩ ⟨n, inner⟩) (hpos : inner.pos = outer.pos) :
    (attemptFull cx n inner).1 = .failed (.depthLimitExceeded inner.guard.maxDepth) := by
  by_contra hcut
  have hroom : inner.guard.headroom < outer.guard.headroom := h.headroom_lt
  obtain ⟨length, hinner, houter⟩ := exists_length_record hm hpure hpos hroom.le hcut
  have hcovers : Covers cx ⟨n, outer⟩ ⟨n, inner⟩ := h.to_reflTransGen
  have hkept : (attemptFull cx n inner).2.events.length ≤
      (attemptFull cx n outer).2.events.length := (hcovers.partOf hm).events.length_le
  have hbefore : outer.events.length < inner.events.length := h.events_length
  omega

/-- A node is tried at the position where a trial of it has started that still goes
on, whether or not it is let in again. -/
def Reenters (cx : Setting) (t : Trial) : Prop :=
  ∃ n outer inner, Covers cx t ⟨n, outer⟩ ∧ Encloses cx ⟨n, outer⟩ ⟨n, inner⟩ ∧
    inner.pos = outer.pos

/-- As it shows in a record: a node has entered its section twice at one position, and
the first was not left in between, which would show a lesser depth. -/
def ShowsReentry (st : Progress) : Prop :=
  ∃ n pos depth depth' i j, i < j ∧ st.event? i = some (.entered n pos depth) ∧
    st.event? j = some (.entered n pos depth') ∧
    ∀ k e, i < k → k < j → st.event? k = some e → depth ≤ e.depth

theorem ShowsReentry.reenters (hm : cx.mode = .reject) {pos : Int} {guard : DepthGuard}
    (h : ShowsReentry (run cx root pos guard).2) : Reenters cx ⟨root, ⟨pos, guard, []⟩⟩ := by
  obtain ⟨n, p, depth, depth', i, j, hij, hi, hj, hopen⟩ := h
  obtain ⟨outer, inner, houter, hinner, hpos, hpos'⟩ := exists_encloses hm hij hi hj hopen
  exact ⟨n, outer, inner, houter, hinner, hpos'.trans hpos.symm⟩

/-- **Left recursion is always refused**: where a parse tries a node at the position
at which it is trying that node already, the parse ends with the depth limit. -/
theorem run_reentered (hm : cx.mode = .reject) (hpure : cx.grammar.ActsPurely root) {pos : Int}
    {guard : DepthGuard} (h : Reenters cx ⟨root, ⟨pos, guard, []⟩⟩ ∨
      ShowsReentry (run cx root pos guard).2) :
    (run cx root pos guard).1 = .failed (.depthLimitExceeded guard.maxDepth) := by
  obtain ⟨n, outer, inner, houter, hinner, hpos⟩ := h.elim id fun hshows => hshows.reenters hm
  have hcovers : Covers cx ⟨root, ⟨pos, guard, []⟩⟩ ⟨n, inner⟩ :=
    houter.trans hinner.to_reflTransGen
  have hpure' : cx.grammar.ActsPurely n := fun m hr => hpure m (houter.reaches.trans hr)
  have hrefused := hinner.refused hm hpure' hpos
  have hlimit : inner.guard.maxDepth = guard.maxDepth := hcovers.depth.1
  rw [hlimit] at hrefused
  exact (hcovers.partOf hm).failed _ hrefused

/-- Any number of letters, and then the same again: where no letter is left, nothing
is consumed before that. -/
def leftRecursive : Setting :=
  ⟨⟨#[.sequence [1, 0] false, .repetition 2 false, .range (.single 'x')]⟩, .ofString "x", .reject,
    fun _ _ => none⟩

/-- The one letter is consumed before the sequence is tried for the second time, but
none before the third. -/
theorem run_reentered_letters :
    leftRecursive.mode = .reject ∧ leftRecursive.grammar.ActsPurely 0 ∧
      ShowsReentry (run leftRecursive 0 0 ⟨9, 0⟩).2 ∧
      Reenters leftRecursive ⟨0, ⟨0, ⟨9, 0⟩, []⟩⟩ ∧
      (run leftRecursive 0 0 ⟨9, 0⟩).1 = .failed (.depthLimitExceeded 9) := by
  have hpure : leftRecursive.grammar.ActsPurely 0 := by
    intro m hr
    have hmem : m ∈ [0, 1, 2] := hr.mem_of_closed (by decide)
      (by simp [leftRecursive, Grammar.links, Grammar.node, Node.links])
    have hall : ∀ k ∈ [0, 1, 2], (leftRecursive.grammar.node k).isPure = true := by decide
    exact hall m hmem
  have hsecond : (run leftRecursive 0 0 ⟨9, 0⟩).2.event? 5 = some (.entered 0 1 2) :=
    event?_of_any_isEntry (by decide +kernel)
  have hthird : (run leftRecursive 0 0 ⟨9, 0⟩).2.event? 9 = some (.entered 0 1 3) :=
    event?_of_any_isEntry (by decide +kernel)
  have hbetween : ∀ k < 9, 5 < k →
      ((run leftRecursive 0 0 ⟨9, 0⟩).2.event? k).all (fun e => decide (2 ≤ e.depth)) = true := by
    decide +kernel
  have hshows : ShowsReentry (run leftRecursive 0 0 ⟨9, 0⟩).2 := by
    refine ⟨0, 1, 2, 3, 5, 9, by decide, hsecond, hthird, fun k e hlow hhigh hk => ?_⟩
    have hdepth := hbetween k hhigh hlow
    rw [hk] at hdepth
    exact of_decide_eq_true hdepth
  have hreenters : Reenters leftRecursive ⟨0, ⟨0, ⟨9, 0⟩, []⟩⟩ := hshows.reenters rfl
  exact ⟨rfl, hpure, hshows, hreenters, run_reentered rfl hpure (.inl hreenters)⟩

end PegGraph.Parse
