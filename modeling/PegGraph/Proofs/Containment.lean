/-
PegGraph.Proofs.Containment — how a parse ends that starts inside the source, and
where it goes.

  §1 Faults — inside the source the guard alone can have one, if no node fails by
              itself.
  §2 Parses — `run_contained`: how a parse ends, and where its cursor is meanwhile.

A fault is that of one trial (`exists_fails`), and the engine has few faults of its
own. The read and the check of a position could only fail outside the source, where
no trial inside one that starts there can start.
-/
import PegGraph.Proofs.Recognition
import PegGraph.Proofs.Record

namespace PegGraph

/-! ## §1 Faults -/

/-- Before the end a character is read. -/
theorem Source.exists_read {source : Source} {pos : Int} (hlow : 0 ≤ pos)
    (hhigh : pos < source.length) : ∃ c, source.read pos = .ok c := by
  obtain ⟨i, rfl⟩ := Int.eq_ofNat_of_zero_le hlow
  have hi : i < source.chars.size := by
    have hlength : source.length = source.chars.size := rfl
    omega
  exact ⟨_, source.read_natCast hi⟩

namespace Parse

variable {cx : Setting} {root : NodeId} {pos : Int} {guard : DepthGuard}

/-- No node that is reached fails by itself: none is a reference or abstract, and no
action fails, whatever guards show meanwhile. -/
structure Setting.Unfailing (cx : Setting) (n : NodeId) : Prop where
  referenceFree : cx.grammar.ReferenceFree n
  concrete : ∀ m, cx.grammar.Reaches n m → cx.grammar.node m ≠ .abstract
  acts : ∀ m child act mark, cx.grammar.Reaches n m →
    cx.grammar.node m = .action child act mark →
    ∀ depth value, ∃ result, act.apply (cx.readDepth depth) value = .ok result

/-- Inside the source the one fault left is that of the guard. -/
theorem fails_of_unfailing {t u : Trial} {fault : Fault} (hsafe : cx.Unfailing t.node)
    (hlow : 0 ≤ t.start.pos) (hhigh : t.start.pos ≤ cx.source.length) (hcovers : Covers cx t u)
    (hfails : Fails cx (attemptFull cx) u fault) :
    fault = .depthLimitExceeded t.start.guard.maxDepth := by
  have hbounds : ∀ {v}, Covers cx t v → 0 ≤ v.start.pos ∧ v.start.pos ≤ cx.source.length := by
    intro v hv
    have hv := hv.pos
    omega
  have hreaches := hcovers.reaches
  cases hfails with
  | refused => rw [hcovers.depth.1]
  | unread hlt hread =>
    obtain ⟨c, hc⟩ := Source.exists_read (hbounds hcovers).1 hlt
    rw [hc] at hread
    cases hread
  | astray hu hcheck =>
    rw [Cursor.checkPosition_eq_ok.2 (hbounds (hcovers.tail hu))] at hcheck
    cases hcheck
  | action hnode hact =>
    obtain ⟨result, hok⟩ := hsafe.acts _ _ _ _ hreaches hnode _ _
    rw [hok] at hact
    cases hact
  | abstract hnode => exact (hsafe.concrete _ hreaches hnode).elim
  | reference hnode =>
    have hnot := hsafe.referenceFree _ hreaches
    rw [hnode] at hnot
    cases hnot

/-! ## §2 Parses -/

/-- How a parse ends, and where its cursor is at every moment of it. -/
structure Contained (cx : Setting) (root : NodeId) (pos : Int) (guard : DepthGuard) : Prop where
  /-- No match, a match up to where the cursor stands, or a refusal of the guard. -/
  outcome : (run cx root pos guard).1 = .noMatch ∨
    (∃ value, (run cx root pos guard).1 = .matched value (run cx root pos guard).2.pos) ∨
    (run cx root pos guard).1 = .failed (.depthLimitExceeded guard.maxDepth)
  ended : pos ≤ (run cx root pos guard).2.pos ∧ (run cx root pos guard).2.pos ≤ cx.source.length
  inside : ∀ st, Moment cx ⟨root, ⟨pos, guard, []⟩⟩ st → pos ≤ st.pos ∧ st.pos ≤ cx.source.length
  /-- So do the positions on record. -/
  recorded : ∀ e ∈ (run cx root pos guard).2.events, ∀ p, e.pos? = some p →
    pos ≤ p ∧ p ≤ cx.source.length
  /-- Before the end a character is read, whenever one is asked for. -/
  readable : ∀ st, Moment cx ⟨root, ⟨pos, guard, []⟩⟩ st → st.pos < cx.source.length →
    ∃ c, cx.source.read st.pos = .ok c
  /-- A position of the parse is one to go back to. -/
  restorable : ∀ st, Moment cx ⟨root, ⟨pos, guard, []⟩⟩ st →
    Cursor.checkPosition cx.source st.pos = .ok ()
  /-- A match inside the parse ends where the cursor stands as well. -/
  anchored : ∀ u, Covers cx ⟨root, ⟨pos, guard, []⟩⟩ u → ∀ value p,
    (u.result (attemptFull cx)).1 = .matched value p → p = (u.result (attemptFull cx)).2.pos

/-- **A parse is contained**: from inside the source, and with nothing that fails by
itself, it ends in a match, in no match, or with the depth limit, and its cursor
never leaves the stretch from the start to the end of the source. -/
theorem run_contained (hm : cx.mode = .reject) (hsafe : cx.Unfailing root) (hlow : 0 ≤ pos)
    (hhigh : pos ≤ cx.source.length) (guard : DepthGuard) : Contained cx root pos guard := by
  have hinside : ∀ st, Moment cx ⟨root, ⟨pos, guard, []⟩⟩ st →
      pos ≤ st.pos ∧ st.pos ≤ cx.source.length := by
    intro st h
    have hst : pos ≤ st.pos ∧ st.pos ≤ max pos cx.source.length := h.pos
    omega
  have hanchored : ∀ u, Covers cx ⟨root, ⟨pos, guard, []⟩⟩ u → ∀ value p,
      (u.result (attemptFull cx)).1 = .matched value p →
        p = (u.result (attemptFull cx)).2.pos := fun u _ value p hmatch =>
    ((attemptFull_orderly cx u.node u.start).anchored value p hmatch).symm
  constructor
  case inside => exact hinside
  case anchored => exact hanchored
  case ended => exact hinside _ (.finish .refl)
  case readable =>
    intro st h hlt
    exact Source.exists_read (hlow.trans (hinside st h).1) hlt
  case restorable =>
    intro st h
    exact Cursor.checkPosition_eq_ok.2 ⟨hlow.trans (hinside st h).1, (hinside st h).2⟩
  case recorded =>
    intro e he p hp
    obtain ⟨u, i, st, hcovers, hrecords⟩ := exists_records_of_mem hm he
    rw [hrecords.shows.1 p hp]
    exact hinside st (hrecords.moment hm hcovers)
  case outcome =>
    cases hout : (run cx root pos guard).1 with
    | noMatch => exact .inl rfl
    | matched value p =>
      have hend : p = (run cx root pos guard).2.pos := hanchored _ .refl value p hout
      exact .inr (.inl ⟨value, by rw [hend]⟩)
    | failed fault =>
      obtain ⟨u, hcovers, hfails⟩ := exists_fails (t := ⟨root, ⟨pos, guard, []⟩⟩) hm hout
      exact .inr (.inr (congrArg _ (fails_of_unfailing hsafe hlow hhigh hcovers hfails)))

/-- Letters that are paired with the depth at which they are acted on. -/
def gaugedLetters : Setting :=
  ⟨letters (.gauged "guard"), .ofString "aa", .reject, fun depth _ => some depth⟩

/-- One letter is left at the start. With two levels it is refused. -/
theorem run_contained_letters :
    gaugedLetters.mode = .reject ∧ gaugedLetters.Unfailing 0 ∧
      (0 : Int) ≤ 1 ∧ (1 : Int) ≤ gaugedLetters.source.length ∧
      Contained gaugedLetters 0 1 ⟨9, 0⟩ ∧ (run gaugedLetters 0 1 ⟨9, 0⟩).2.pos = 2 ∧
      Contained gaugedLetters 0 1 ⟨2, 0⟩ ∧ (run gaugedLetters 0 1 ⟨2, 0⟩).2.pos = 1 := by
  have hmem : ∀ {m}, gaugedLetters.grammar.Reaches 0 m → m ∈ [0, 1, 2, 3, 4, 5] := reaches_letters
  have hreferences : ∀ k ∈ [0, 1, 2, 3, 4, 5],
      (gaugedLetters.grammar.node k).isReference = false := by decide
  have hkinds : ∀ k ∈ [0, 1, 2, 3, 4, 5],
      (gaugedLetters.grammar.node k).kind ≠ .abstract := by decide
  have hactions : ∀ k ∈ [0, 1, 2, 3, 4, 5], ∀ child act mark,
      gaugedLetters.grammar.node k = .action child act mark → act = .gauged "guard" := by
    simp only [List.forall_mem_cons]
    exact ⟨nofun, nofun, nofun, fun _ _ _ h => by cases h; rfl, nofun, nofun, nofun⟩
  have hsafe : gaugedLetters.Unfailing 0 := by
    constructor
    case referenceFree => exact fun m hr => hreferences m (hmem hr)
    case concrete => exact fun m hr habstract => hkinds m (hmem hr) (by rw [habstract]; rfl)
    case acts =>
      intro m child act mark hr hnode depth value
      obtain rfl := hactions m (hmem hr) child act mark hnode
      exact ⟨_, rfl⟩
  have hlow : (0 : Int) ≤ 1 := by decide
  have hhigh : (1 : Int) ≤ gaugedLetters.source.length := by decide +kernel
  exact ⟨rfl, hsafe, hlow, hhigh, run_contained rfl hsafe hlow hhigh _, by decide +kernel,
    run_contained rfl hsafe hlow hhigh _, by decide +kernel⟩

end Parse

end PegGraph
