/-
PegGraph.Proofs.Suffix — a parse sees only what is ahead of it.

  §1 Sources — the rest of a source, and where the source reads alike.
  §2 Parses  — `parse_drop`: to parse a source from a position is to parse its rest from
               the start.

From a position on, a source and its rest look alike (`fits_drop`), and no part of a
parse goes back to before the position where the parse began. So the parse of the source
is the shift of the parse of its rest (`result_shift`), by the characters that were left
out and by no levels. Nothing is asked of the grammar or of its actions: the guard is the
same on both sides, so an action that reads it finds the same depth.
-/
import PegGraph.Proofs.Headroom

namespace PegGraph

/-! ## §1 Sources -/

namespace Source

variable {source : Source} {k : Nat}

theorem length_drop (hk : k ≤ source.length) : (source.drop k).length + k = source.length := by
  simp only [length, drop, Array.size_extract] at hk ⊢
  omega

/-- Behind what was left out, the same characters stand. -/
theorem read_drop (source : Source) (k : Nat) {pos : Int} (hpos : 0 ≤ pos) :
    source.read (pos + k) = (source.drop k).read pos := by
  obtain ⟨i, rfl⟩ := Int.eq_ofNat_of_zero_le hpos
  have low : Limits.minIndex < 0 := by decide
  have wide : ¬ (i : Int) < Limits.minIndex := by omega
  have wide' : ¬ ((i + k : Nat) : Int) < Limits.minIndex := by omega
  have hget : source.chars[i + k]? = (source.chars.extract k source.chars.size)[i]? := by
    simp only [Array.getElem?_extract, Nat.min_self, Nat.add_comm k i]
    split
    · rfl
    · exact Array.getElem?_eq_none (by omega)
  rw [← Int.natCast_add]
  simp only [read, wide, wide', if_false, get?_natCast, drop, hget]

end Source

namespace Parse

namespace Shift

variable {source : Source} {k : Nat}

/-- Further on by some characters, under the same guard. -/
def further (k : Nat) (guard : DepthGuard) : Shift := ⟨k, 0, guard.maxDepth, []⟩

theorem progress_further (k : Nat) (guard : DepthGuard) :
    (further k guard).progress ⟨0, guard, []⟩ = ⟨k, guard, []⟩ := by
  simp [progress, Shift.guard, further]

/-- Every position of the rest of a source fits that of the source. -/
theorem fits_drop (guard : DepthGuard) (hk : k ≤ source.length) {pos : Int} (hlow : 0 ≤ pos)
    (hhigh : pos ≤ (source.drop k).length) :
    (further k guard).Fits (source.drop k) source pos := by
  have hlength := Source.length_drop hk
  refine ⟨?_, source.read_drop k hlow, ?_⟩
  · simp only [further]
    omega
  · have hrest : Cursor.checkPosition (source.drop k) pos = .ok () :=
      Cursor.checkPosition_eq_ok.2 ⟨hlow, hhigh⟩
    have hwhole : Cursor.checkPosition source (pos + k) = .ok () :=
      Cursor.checkPosition_eq_ok.2 (by omega)
    rw [hrest]
    exact hwhole

end Shift

/-! ## §2 Parses -/

/-- A run from a position is the shift of the run over the rest. -/
theorem run_drop {source : Source} {k : Nat} (hk : k ≤ source.length) (g : Grammar)
    (readDepth : Int → String → Option Int) (root : NodeId) (guard : DepthGuard) :
    run ⟨g, source, .reject, readDepth⟩ root k guard =
      (Shift.further k guard).result (run ⟨g, source.drop k, .reject, readDepth⟩ root 0 guard) := by
  let cx : Setting := ⟨g, source.drop k, .reject, readDepth⟩
  let cx' : Setting := ⟨g, source, .reject, readDepth⟩
  let t : Trial := ⟨root, ⟨0, guard, []⟩⟩
  have hfits : ∀ pos, t.start.pos ≤ pos → pos ≤ max t.start.pos cx.source.length →
      (Shift.further k guard).Fits cx.source cx'.source pos := by
    intro pos hlow hhigh
    have hhigh : pos ≤ (source.drop k).length := by
      rwa [max_eq_right (Int.natCast_nonneg _)] at hhigh
    exact Shift.fits_drop guard hk hlow hhigh
  have hact : ∀ (act : Action) depth,
      act.apply (readDepth (depth + 0)) = act.apply (readDepth depth) := by
    intro act depth
    rw [Int.add_zero]
  have hshift : attemptFull cx' root ((Shift.further k guard).progress t.start) =
      (Shift.further k guard).result (t.result (attemptFull cx)) :=
    result_shift rfl rfl rfl hfits (fun _ _ act _ _ _ => hact act) (.same rfl rfl)
  rw [Shift.progress_further] at hshift
  exact hshift

end Parse

namespace Grammar

open Parse (Shift letters)

/-- **A parse looks only forward**: from a position on, a source is parsed as its rest is
from the start. It comes to the same value, to no match, or to the same fault; the
positions of a match and of the cursor are further on by what was left out, and so is
every position on record. -/
theorem parse_drop {source : Source} {k : Nat} (hk : k ≤ source.length) (g : Grammar)
    (readDepth : Int → String → Option Int) (root : NodeId) (guard : DepthGuard) :
    let whole := g.parse readDepth root ⟨source, k, guard⟩
    let rest := g.parse readDepth root ⟨source.drop k, 0, guard⟩
    whole.outcome = (Shift.further k guard).outcome rest.outcome ∧
      whole.cursor.pos = rest.cursor.pos + k ∧ whole.cursor.guard = rest.cursor.guard ∧
      whole.events = rest.events.map (Shift.further k guard).event := by
  intro whole rest
  have hrun := Parse.run_drop hk g readDepth root guard
  have hguard : whole.cursor.guard = guard := (Parse.run_ends _ root k guard).guard
  have hguard' : rest.cursor.guard = guard := (Parse.run_ends _ root 0 guard).guard
  refine ⟨congrArg Prod.fst hrun, congrArg (fun r => r.2.pos) hrun, hguard.trans hguard'.symm, ?_⟩
  have hevents : whole.events = (((Parse.run ⟨g, source.drop k, .reject, readDepth⟩ root 0
      guard).2.events.map (Shift.further k guard).event ++ []).reverse) :=
    congrArg (fun r => r.2.events.reverse) hrun
  rw [hevents, List.append_nil, ← List.map_reverse]
  rfl

/-- The source of the letters that are parsed below, with two more before them. -/
def manyLetters : Source := .ofString "bbaa"

/-- A parse of letters, each with the depth that the guard of the parse shows. -/
def gaugedLetters (source : Source) (pos : Int) : Parsed :=
  (letters (.gauged "own")).parse (fun depth _ => some depth) 0 ⟨source, pos, ⟨9, 4⟩⟩

/-- The `b` is missing behind the first letter, and two letters are matched, at the same
depth whether or not there is text before them. -/
theorem parse_drop_letters :
    2 ≤ manyLetters.length ∧
      (gaugedLetters manyLetters (2 : Nat)).outcome =
        (Shift.further 2 ⟨9, 4⟩).outcome (gaugedLetters (manyLetters.drop 2) 0).outcome ∧
      (gaugedLetters manyLetters (2 : Nat)).cursor.pos =
        (gaugedLetters (manyLetters.drop 2) 0).cursor.pos + (2 : Nat) ∧
      (gaugedLetters manyLetters (2 : Nat)).events =
        (gaugedLetters (manyLetters.drop 2) 0).events.map (Shift.further 2 ⟨9, 4⟩).event ∧
      Parse.joined (gaugedLetters (manyLetters.drop 2) 0).outcome = some ("6a6a", 2) := by
  have hk : 2 ≤ manyLetters.length := by decide +kernel
  have hjoined :
      Parse.joined (gaugedLetters (manyLetters.drop 2) 0).outcome = some ("6a6a", 2) := by
    decide +kernel
  have hall := parse_drop hk (letters (.gauged "own")) (fun depth _ => some depth) 0 ⟨9, 4⟩
  unfold gaugedLetters at hjoined ⊢
  obtain ⟨hout, hpos, -, hevents⟩ := hall
  exact ⟨hk, hout, hpos, hevents, hjoined⟩

end Grammar

end PegGraph
