/-
PegGraph.DepthGuard — how deep the composites of a parse are nested.

  §1 Clamping    — the host grants a fixed number of nested calls, and a limit
                   never asks for more than a safe part of them.
  §2 The guard   — a limit and the depth reached.
  §3 Sections    — entering and leaving a guarded section.
-/
import PegGraph.Fault
import PegGraph.Notice
import PegGraph.Text

namespace PegGraph

/-! ## §1 Clamping -/

/-- The depth that is safe when some nested calls are kept in reserve. -/
def safeDepth (reserve : Int) : Int := Limits.callDepth - reserve

/-- A requested depth, lowered to the safe one where it asks for more. -/
def clampDepth (requested : Int) (reserve : Int := Limits.reservedCalls) : Int :=
  if requested > safeDepth reserve then safeDepth reserve else requested

/-- The warning that goes with a lowered depth. -/
def clampNotices (requested : Int) (reserve : Int := Limits.reservedCalls) : List Notice :=
  if requested > safeDepth reserve then
    [.depthClamped requested Limits.callDepth (safeDepth reserve)]
  else []

theorem clampDepth_eq_min (requested reserve : Int) :
    clampDepth requested reserve = min requested (safeDepth reserve) := by
  unfold clampDepth; split <;> omega

/-! ## §2 The guard -/

/-- A limit on nesting and the depth reached. -/
structure DepthGuard where
  maxDepth : Int
  currentDepth : Int
  deriving DecidableEq, Inhabited

namespace DepthGuard

/-- A guard at depth zero whose limit is the requested one, clamped. -/
def ofRequest (requested : Int) : DepthGuard where
  maxDepth := clampDepth requested
  currentDepth := 0

/-- A guard in record notation. -/
def describe (guard : DepthGuard) : String :=
  Text.record "DepthGuard"
    [("max_depth", toString guard.maxDepth), ("current_depth", toString guard.currentDepth)]

/-- Levels that may still be entered. -/
def headroom (guard : DepthGuard) : Nat := (guard.maxDepth - guard.currentDepth).toNat

/-! ## §3 Sections -/

/-- Enters a section, one level down. At the limit the guard refuses and stays
as it is. -/
def enter (guard : DepthGuard) : Except Fault DepthGuard :=
  if guard.currentDepth ≥ guard.maxDepth then .error (.depthLimitExceeded guard.maxDepth)
  else .ok { guard with currentDepth := guard.currentDepth + 1 }

/-- Leaves a section, one level up. -/
def leave (guard : DepthGuard) : DepthGuard :=
  { guard with currentDepth := guard.currentDepth - 1 }

/-- Runs a body inside as many nested sections as given. Every section that
was entered is left again, whatever becomes of the body. -/
def nested : Nat → Except Fault Unit → DepthGuard → Except Fault Unit × DepthGuard
  | 0, body, guard => (body, guard)
  | depth + 1, body, guard =>
    match guard.enter with
    | .error fault => (.error fault, guard)
    | .ok inner =>
      let (result, inner) := nested depth body inner
      (result, inner.leave)

/-- Leaving undoes entering. -/
theorem leave_of_enter {guard inner : DepthGuard} (h : guard.enter = .ok inner) :
    inner.leave = guard := by
  unfold enter at h
  split at h
  · cases h
  · cases h
    simp [leave]

/-- A section is entered exactly where headroom is left. -/
theorem enter_ok_iff (guard : DepthGuard) :
    (∃ inner, guard.enter = .ok inner) ↔ 0 < guard.headroom := by
  unfold enter headroom
  constructor
  · rintro ⟨inner, h⟩
    split at h
    · cases h
    · omega
  · intro h
    rw [if_neg (by omega)]
    exact ⟨_, rfl⟩

/-- Entering takes one level of headroom. -/
theorem headroom_of_enter {guard inner : DepthGuard} (h : guard.enter = .ok inner) :
    guard.headroom = inner.headroom + 1 := by
  unfold enter at h
  split at h
  · cases h
  · cases h
    simp only [headroom]
    omega

/-- Nested sections leave the guard as they found it. -/
theorem nested_snd (depth : Nat) (body : Except Fault Unit) (guard : DepthGuard) :
    (nested depth body guard).2 = guard := by
  induction depth generalizing guard with
  | zero => rfl
  | succ depth ih =>
    unfold nested
    split
    · rfl
    · next inner h =>
      simp only [ih inner]
      exact leave_of_enter h

end DepthGuard

end PegGraph
