/-
PegGraph.Proofs.Cursor — a cursor under its own operations.

  §1 Reading  — what is read inside the source, at its end, and before its start.
  §2 Commands — the operations of a cursor, and what becomes of it in each.
  §3 Refusals — exactly which commands are refused, and with which fault.
  §4 Series   — `after_commands`: what holds after any commands.

The end of the source has one test, that of `isAtEnd`, and positions are only assigned
after another one that looks at both sides. So a cursor stays inside its source, and what
is read at the cursor is there. Looking ahead is different: `peek` tests against the end
alone, and what lies before the start is left to the look-up, which counts it from the end.
-/
import PegGraph.Cursor

namespace PegGraph

/-! ## §1 Reading -/

namespace Source

variable {s : Source} {pos : Int}

/-- Before the start a position reads what stands as far before the end. -/
theorem read_of_neg (hneg : pos < 0) (hlow : -(s.length : Int) ≤ pos)
    (hwide : Limits.minIndex ≤ pos) : s.read pos = s.read (pos + s.length) := by
  have hwide' : ¬ pos < Limits.minIndex := Int.not_lt.2 hwide
  have hwide'' : ¬ pos + s.length < Limits.minIndex := by omega
  have hhigh : ¬ pos + s.length < 0 := by omega
  simp only [read, get?, hwide', hwide'', hneg, hhigh, if_true, if_false]

/-- Before the start there is nothing to read where that would be before the start, too, or
where the position is no index at all. -/
theorem read_eq_error_of_neg {fault : Fault} (hneg : pos < 0) : s.read pos = .error fault ↔
    pos < Limits.minIndex ∧ fault = .indexTooWide ∨
      Limits.minIndex ≤ pos ∧ pos < -(s.length : Int) ∧ fault = .textIndex := by
  have hsome := s.get?_isSome_iff pos
  unfold read
  by_cases hwide : pos < Limits.minIndex
  · simp [hwide, Int.not_le.2 hwide, eq_comm]
  · cases hget : s.get? pos with
    | some char =>
      rw [hget] at hsome
      have hlow := (hsome.1 rfl).1
      simp [hwide, Int.not_lt.2 hlow]
    | none =>
      rw [hget] at hsome
      have hlow : pos < -(s.length : Int) := by
        refine Int.not_le.1 fun hlow => ?_
        cases hsome.2 ⟨hlow, by omega⟩
      simp [hwide, Int.not_lt.1 hwide, hlow, eq_comm]

end Source

namespace Cursor

variable {c moved : Cursor} {source : Source} {guard : DepthGuard} {pos offset : Int} {i : Nat}
  {fault : Fault}

/-- The cursor is on a character of the source, or just past the last one. -/
def Inside (c : Cursor) : Prop := 0 ≤ c.pos ∧ c.pos ≤ c.source.length

theorem new_eq_ok : new source pos guard = .ok c ↔
    (0 ≤ pos ∧ pos ≤ source.length) ∧ c = ⟨source, pos, guard⟩ := by
  unfold new checkPosition
  by_cases h : 0 ≤ pos ∧ pos ≤ source.length <;> simp [h, eq_comm]

theorem setPosition_eq_ok : c.setPosition pos = .ok moved ↔
    (0 ≤ pos ∧ pos ≤ c.source.length) ∧ moved = { c with pos } := by
  unfold setPosition checkPosition
  by_cases h : 0 ≤ pos ∧ pos ≤ c.source.length <;> simp [h, eq_comm]

theorem setPosition_eq_error : c.setPosition pos = .error fault ↔
    ¬ (0 ≤ pos ∧ pos ≤ c.source.length) ∧ fault = .positionOutside pos c.source.length := by
  unfold setPosition checkPosition
  by_cases h : 0 ≤ pos ∧ pos ≤ c.source.length <;> simp [h, eq_comm]

/-- At the end there is no character. -/
theorem current_of_le (h : c.source.length ≤ c.pos) :
    c.current = .error (.unexpectedEnd c.pos) := by
  simp [current, isAtEnd, h]

/-- Before the end there is the one that stands there. -/
theorem current_of_lt (hpos : c.pos = i) (hi : i < c.source.chars.size) :
    c.current = .ok c.source.chars[i] := by
  have hnot : ¬ (c.source.length : Int) ≤ i := Int.not_le.2 (Int.ofNat_lt.2 hi)
  simp [current, isAtEnd, hpos, hnot, Source.read_natCast c.source hi]

/-- What stands at an offset from the cursor: the character that is read after moving
there. Nothing does where there is no such position, or no character at it. -/
def ahead (c : Cursor) (offset : Int) : Option Char :=
  match c.setPosition (c.pos + offset) with
  | .ok moved => moved.current.toOption
  | .error _ => none

theorem ahead_of_neg (h : c.pos + offset < 0) : c.ahead offset = none := by
  have hrefused : c.setPosition (c.pos + offset) =
      .error (.positionOutside (c.pos + offset) c.source.length) :=
    setPosition_eq_error.2 ⟨by omega, rfl⟩
  unfold ahead
  rw [hrefused]

theorem ahead_natCast (h : c.pos + offset = i) : c.ahead offset = c.source.chars[i]? := by
  unfold ahead
  by_cases hi : i < c.source.chars.size
  · have hset : c.setPosition (c.pos + offset) = .ok { c with pos := c.pos + offset } :=
      setPosition_eq_ok.2 ⟨⟨by omega, by unfold Source.length; omega⟩, rfl⟩
    simp only [hset, current_of_lt (c := { c with pos := c.pos + offset }) h hi, Except.toOption,
      Array.getElem?_eq_getElem hi]
  · rw [Array.getElem?_eq_none (Nat.le_of_not_lt hi)]
    split
    · next moved hset =>
      obtain ⟨-, rfl⟩ := setPosition_eq_ok.1 hset
      rw [current_of_le (by show (c.source.chars.size : Int) ≤ c.pos + offset; omega)]
      rfl
    · rfl

/-- Looking ahead from the start of the source on shows what stands there. -/
theorem peek_of_nonneg (h : 0 ≤ c.pos + offset) : c.peek offset = .ok (c.ahead offset) := by
  obtain ⟨i, hi⟩ := Int.eq_ofNat_of_zero_le h
  rw [ahead_natCast hi]
  unfold peek
  by_cases hlt : i < c.source.chars.size
  · have hnot : ¬ c.pos + offset ≥ c.source.length := by
      rw [hi]
      exact Int.not_le.2 (Int.ofNat_lt.2 hlt)
    rw [if_neg hnot, hi, Source.read_natCast c.source hlt, Array.getElem?_eq_getElem hlt]
  · have hge : c.pos + offset ≥ c.source.length := by
      rw [hi]
      exact Int.ofNat_le.2 (Nat.le_of_not_lt hlt)
    rw [if_pos hge, Array.getElem?_eq_none (Nat.le_of_not_lt hlt)]

/-- Before the start it is never nothing that is shown. -/
theorem peek_of_neg (h : c.pos + offset < 0) :
    c.peek offset = (c.source.read (c.pos + offset)).map some := by
  have hnot : ¬ c.pos + offset ≥ c.source.length := by omega
  unfold peek
  rw [if_neg hnot]
  cases c.source.read (c.pos + offset) <;> rfl

/-- **What is shown is what stands there** from the start of the source on, and only there. -/
theorem peek_eq_ahead_iff : c.peek offset = .ok (c.ahead offset) ↔ 0 ≤ c.pos + offset := by
  refine ⟨fun h => ?_, peek_of_nonneg⟩
  refine Int.not_lt.1 fun hneg => ?_
  rw [ahead_of_neg hneg, peek_of_neg hneg] at h
  cases hread : c.source.read (c.pos + offset) <;> rw [hread] at h <;> cases h

/-- Before the start, and not too far, the character is shown that stands as far before the
end. -/
theorem peek_wrapped (hneg : c.pos + offset < 0)
    (hlow : -(c.source.length : Int) ≤ c.pos + offset) (hwide : Limits.minIndex ≤ c.pos + offset) :
    ∃ char, c.ahead (offset + c.source.length) = some char ∧ c.peek offset = .ok (some char) := by
  obtain ⟨i, hi⟩ := Int.eq_ofNat_of_zero_le (a := c.pos + offset + c.source.length) (by omega)
  have hlt : i < c.source.chars.size := by
    have hlength : (c.source.length : Int) = c.source.chars.size := rfl
    omega
  refine ⟨c.source.chars[i], ?_, ?_⟩
  · rw [ahead_natCast (i := i) (by omega), Array.getElem?_eq_getElem hlt]
  · rw [peek_of_neg hneg, Source.read_of_neg hneg hlow hwide, hi, Source.read_natCast _ hlt]
    rfl

/-! ## §2 Commands -/

/-- An operation of a cursor. -/
inductive Command where
  | next
  | current
  | peek (offset : Int)
  | setPosition (pos : Int)
  | isAtEnd
  | remaining

/-- What an operation answers. -/
inductive Reply where
  | char (c : Char)
  | char? (c : Option Char)
  | flag (b : Bool)
  | count (n : Int)
  | done

/-- The reply to a command and the cursor as it is left, unless there is a fault. -/
def Command.perform (c : Cursor) : Command → Except Fault (Reply × Cursor)
  | .next => c.next.map fun (char, moved) => (.char char, moved)
  | .current => c.current.map fun char => (.char char, c)
  | .peek offset => (c.peek offset).map fun char? => (.char? char?, c)
  | .setPosition pos => (c.setPosition pos).map fun moved => (.done, moved)
  | .isAtEnd => .ok (.flag c.isAtEnd, c)
  | .remaining => .ok (.count c.remaining, c)

/-- What a command comes to, refused or not. A cursor that refuses a command stays. -/
def Command.run (c : Cursor) (command : Command) : Except Fault Reply × Cursor :=
  match command.perform c with
  | .ok (reply, moved) => (.ok reply, moved)
  | .error fault => (.error fault, c)

/-- The cursor after commands, refused or not, one after another. -/
def after (c : Cursor) (commands : List Command) : Cursor :=
  commands.foldl (fun c command => (command.run c).2) c

/-- What becomes of a cursor: nothing but its position changes, and that stays inside. -/
structure Moved (c c' : Cursor) : Prop where
  source : c'.source = c.source
  guard : c'.guard = c.guard
  inside : c.Inside → c'.Inside

theorem Moved.refl (c : Cursor) : Moved c c := ⟨rfl, rfl, id⟩

theorem Moved.trans {c' c'' : Cursor} (h : Moved c c') (h' : Moved c' c'') : Moved c c'' :=
  ⟨h'.source.trans h.source, h'.guard.trans h.guard, h'.inside ∘ h.inside⟩

theorem next_moved {char : Char} (h : c.next = .ok (char, moved)) : Moved c moved := by
  unfold next at h
  split at h
  · next hcurrent =>
    cases h
    refine ⟨rfl, rfl, fun hin => ?_⟩
    have hlt : ¬ (c.source.length : Int) ≤ c.pos := fun hle => by
      rw [current_of_le hle] at hcurrent
      cases hcurrent
    unfold Inside at hin ⊢
    simp only
    omega
  · cases h

theorem Command.perform_moved {command : Command} {reply : Reply}
    (h : command.perform c = .ok (reply, moved)) : Moved c moved := by
  cases command with
  | next =>
    cases hnext : c.next with
    | error fault =>
      rw [perform, hnext] at h
      cases h
    | ok read =>
      obtain ⟨char, after⟩ := read
      simp only [perform, hnext] at h
      cases h
      exact next_moved hnext
  | setPosition pos =>
    cases hset : c.setPosition pos with
    | error fault =>
      rw [perform, hset] at h
      cases h
    | ok after =>
      simp only [perform, hset] at h
      cases h
      obtain ⟨hin, rfl⟩ := setPosition_eq_ok.1 hset
      exact ⟨rfl, rfl, fun _ => hin⟩
  | current =>
    cases hcurrent : c.current <;> simp only [perform, hcurrent] at h <;> cases h
    exact .refl c
  | peek offset =>
    cases hpeek : c.peek offset <;> simp only [perform, hpeek] at h <;> cases h
    exact .refl c
  | isAtEnd | remaining =>
    cases h
    exact .refl c

/-- One command. -/
theorem Command.run_moved (command : Command) (c : Cursor) : Moved c (command.run c).2 := by
  unfold run
  split
  · next h => exact perform_moved h
  · exact .refl c

/-- Any number of them. -/
theorem after_moved (commands : List Command) (c : Cursor) : Moved c (c.after commands) := by
  induction commands generalizing c with
  | nil => exact .refl c
  | cons command rest ih => exact (command.run_moved c).trans (ih (command.run c).2)

/-! ## §3 Refusals -/

/-- The commands that a cursor refuses, each with the fault. -/
inductive Refuses (c : Cursor) : Command → Fault → Prop where
  /-- Nothing is left to read. -/
  | next (h : c.remaining = 0) : Refuses c .next (.unexpectedEnd c.pos)
  | current (h : c.remaining = 0) : Refuses c .current (.unexpectedEnd c.pos)
  /-- The source has no such position. -/
  | setPosition {pos : Int} (h : pos < 0 ∨ c.source.length < pos) :
    Refuses c (.setPosition pos) (.positionOutside pos c.source.length)
  /-- What is asked for is before the start, by more than the source is long. -/
  | peek {offset : Int} (h : c.pos + offset < -(c.source.length : Int))
    (hwide : Limits.minIndex ≤ c.pos + offset) : Refuses c (.peek offset) .textIndex
  /-- What is asked for is so far before the start that it is no index. -/
  | peekWide {offset : Int} (h : c.pos + offset < Limits.minIndex) :
    Refuses c (.peek offset) .indexTooWide

theorem current_eq_error (hin : c.Inside) :
    c.current = .error fault ↔ c.remaining = 0 ∧ fault = .unexpectedEnd c.pos := by
  obtain ⟨hlow, hhigh⟩ := hin
  obtain ⟨i, hi⟩ := Int.eq_ofNat_of_zero_le hlow
  have hlength : (c.source.length : Int) = c.source.chars.size := rfl
  by_cases hlt : i < c.source.chars.size
  · have hleft : c.remaining ≠ 0 := by unfold remaining; omega
    simp [current_of_lt hi hlt, hleft]
  · have hleft : c.remaining = 0 := by unfold remaining; omega
    simp [current_of_le (c := c) (by omega), hleft, eq_comm]

theorem next_eq_error : c.next = .error fault ↔ c.current = .error fault := by
  unfold next
  cases c.current <;> simp

theorem peek_eq_error : c.peek offset = .error fault ↔
    c.pos + offset < Limits.minIndex ∧ fault = .indexTooWide ∨
      Limits.minIndex ≤ c.pos + offset ∧ c.pos + offset < -(c.source.length : Int) ∧
        fault = .textIndex := by
  by_cases hneg : c.pos + offset < 0
  · rw [peek_of_neg hneg, ← Source.read_eq_error_of_neg hneg]
    cases c.source.read (c.pos + offset) <;> simp [Except.map]
  · have low : Limits.minIndex < 0 := by decide
    rw [peek_of_nonneg (Int.not_lt.1 hneg)]
    constructor
    · intro h
      cases h
    · rintro (⟨h, -⟩ | ⟨-, h, -⟩) <;> omega

theorem Command.run_eq_error {command : Command} :
    (command.run c).1 = .error fault ↔ command.perform c = .error fault := by
  unfold run
  split <;> next h => simp [h]

/-- What is made of a reply makes no difference to a fault. -/
theorem map_eq_error {α β : Type} {f : α → β} {answer : Except Fault α} :
    answer.map f = .error fault ↔ answer = .error fault := by
  cases answer <;> simp [Except.map]

/-- **A command is refused** exactly where it should be, with the fault that belongs to it. -/
theorem run_eq_error_iff (hin : c.Inside) (command : Command) :
    (command.run c).1 = .error fault ↔ c.Refuses command fault := by
  rw [Command.run_eq_error]
  cases command with
  | next =>
    rw [Command.perform, map_eq_error, next_eq_error, current_eq_error hin]
    constructor
    · rintro ⟨hleft, rfl⟩
      exact .next hleft
    · intro h
      cases h with
      | next hleft => exact ⟨hleft, rfl⟩
  | current =>
    rw [Command.perform, map_eq_error, current_eq_error hin]
    constructor
    · rintro ⟨hleft, rfl⟩
      exact .current hleft
    · intro h
      cases h with
      | current hleft => exact ⟨hleft, rfl⟩
  | peek offset =>
    rw [Command.perform, map_eq_error, peek_eq_error]
    constructor
    · rintro (⟨hwide, rfl⟩ | ⟨hwide, hlow, rfl⟩)
      · exact .peekWide hwide
      · exact .peek hlow hwide
    · intro h
      cases h with
      | peek hlow hwide => exact .inr ⟨hwide, hlow, rfl⟩
      | peekWide hwide => exact .inl ⟨hwide, rfl⟩
  | setPosition pos =>
    rw [Command.perform, map_eq_error, setPosition_eq_error]
    constructor
    · rintro ⟨hout, rfl⟩
      exact .setPosition (by omega)
    · intro h
      cases h with
      | setPosition hout => exact ⟨by omega, rfl⟩
  | isAtEnd | remaining => exact ⟨nofun, nofun⟩

/-! ## §4 Series -/

/-- **A cursor under its own operations**, after any of them, refused or not. It is inside its
source, and a command that it refuses leaves it as it is. It refuses to read where nothing is
left, to go where the source has no position, and to look before the start by more than the
source is long, and it refuses nothing else. From the start of the source on it shows what
stands where it looks. Before the start, where nothing stands, it shows what stands as far
before the end. -/
theorem after_commands (h : new source pos guard = .ok c) (before : List Command) :
    let now := c.after before
    now.source = source ∧ now.guard = guard ∧ (0 ≤ now.pos ∧ now.pos ≤ source.length) ∧
      (∀ (command : Command) fault,
        (command.run now).1 = .error fault → (command.run now).2 = now) ∧
      (∀ (command : Command) fault,
        (command.run now).1 = .error fault ↔ now.Refuses command fault) ∧
      (∀ offset, now.peek offset = .ok (now.ahead offset) ↔ 0 ≤ now.pos + offset) ∧
      ∀ offset, now.pos + offset < 0 → -(source.length : Int) ≤ now.pos + offset →
        Limits.minIndex ≤ now.pos + offset →
          ∃ char, now.ahead (offset + source.length) = some char ∧
            now.peek offset = .ok (some char) := by
  intro now
  obtain ⟨hstart, rfl⟩ := new_eq_ok.1 h
  have hmoved : Moved _ now := after_moved before _
  have hin : now.Inside := hmoved.inside hstart
  have hsource : now.source = source := hmoved.source
  refine ⟨hsource, hmoved.guard, hsource ▸ hin, fun command fault herror => ?_,
    fun command fault => run_eq_error_iff hin command, fun _ => peek_eq_ahead_iff, ?_⟩
  · have hperform := Command.run_eq_error.1 herror
    simp only [Command.run, hperform]
  · rw [← hsource]
    exact fun _ hneg hlow hwide => peek_wrapped hneg hlow hwide

/-- A cursor at the start of two letters. -/
def twoLetters : Cursor := ⟨.ofString "ab", 0, ⟨9, 0⟩⟩

/-- At the start the last letter is shown for the one before the first, and still further
before there is no answer at all. -/
theorem peek_before_start : new (.ofString "ab") 0 ⟨9, 0⟩ = .ok twoLetters ∧
    twoLetters.ahead (-1) = none ∧ twoLetters.peek (-1) = .ok (some 'b') ∧
    twoLetters.peek (-3) = .error .textIndex :=
  ⟨rfl, rfl, rfl, rfl⟩

/-- Commands that read the first letter, and are refused a position and a look. -/
def strayCommands : List Command := [.next, .setPosition 3, .peek (-4)]

/-- After them the cursor is between the letters. It can look back at the first one, it cannot
look further, and it refuses to leave the source. -/
theorem after_commands_stray :
    let now := twoLetters.after strayCommands
    new (.ofString "ab") 0 ⟨9, 0⟩ = .ok twoLetters ∧ now.pos = 1 ∧
      now.peek (-1) = .ok (now.ahead (-1)) ∧ now.ahead (-1) = some 'a' ∧
      now.peek (-2) ≠ .ok (now.ahead (-2)) ∧
      ((Command.setPosition 3).run now).1 = .error (.positionOutside 3 2) ∧
      ((Command.setPosition 3).run now).2 = now := by
  intro now
  have hnew : new (.ofString "ab") 0 ⟨9, 0⟩ = .ok twoLetters := rfl
  obtain ⟨-, -, -, hstays, hrefused, hahead, -⟩ := after_commands hnew strayCommands
  have hpos : now.pos = 1 := rfl
  have herror := (hrefused (.setPosition 3) _).2 (.setPosition (.inr (by decide +kernel)))
  refine ⟨hnew, hpos, (hahead (-1)).2 (by decide +kernel), rfl, fun h => ?_, herror,
    hstays _ _ herror⟩
  have hlow := (hahead (-2)).1 h
  revert hlow
  decide +kernel

end Cursor

end PegGraph
