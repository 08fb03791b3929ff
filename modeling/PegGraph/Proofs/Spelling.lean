/-
PegGraph.Proofs.Spelling — the text between two positions of a source.

  §1 Spelling — a text stands in a source from one position to another.
  §2 Reading  — matchers whose matches tell the text that they are matches of.

There is one way to cut a source between two texts that follow each other, so a
text that is read piece by piece is read whole: every way of matching other than
by an action passes the text on.
-/
import PegGraph.Proofs.Peg

namespace PegGraph

/-! ## §1 Spelling -/

/-- A text stands in a source from a position up to another. -/
inductive Source.Spells (source : Source) : Nat → List Char → Nat → Prop where
  | nil {p : Nat} (hp : p ≤ source.length) : Spells source p [] p
  | cons {c : Char} {text : List Char} {p q : Nat} (hc : source.chars[p]? = some c)
    (h : Spells source (p + 1) text q) : Spells source p (c :: text) q

namespace Source.Spells

variable {source : Source} {text text' : List Char} {c : Char} {p q r : Nat}

theorem le_length (h : source.Spells p text q) : q ≤ source.length := by
  induction h with
  | nil hp => exact hp
  | cons _ _ ih => exact ih

theorem end_eq (h : source.Spells p text q) : q = p + text.length := by
  induction h with
  | nil => rfl
  | cons _ _ ih =>
    rw [ih, List.length_cons]
    omega

theorem le (h : source.Spells p text q) : p ≤ q := by
  have hend := h.end_eq
  omega

theorem single (hc : source.chars[p]? = some c) : source.Spells p [c] (p + 1) := by
  obtain ⟨hlt, _⟩ := Array.getElem?_eq_some_iff.1 hc
  exact .cons hc (.nil hlt)

theorem append (h : source.Spells p text q) (h' : source.Spells q text' r) :
    source.Spells p (text ++ text') r := by
  induction h with
  | nil => exact h'
  | cons hc _ ih => exact .cons hc (ih h')

/-- A text that spells a stretch spells its parts. -/
theorem split (h : source.Spells p (text ++ text') r) :
    ∃ q, source.Spells p text q ∧ source.Spells q text' r := by
  induction text generalizing p with
  | nil => exact ⟨p, .nil (h.le.trans h.le_length), h⟩
  | cons c text ih =>
    cases h with
    | cons hc h =>
      obtain ⟨q, hq, hr⟩ := ih h
      exact ⟨q, .cons hc hq, hr⟩

/-- From a position on, the rest of the source is spelled. -/
theorem iff_drop (hp : p ≤ source.length) :
    source.Spells p text source.length ↔ text = source.chars.toList.drop p := by
  have hsize : source.chars.toList.length = source.length := rfl
  induction hleft : source.length - p generalizing p text with
  | zero =>
    have heq : p = source.length := by omega
    subst heq
    rw [← hsize, List.drop_length]
    constructor
    · intro h
      have hend := h.end_eq
      exact List.eq_nil_of_length_eq_zero (by omega)
    · rintro rfl
      exact .nil (Nat.le_refl _)
  | succ left ih =>
    have hlt : p < source.chars.toList.length := by omega
    have hget : source.chars[p]? = some source.chars.toList[p] := by
      rw [← Array.getElem?_toList, List.getElem?_eq_getElem hlt]
    rw [List.drop_eq_getElem_cons hlt]
    constructor
    · intro h
      cases h with
      | nil => omega
      | cons hc h =>
        rw [hget] at hc
        cases hc
        rw [(ih (by omega) (by omega)).1 h]
    · rintro rfl
      exact .cons hget ((ih (by omega) (by omega)).2 rfl)

/-- What stands between two positions is a stretch of the source. -/
theorem isInfix (h : source.Spells p text q) : text <:+: source.chars.toList := by
  have hle := h.le.trans h.le_length
  have hrest := h.append ((iff_drop h.le_length).2 rfl)
  have hdrop : text ++ source.chars.toList.drop q = source.chars.toList.drop p :=
    (iff_drop hle).1 hrest
  exact (List.prefix_append ..).isInfix.trans (hdrop ▸ (List.drop_suffix ..).isInfix)

/-- The whole source spells its characters. -/
theorem iff_toList : source.Spells 0 text source.length ↔ text = source.chars.toList :=
  iff_drop (Nat.zero_le _)

end Source.Spells

/-! ## §2 Reading -/

namespace Peg

variable {α β : Type} {source : Source} {text : α → List Char} {m m' : Matcher α}

/-- Every match of a matcher spells the text of its value. -/
def Reads (source : Source) (text : α → List Char) (m : Matcher α) : Prop :=
  ∀ p a q, p ≤ source.length → m p = .matched a q → source.Spells p (text a) q

theorem reads_noMatch : Reads source text fun _ => .noMatch := nofun

theorem reads_failed (fault : Fault) : Reads source text fun _ => .failed fault := nofun

theorem reads_character (bounds : CharRange) :
    Reads source (fun v => v.join.toList) (character source bounds) := by
  intro p v q _ h
  unfold character at h
  split at h
  · next c hc =>
    split at h
    · cases h
      simp only [Value.join_text, String.toList_singleton]
      exact .single hc
    · cases h
  · cases h

theorem reads_atEnd : Reads source (fun v => v.join.toList) (atEnd source) := by
  intro p v q hp h
  unfold atEnd at h
  split at h
  · cases h
    simp only [Value.join]
    exact .nil hp
  · cases h

theorem Reads.map {text' : β → List Char} {f : α → β} (h : Reads source text m)
    (hf : ∀ a, text' (f a) = text a) : Reads source text' fun p => (m p).map f := by
  intro p b q hp hm
  obtain ⟨a, ha, rfl⟩ := Answer.map_eq_matched.1 hm
  rw [hf]
  exact h p a q hp ha

theorem Reads.either (h : Reads source text m) (h' : Reads source text m') :
    Reads source text (either m m') := by
  intro p a q hp hm
  unfold Peg.either at hm
  cases hone : m p with
  | matched =>
    rw [hone] at hm
    exact h p a q hp (hone.trans hm)
  | noMatch =>
    rw [hone] at hm
    exact h' p a q hp hm
  | failed =>
    rw [hone] at hm
    cases hm

theorem reads_inOrder {ms : List (Matcher α)} (h : ∀ m ∈ ms, Reads source text m) :
    Reads source (fun as => as.flatMap text) (inOrder ms) := by
  induction ms with
  | nil =>
    intro p as q hp hm
    cases hm
    exact .nil hp
  | cons m ms ih =>
    intro p as q hp hm
    rw [inOrder] at hm
    obtain ⟨a, r, ha, hm⟩ := Answer.andThen_eq_matched.1 hm
    obtain ⟨as, has, rfl⟩ := Answer.map_eq_matched.1 hm
    have hone := h m List.mem_cons_self p a r hp ha
    have hrest := ih (fun m hm => h m (List.mem_cons_of_mem _ hm)) r as q hone.le_length has
    exact hone.append hrest

theorem Reads.many (h : Reads source text m) :
    Reads source (fun as => as.flatMap text) (many source.length m) := by
  intro p as q hp hm
  induction hleft : source.length - p using Nat.strongRecOn generalizing p as with
  | ind left ih =>
    rw [Peg.many] at hm
    split at hm
    · next a r ha =>
      split at hm
      · next hlt =>
        obtain ⟨as, has, rfl⟩ := Answer.map_eq_matched.1 hm
        have hrest := ih (source.length - r) (by omega) r as hlt.2 has rfl
        exact (h p a r hp ha).append hrest
      · cases hm
        exact .nil hp
    · cases hm
      exact .nil hp
    · cases hm

end Peg

end PegGraph
