/-
PegGraph.Proofs.Arithmetic.Budget — how many levels of composites an expression
takes, read off its text.

  §1 Sites  — the digits of an expression, and the parentheses around each.
  §2 Levels — `need_eq_levels`: the greatest need of a digit is what reading takes.
  §3 Limits — `parseWith_need`: an expression is evaluated up to its need, and
              exceeds every lower limit.

Reading reckons levels from the inside: each part takes what its own parts take,
and some more. A need is reckoned from the outside: every digit adds up what is
around it. The two meet when for each part of an expression the levels around it
(`Phrase.around`) are known: a chain gives its first operand two of them, and the
others two more.
-/
import PegGraph.Proofs.Arithmetic.Evaluation

namespace PegGraph.Arithmetic

/-! ## §1 Sites -/

/-- Where a factor stands in the sum around it. -/
structure Place where
  /-- Whether it is the first factor of its product. -/
  firstFactor : Bool
  /-- Whether that product is the first term of its sum. -/
  firstTerm : Bool
  deriving DecidableEq

namespace Place

/-- The first factor of the first term. -/
def first : Place := ⟨true, true⟩

/-- Two levels for an operand that is not the first. -/
def delay (isFirst : Bool) : Nat := if isFirst then 0 else 2

/-- The levels that a place costs: two if its factor is not the first of its
product, and two if that product is not the first of its sum. -/
def extra (place : Place) : Nat := delay place.firstFactor + delay place.firstTerm

/-- The place of an operand among the operands of an operator. -/
def among : Operator → Bool → Place → Place
  | .mul, isFirst, place => { place with firstFactor := isFirst }
  | .add, isFirst, place => { place with firstTerm := isFirst }

end Place

/-- A digit of an expression: its place, and the places of the factors in
parentheses that it is in, the outermost first. -/
structure Site where
  place : Place
  within : List Place
  deriving DecidableEq

namespace Site

/-- Eight levels for a digit, and seven for every factor in parentheses that it
is in, each with what its place costs. -/
def need (site : Site) : Nat :=
  site.within.foldr (fun place levels => 7 + place.extra + levels) (8 + site.place.extra)

/-- The same digit, inside one more factor in parentheses. -/
def inside (place : Place) (site : Site) : Site := { site with within := place :: site.within }

theorem need_inside (place : Place) (site : Site) :
    (site.inside place).need = 7 + place.extra + site.need := rfl

/-- The greatest need among some digits. -/
def greatest (sites : List Site) : Nat := (sites.map need).foldr max 0

theorem greatest_cons (site : Site) (sites : List Site) :
    greatest (site :: sites) = max site.need (greatest sites) := rfl

theorem greatest_append (sites others : List Site) :
    greatest (sites ++ others) = max (greatest sites) (greatest others) := by
  induction sites with
  | nil => exact (Nat.zero_max _).symm
  | cons site sites ih => rw [List.cons_append, greatest_cons, greatest_cons, ih, Nat.max_assoc]

/-- Parentheses add their levels to the need of every digit in them. -/
theorem greatest_inside (place : Place) (sites : List Site) :
    max (7 + place.extra) (greatest (sites.map (inside place))) =
      7 + place.extra + greatest sites := by
  induction sites with
  | nil => exact Nat.max_zero _
  | cons site sites ih =>
    rw [List.map_cons, greatest_cons, greatest_cons, need_inside]
    omega

end Site

namespace Tree

/-- The digits of a part of an expression, from left to right. The part is at the
given place, as far as it is known: a chain has places of its own for its
operands. -/
def sites : {phrase : Phrase} → Tree phrase → Place → List Site
  | _, .digit _, place => [⟨place, []⟩]
  | _, .group inner, place => (inner.sites .first).map (Site.inside place)
  | _, @chain op first rest, place =>
    first.sites (place.among op true) ++ rest.sites (place.among op false)
  | _, .nil, _ => []
  | _, .cons operand rest, place => operand.sites place ++ rest.sites place

/-- The levels of composites that an expression takes: as many as one of its
digits needs at most. -/
def need (e : Expression) : Nat := Site.greatest (e.sites .first)

end Tree

/-! ## §2 Levels -/

/-- The levels around a part of an expression, up to the next parentheses or the
whole source. -/
def Phrase.around : Phrase → Place → Nat
  | .factor, place => 6 + place.extra
  | .rest .mul, place => 5 + place.extra
  | .chain .mul, place => 4 + Place.delay place.firstTerm
  | .rest .add, place => 3 + Place.delay place.firstTerm
  | .chain .add, _ => 2

theorem around_first (op : Operator) (place : Place) :
    op.operand.around (place.among op true) = (Phrase.chain op).around place + 2 := by
  rcases place with ⟨_ | _, _ | _⟩ <;> cases op <;> rfl

theorem around_rest (op : Operator) (place : Place) :
    (Phrase.rest op).around (place.among op false) = (Phrase.chain op).around place + 3 := by
  rcases place with ⟨_ | _, _ | _⟩ <;> cases op <;> rfl

theorem around_operand (op : Operator) (place : Place) :
    op.operand.around place = (Phrase.rest op).around place + 1 := by
  rcases place with ⟨_ | _, _ | _⟩ <;> cases op <;> rfl

theorem around_sum (place : Place) : (Phrase.chain .add).around place = 2 := rfl

namespace Tree

theorem two_le_levels {op : Operator} (t : Tree (.chain op)) : 2 ≤ t.levels := by
  cases t with
  | chain => exact Nat.le_add_left 2 _

/-- Whatever has a digit takes two levels. -/
theorem two_le_levels_operand {op : Operator} (t : Tree op.operand) : 2 ≤ t.levels := by
  cases op with
  | add => exact two_le_levels t
  | mul =>
    cases t with
    | digit => exact Nat.le_refl 2
    | group inner => exact (two_le_levels inner).trans (Nat.le_add_right _ 3)

/-- The need of the digits in a part is what reading it takes, and what is around
it. A rest may have no digit; it takes one level all the same. -/
theorem greatest_sites {phrase : Phrase} (t : Tree phrase) (place : Place) :
    max (phrase.around place + 1) (Site.greatest (t.sites place)) =
      t.levels + phrase.around place := by
  induction t generalizing place with
  | digit d =>
    have hneed : Site.greatest ((Tree.digit d).sites place) = 8 + place.extra := Nat.max_zero _
    rw [hneed, levels, Phrase.around]
    omega
  | group inner ih =>
    have hinner := ih .first
    have hshift := Site.greatest_inside place (inner.sites .first)
    have hpos := two_le_levels inner
    have haround : Phrase.factor.around place = 6 + place.extra := rfl
    rw [around_sum] at hinner
    rw [sites, levels, haround]
    omega
  | @chain op first rest ihf ihr =>
    have hf := ihf (place.among op true)
    have hr := ihr (place.among op false)
    have hpos := two_le_levels_operand first
    rw [around_first] at hf
    rw [around_rest] at hr
    rw [sites, Site.greatest_append, levels]
    omega
  | @nil op => exact (Nat.max_zero _).trans (Nat.add_comm _ _)
  | @cons op operand rest iho ihr =>
    have ho := iho place
    have hr := ihr place
    have hpos := two_le_levels_operand operand
    rw [around_operand] at ho
    rw [sites, Site.greatest_append, levels]
    omega

/-- **The need of an expression** is what reading it from the start takes. -/
theorem need_eq_levels (e : Expression) : need e = e.levels + 2 := by
  have h := e.greatest_sites .first
  have hpos := two_le_levels e
  rw [around_sum] at h
  unfold need
  omega

/-- A digit in some parentheses, and nothing else. -/
def nested (d : Fin 10) : Nat → Expression
  | 0 => .chain (.chain (.digit d) .nil) .nil
  | n + 1 => .chain (.chain (.group (nested d n)) .nil) .nil

/-- Seven levels for every pair of parentheses. -/
theorem need_nested (d : Fin 10) (n : Nat) : (nested d n).need = 8 + 7 * n := by
  induction n with
  | zero => rfl
  | succ n ih =>
    rw [need_eq_levels] at ih ⊢
    simp only [nested, levels]
    omega

end Tree

/-! ## §3 Limits -/

/-- A parser is made in any session under any configuration. The text of an expression
that is not too large is matched to its end, if the limit on depth covers the need of
the expression; otherwise the limit is exceeded. -/
theorem parser_needs (config : Parser.Config) (s : Session) :
    ∃ (parser : Parser) (s' : Session), Arithmetic.parser config s = (.ok parser, s') ∧
      ∀ (names : Session.GuardNames) (e : Expression),
        config.maxSourceSize = 0 ∨ e.text.length ≤ config.maxSourceSize →
        (Session.tryParse names parser (.ofString (String.ofList e.text)) s').1 =
          if e.need ≤ min config.maxDepth 800 then
            .matched (.int (e.value % 65535)) e.text.length
          else .failed (.depthLimitExceeded (min config.maxDepth 800)) := by
  obtain ⟨parser, s', own, hmake, rfl, hsettles, hlays⟩ := parser_settles config s
  refine ⟨parser, s', hmake, fun names e hsize => ?_⟩
  have htext : (Source.ofString (String.ofList e.text)).chars.toList = e.text := by
    simp [Source.ofString]
  have hlength : (Source.ofString (String.ofList e.text)).length = e.text.length :=
    Array.length_toList.symm.trans (congrArg List.length htext)
  have hfits : parser.config.tooLarge (.ofString (String.ofList e.text)) = false := by
    unfold Parser.Config.tooLarge
    rw [hlength, Bool.and_eq_false_iff, decide_eq_false_iff_not, decide_eq_false_iff_not]
    omega
  have hlimit : clampDepth parser.config.maxDepth = min parser.config.maxDepth 800 :=
    clampDepth_eq_min ..
  have htry : (Session.tryParse names parser (.ofString (String.ofList e.text)) s').1 = _ :=
    hsettles.tryParse_eq isCall_rule hlays (s'.depthOf names none) _
  rw [hfits, if_neg Bool.false_ne_true, hlimit] at htry
  have hstart : Rule.Yields rule (.ofString (String.ofList e.text))
      (min parser.config.maxDepth 800) (.call .start) 0 (e.levels + 2) _ := start_of_text htext
  rw [← Tree.need_eq_levels, hlength] at hstart
  rw [htry]
  split
  · next hle =>
    have hroom : e.need ≤ (min parser.config.maxDepth 800).toNat := by omega
    rw [hstart.eq hroom]
    rfl
  · next hlt =>
    have hpos := parser.config.maxDepth_pos
    have hroom : ¬ e.need ≤ (min parser.config.maxDepth 800).toNat := by omega
    rw [hstart.eq_failed hroom]
    rfl

/-- **The parser evaluates an expression exactly within its need**: the limit on
depth, which is at most 800, is exceeded if and only if it is lower. -/
theorem parseWith_need (config : Parser.Config) (s : Session) (e : Expression)
    (hsize : config.maxSourceSize = 0 ∨ e.text.length ≤ config.maxSourceSize) :
    ∃ (parser : Parser) (s' : Session), Arithmetic.parser config s = (.ok parser, s') ∧
      ∀ names : Session.GuardNames,
        (e.need ≤ min config.maxDepth 800 →
          (Session.parseWith names parser (.ofString (String.ofList e.text)) s').1 =
            .ok (.int (e.value % 65535))) ∧
        (min config.maxDepth 800 < e.need →
          (Session.parseWith names parser (.ofString (String.ofList e.text)) s').1 =
            .error (.depthLimitExceeded (min config.maxDepth 800))) := by
  obtain ⟨parser, s', hmake, hneeds⟩ := parser_needs config s
  refine ⟨parser, s', hmake, fun names => ?_⟩
  have htry := hneeds names e hsize
  change (_ → (Session.tryParse names parser _ s').1.value = _) ∧
    (_ → (Session.tryParse names parser _ s').1.value = _)
  rw [htry]
  constructor
  · intro hle
    rw [if_pos hle]
    rfl
  · intro hlt
    rw [if_neg (Int.not_le.2 hlt)]
    rfl

/-- In `9*9*9*9*9*(9+1)` the last digit needs the most: it is a second term, and its
parentheses are not the first factor. -/
theorem parseWith_need_nines :
    nines.need = 8 + 2 + (7 + 2) ∧
      (∃ (parser : Parser) (s' : Session),
        Arithmetic.parser ⟨19, 15, by decide, by decide⟩ .empty = (.ok parser, s') ∧
        (Session.parseWith (fun _ => none) parser (.ofString (String.ofList nines.text)) s').1 =
          .ok (.int 675)) ∧
      ∃ (parser : Parser) (s' : Session),
        Arithmetic.parser ⟨18, 0, by decide, by decide⟩ .empty = (.ok parser, s') ∧
        (Session.parseWith (fun _ => none) parser (.ofString (String.ofList nines.text)) s').1 =
          .error (.depthLimitExceeded 18) := by
  have hneed : nines.need = 19 := by decide
  obtain ⟨parser, s, hmake, h⟩ :=
    parseWith_need ⟨19, 15, by decide, by decide⟩ .empty nines (.inr (by decide))
  obtain ⟨parser', s', hmake', h'⟩ :=
    parseWith_need ⟨18, 0, by decide, by decide⟩ .empty nines (.inl rfl)
  refine ⟨hneed, ⟨parser, s, hmake, ?_⟩, parser', s', hmake', ?_⟩
  · exact (h fun _ => none).1 (by rw [hneed]; decide)
  · exact (h' fun _ => none).2 (by rw [hneed]; decide)

end PegGraph.Arithmetic
