/-
PegGraph.Proofs.NestedList.RoundTrip — values written down and parsed again.

  §1 Data   — numbers and lists of data, with their canonical text.
  §2 Trees  — the tree of a datum, and the levels that it takes.
  §3 Parses — `parseWith_text`: a datum is parsed from its text.

An item that is not the first of its list stands behind a comma, which takes a level. So
a list takes at most eight levels more than the deepest of its items.
-/
import PegGraph.Proofs.NestedList.Parsing

namespace PegGraph.NestedList

/-! ## §1 Data -/

/-- What can be written down: a number, or a list of data. -/
inductive Datum where
  | number (n : Nat)
  | list (items : List Datum)

namespace Datum

mutual

/-- How a datum is written: numbers in decimal without leading zeros, lists in brackets
with commas between the items. -/
def text : Datum → List Char
  | .number n => Nat.toDigits 10 n
  | .list items => '[' :: [','].intercalate (texts items) ++ [']']

def texts : List Datum → List (List Char)
  | [] => []
  | d :: ds => d.text :: texts ds

end

mutual

/-- The value that a datum is parsed to. -/
def value : Datum → Value
  | .number n => .int n
  | .list items => .list (values items)

def values : List Datum → List Value
  | [] => []
  | d :: ds => d.value :: values ds

end

mutual

/-- How deeply lists are nested. -/
def nesting : Datum → Nat
  | .number _ => 0
  | .list items => 1 + deepest items

def deepest : List Datum → Nat
  | [] => 0
  | d :: ds => max d.nesting (deepest ds)

end

mutual

/-- The numbers in a datum, from left to right. -/
def numbers : Datum → List Nat
  | .number n => [n]
  | .list items => allNumbers items

def allNumbers : List Datum → List Nat
  | [] => []
  | d :: ds => d.numbers ++ allNumbers ds

end

mutual

theorem value_inj : {d e : Datum} → d.value = e.value → d = e
  | .number n, .number m, h => by
    rw [value, value, Value.int.injEq, Int.ofNat_inj] at h
    rw [h]
  | .number n, .list items, h => by
    rw [value, value] at h
    cases h
  | .list items, .number m, h => by
    rw [value, value] at h
    cases h
  | .list items, .list items', h => by
    rw [value, value, Value.list.injEq] at h
    rw [values_inj h]

theorem values_inj : {ds es : List Datum} → values ds = values es → ds = es
  | [], [], _ => rfl
  | [], e :: es, h => by
    rw [values, values] at h
    cases h
  | d :: ds, [], h => by
    rw [values, values] at h
    cases h
  | d :: ds, e :: es, h => by
    rw [values, values, List.cons.injEq] at h
    rw [value_inj h.1, values_inj h.2]

end

/-! ## §2 Trees -/

mutual

/-- The tree that a datum is written from. -/
def tree : Datum → Tree .value
  | .number n => .number (.ofNat n)
  | .list [] => .empty
  | .list (d :: ds) => .list d.tree (more ds)

def more : List Datum → Tree .more
  | [] => .last
  | d :: ds => .next d.tree (more ds)

end

theorem intercalate_cons (t : List Char) (ts : List (List Char)) :
    [','].intercalate (t :: ts) = t ++ ts.flatMap (',' :: ·) := by
  induction ts generalizing t with
  | nil => simp
  | cons u ts ih => simp [ih]

mutual

theorem text_tree : (d : Datum) → d.tree.text = d.text
  | .number n => by rw [tree, text, Tree.text, Numeral.chars_ofNat]
  | .list [] => by
    rw [tree, text, texts]
    rfl
  | .list (d :: ds) => by
    rw [tree, text, texts, Tree.text, text_tree d, text_more ds, intercalate_cons]
    rfl

theorem text_more : (ds : List Datum) → (more ds).text = (texts ds).flatMap (',' :: ·)
  | [] => by
    rw [more, texts]
    rfl
  | d :: ds => by
    rw [more, texts, Tree.text, text_tree d, text_more ds]
    rfl

end

mutual

theorem meaning_tree : (d : Datum) → d.tree.meaning = d.value
  | .number n => by rw [tree, value, Tree.meaning, Numeral.value_ofNat]
  | .list [] => by
    rw [tree, value, values]
    rfl
  | .list (d :: ds) => by
    rw [tree, value, values, Tree.meaning, meaning_tree d, meaning_more ds]

theorem meaning_more : (ds : List Datum) → (more ds).meaning = values ds
  | [] => by
    rw [more, values]
    rfl
  | d :: ds => by rw [more, values, Tree.meaning, meaning_tree d, meaning_more ds]

end

mutual

theorem numerals_tree : (d : Datum) → d.tree.numerals = d.numbers.map .ofNat
  | .number n => by
    rw [tree, numbers]
    rfl
  | .list [] => by
    rw [tree, numbers, allNumbers]
    rfl
  | .list (d :: ds) => by
    rw [tree, numbers, allNumbers, Tree.numerals, numerals_tree d, numerals_more ds,
      List.map_append]

theorem numerals_more : (ds : List Datum) → (more ds).numerals = (allNumbers ds).map .ofNat
  | [] => by
    rw [more, allNumbers]
    rfl
  | d :: ds => by
    rw [more, allNumbers, Tree.numerals, numerals_tree d, numerals_more ds, List.map_append]

end

mutual

/-- A list is around its items, and has a comma before all of them but one. -/
theorem levels_tree_le : (d : Datum) → d.tree.levels ≤ 4 + 8 * d.nesting
  | .number n => by
    rw [tree, nesting, Tree.levels]
  | .list [] => by
    rw [tree, nesting, deepest, Tree.levels]
    omega
  | .list (d :: ds) => by
    have hfirst := levels_tree_le d
    have hmore := levels_more_le ds
    rw [tree, nesting, deepest, Tree.levels]
    omega

theorem levels_more_le : (ds : List Datum) → (more ds).levels ≤ 5 + 8 * deepest ds
  | [] => by
    rw [more, deepest, Tree.levels]
    omega
  | d :: ds => by
    have hitem := levels_tree_le d
    have hmore := levels_more_le ds
    rw [more, deepest, Tree.levels]
    omega

end

/-! ## §3 Parses -/

/-- A datum that fits the default limits: its numbers have no more digits than are read at
once, its lists are not nested too deeply, and its text is not too long. -/
structure Fits (d : Datum) : Prop where
  digits : ∀ n ∈ d.numbers, (Nat.toDigits 10 n).length ≤ 4300
  nesting : d.nesting ≤ 61
  length : d.text.length ≤ 10485760

end Datum

/-- **A datum is parsed from its text** under the default limits, in any session. So data
with the same text are the same. -/
theorem parseWith_text_datum (s : Session) :
    ∃ (parser : Parser) (s' : Session), NestedList.parser s = (.ok parser, s') ∧
      (∀ (names : Session.GuardNames) (d : Datum), d.Fits →
        (Session.parseWith names parser (.ofString (String.ofList d.text)) s').1 =
          .ok d.value) ∧
      ∀ d e : Datum, d.Fits → e.Fits → d.text = e.text → d = e := by
  obtain ⟨parser, s', hmake, htry⟩ := parser_tries s
  have hparse : ∀ (names : Session.GuardNames) (d : Datum), d.Fits →
      (Session.parseWith names parser (.ofString (String.ofList d.text)) s').1 = .ok d.value := by
    intro names d hfits
    have htext : (Source.ofString (String.ofList d.text)).chars.toList = d.tree.text := by
      rw [d.text_tree]
      simp [Source.ofString]
    have hsize : (Source.ofString (String.ofList d.text)).length ≤ 10485760 := by
      rw [Source.length_ofString, String.toList_ofList]
      exact hfits.length
    have hlength : ∀ n ∈ d.tree.numerals, n.chars.length ≤ Limits.maxNumeralDigits := by
      rw [d.numerals_tree, List.forall_mem_map]
      exact hfits.digits
    have hroom : d.tree.levels + 2 ≤ 500 := by
      have hlevels := d.levels_tree_le
      have hnesting := hfits.nesting
      omega
    change (Session.tryParse names parser _ s').1.value = _
    rw [htry names _ hsize, (document_of_text htext hlength).eq hroom, d.meaning_tree]
    rfl
  refine ⟨parser, s', hmake, hparse, fun d e hd he htext => Datum.value_inj ?_⟩
  have hone := hparse (fun _ => none) d hd
  rw [htext, hparse (fun _ => none) e he] at hone
  exact (Except.ok.inj hone).symm

/-- Lists in lists to a given depth, each behind a number. -/
def tower : Nat → Datum
  | 0 => .number 0
  | depth + 1 => .list [.number depth, tower depth]

/-- The deepest tower that fits. Every list in it is behind a comma, where it takes the
most levels. -/
theorem parseWith_text_datum_tower :
    (tower 61).Fits ∧ ∃ (parser : Parser) (s' : Session),
      NestedList.parser .empty = (.ok parser, s') ∧
      (Session.parseWith (fun _ => none) parser
        (.ofString (String.ofList (tower 61).text)) s').1 = .ok (tower 61).value := by
  have hfits : (tower 61).Fits :=
    ⟨by decide +kernel, by decide +kernel, by decide +kernel⟩
  obtain ⟨parser, s', hmake, hparse, -⟩ := parseWith_text_datum .empty
  exact ⟨hfits, parser, s', hmake, hparse (fun _ => none) (tower 61) hfits⟩

end PegGraph.NestedList
