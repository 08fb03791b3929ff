/-
PegGraph.Text — how texts, records and numbers are written.

  §1 Visible characters — which characters may stand for themselves.
  §2 Numbers            — hexadecimals, and decimals in groups of three.
  §3 Escapes            — the code-point escapes, by width.
  §4 Quoting            — the choice of quote and the whole written form.
  §5 Records            — a record with its fields, as in `Point(x=1, y=2)`.
-/

namespace PegGraph.Text

/-! ## §1 Visible characters -/

/-- Ranges of code points beyond the printable ASCII characters that have no
visible form: controls, format characters, separators, private use. Unassigned
code points are left out, but for those that stand between others here: which
they are changes with each version of the character tables. Those left out count
as visible. -/
def hiddenRanges : List (Nat × Nat) :=
  [(0x00, 0x1f), (0x7f, 0xa0), (0xad, 0xad), (0x600, 0x605), (0x61c, 0x61c), (0x6dd, 0x6dd),
   (0x70f, 0x70f), (0x890, 0x891), (0x8e2, 0x8e2), (0x1680, 0x1680), (0x180e, 0x180e),
   (0x2000, 0x200f), (0x2028, 0x202f), (0x205f, 0x206f), (0x3000, 0x3000), (0xe000, 0xf8ff),
   (0xfdd0, 0xfdef), (0xfeff, 0xfeff), (0xfff0, 0xfffb), (0xfffe, 0xffff), (0x110bd, 0x110bd),
   (0x110cd, 0x110cd), (0x13430, 0x1343f), (0x1bca0, 0x1bca3), (0x1d173, 0x1d17a),
   (0xe0000, 0xe00ff), (0xe01f0, 0x10ffff)]

/-- A character that is written as it is. The last two code points of every
plane are reserved and have no visible form. -/
def isVisible (c : Char) : Bool :=
  c.toNat % 0x10000 < 0xfffe && hiddenRanges.all fun r => c.toNat < r.1 || r.2 < c.toNat

/-! ## §2 Numbers -/

/-- The lower-case hexadecimal digit of a number below sixteen. -/
def hexDigit (d : Nat) : Char :=
  if d < 10 then Char.ofNat (48 + d) else Char.ofNat (87 + d)

/-- The last `width` hexadecimal digits of a number, the most significant
first. -/
def hexDigits : Nat → Nat → List Char
  | 0, _ => []
  | width + 1, n => hexDigits width (n / 16) ++ [hexDigit (n % 16)]

/-- A number in lower-case hexadecimal, without leading zeros. -/
def hexadecimal (n : Nat) : String := String.ofList (Nat.toDigits 16 n)

theorem digitChar_inj {a b : Nat} (ha : a < 16) (hb : b < 16)
    (h : a.digitChar = b.digitChar) : a = b := by
  have hall : ∀ a < 16, ∀ b < 16, Nat.digitChar a = Nat.digitChar b → a = b := by decide
  exact hall a ha b hb h

/-- One digit is not enough for a number above fifteen. -/
theorem toDigits_ne_of_lt_of_le {m n : Nat} (hm : m < 16) (hn : 16 ≤ n) :
    Nat.toDigits 16 m ≠ Nat.toDigits 16 n := by
  intro h
  rw [Nat.toDigits_of_lt_base hm, Nat.toDigits_of_base_le (by decide) hn] at h
  have hpos : 0 < (Nat.toDigits 16 (n / 16)).length := Nat.length_toDigits_pos
  have hlength := congrArg List.length h
  rw [List.length_append, List.length_singleton, List.length_singleton] at hlength
  omega

/-- Different numbers have different digits: the last ones tell the remainders
apart, and those before them the quotients. -/
theorem toDigits_inj {m n : Nat} (h : Nat.toDigits 16 m = Nat.toDigits 16 n) : m = n := by
  induction m using Nat.strongRecOn generalizing n with
  | ind m ih =>
    rcases Nat.lt_or_ge m 16 with hm | hm <;> rcases Nat.lt_or_ge n 16 with hn | hn
    · rw [Nat.toDigits_of_lt_base hm, Nat.toDigits_of_lt_base hn] at h
      exact digitChar_inj hm hn (List.cons.inj h).1
    · exact absurd h (toDigits_ne_of_lt_of_le hm hn)
    · exact absurd h.symm (toDigits_ne_of_lt_of_le hn hm)
    · rw [Nat.toDigits_of_base_le (by decide) hm, Nat.toDigits_of_base_le (by decide) hn] at h
      obtain ⟨hinit, hlast⟩ := List.append_inj' h rfl
      have hquot : m / 16 = n / 16 := ih (m / 16) (by omega) hinit
      have hrem : m % 16 = n % 16 :=
        digitChar_inj (Nat.mod_lt m (by decide)) (Nat.mod_lt n (by decide)) (List.cons.inj hlast).1
      omega

theorem hexadecimal_inj {m n : Nat} : hexadecimal m = hexadecimal n ↔ m = n :=
  ⟨fun h => toDigits_inj (String.ofList_injective h), congrArg hexadecimal⟩

/-- Digits, the least significant first, with a comma after each full group of
three that is not the last. -/
def groupReversed : List Char → List Char
  | a :: b :: c :: d :: rest => a :: b :: c :: ',' :: groupReversed (d :: rest)
  | short => short

/-- An integer in decimal with a comma between groups of three digits, and its
sign in front. -/
def grouped (n : Int) : String :=
  let digits := String.ofList (groupReversed (toString n.natAbs).toList.reverse).reverse
  if n < 0 then "-" ++ digits else digits

/-! ## §3 Escapes -/

/-- A character written by its code point, in the shortest of the three widths
that holds it. -/
def escapeCodePoint (c : Char) : List Char :=
  if c.toNat < 0x100 then '\\' :: 'x' :: hexDigits 2 c.toNat
  else if c.toNat < 0x10000 then '\\' :: 'u' :: hexDigits 4 c.toNat
  else '\\' :: 'U' :: hexDigits 8 c.toNat

/-! ## §4 Quoting -/

/-- The single quote. -/
def singleQuote : Char := Char.ofNat 39

/-- The double quote. -/
def doubleQuote : Char := Char.ofNat 34

/-- The quote around a text: double if the text holds a single quote and no
double one, and single otherwise. -/
def quoteFor (s : List Char) : Char :=
  if s.contains singleQuote && !s.contains doubleQuote then doubleQuote else singleQuote

theorem quoteFor_eq (s : List Char) : quoteFor s = singleQuote ∨ quoteFor s = doubleQuote := by
  unfold quoteFor
  split
  · exact .inr rfl
  · exact .inl rfl

/-- One character between quotes of the given kind. -/
def escape (quote c : Char) : List Char :=
  if c = '\\' || c = quote then ['\\', c]
  else if c = '\n' then ['\\', 'n']
  else if c = '\r' then ['\\', 'r']
  else if c = '\t' then ['\\', 't']
  else if isVisible c then [c]
  else escapeCodePoint c

/-- A text between quotes. -/
def quoted (s : String) : String :=
  let quote := quoteFor s.toList
  String.ofList (quote :: s.toList.flatMap (escape quote) ++ [quote])

theorem head?_quoted (s : String) : (quoted s).toList.head? = some (quoteFor s.toList) := by
  simp [quoted]

/-! ## §5 Records -/

/-- A record with its fields, each a name and a written value. -/
def record (name : String) (fields : List (String × String)) : String :=
  name ++ "(" ++ ", ".intercalate (fields.map fun f => f.1 ++ "=" ++ f.2) ++ ")"

/-- A text that may be missing. -/
def quotedOrNone : Option String → String
  | some s => quoted s
  | none => "None"

end PegGraph.Text
