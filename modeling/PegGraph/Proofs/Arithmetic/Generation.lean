/-
PegGraph.Proofs.Arithmetic.Generation — sample expressions, and what they take.

  §1 Joining  — expressions under an operator, as one expression.
  §2 Nesting  — parentheses in parentheses, and the need that follows from them.
  §3 Samples  — `tryParse_sample`: whatever is generated is evaluated.

A generator writes an operator between any two expressions, without parentheses. The
text of `a+b` before `*c` does not stand for a product of what was generated, but it is
the text of another expression: the last product of the left operand takes in the first
product of the right one. Such regrouping moves no parentheses, so only the generator's
own add to the need of a digit, at most eleven levels each.
-/
import PegGraph.Arithmetic.Sample
import PegGraph.Proofs.Arithmetic.Budget

namespace PegGraph.Arithmetic

namespace Tree

variable {op : Operator}

/-! ## §1 Joining -/

/-- More operands after those of a rest. -/
def append : Tree (.rest op) → Tree (.rest op) → Tree (.rest op)
  | .nil, more => more
  | .cons operand rest, more => .cons operand (rest.append more)

/-- Two chains of an operator, with the operator between them. -/
def join : Tree (.chain op) → Tree (.chain op) → Tree (.chain op)
  | .chain first rest, .chain first' rest' => .chain first (rest.append (.cons first' rest'))

/-- A sum of products, of which the last one is multiplied by the first one of
another sum. -/
def times (first : Tree (.chain .mul)) : Tree (.rest .add) → Expression → Expression
  | .nil, .chain first' rest' => .chain (first.join first') rest'
  | .cons operand rest, other => join (.chain first .nil) (times operand rest other)

/-- Two expressions, with an operator between them. -/
def combine : Operator → Expression → Expression → Expression
  | .add, left, right => left.join right
  | .mul, .chain first rest, right => times first rest right

theorem text_append : (rest more : Tree (.rest op)) →
    (rest.append more).text = rest.text ++ more.text
  | .nil, more => by rw [append, text, List.nil_append]
  | .cons operand rest, more => by
    have ih := text_append rest more
    simp only [append, text, ih, List.append_assoc, List.cons_append]

theorem text_join (left right : Tree (.chain op)) :
    (left.join right).text = left.text ++ op.symbol :: right.text := by
  cases left with
  | chain first rest =>
    cases right with
    | chain first' rest' =>
      simp only [join, text, text_append, List.append_assoc, List.cons_append]

theorem text_times : (first : Tree (.chain .mul)) → (rest : Tree (.rest .add)) →
    (other : Expression) →
    (times first rest other).text = (@chain .add first rest).text ++ '*' :: other.text
  | first, .nil, .chain first' rest' => by
    have hjoin : @text Operator.add.operand (first.join first') = _ := text_join first first'
    simp only [times, text, hjoin, List.append_nil, List.append_assoc, List.cons_append]
    rfl
  | first, .cons operand rest, other => by
    have ih := text_times operand rest other
    simp only [times, text, text_join, ih, List.append_nil, List.append_assoc, List.cons_append]

theorem text_combine (op : Operator) (left right : Expression) :
    (combine op left right).text = left.text ++ op.symbol :: right.text := by
  cases op with
  | add => exact text_join left right
  | mul =>
    cases left with
    | chain first rest => exact text_times first rest right

/-! ## §2 Nesting -/

/-- How many pairs of parentheses are in one another. -/
def nesting : {phrase : Phrase} → Tree phrase → Nat
  | _, .digit _ => 0
  | _, .group inner => inner.nesting + 1
  | _, .chain first rest => max first.nesting rest.nesting
  | _, .nil => 0
  | _, .cons operand rest => max operand.nesting rest.nesting

theorem nesting_append : (rest more : Tree (.rest op)) →
    (rest.append more).nesting = max rest.nesting more.nesting
  | .nil, more => by rw [append, nesting, Nat.zero_max]
  | .cons operand rest, more => by
    have ih := nesting_append rest more
    simp only [append, nesting, ih, Nat.max_assoc]

theorem nesting_join (left right : Tree (.chain op)) :
    (left.join right).nesting = max left.nesting right.nesting := by
  cases left with
  | chain first rest =>
    cases right with
    | chain first' rest' => simp only [join, nesting, nesting_append, Nat.max_assoc]

theorem nesting_times : (first : Tree (.chain .mul)) → (rest : Tree (.rest .add)) →
    (other : Expression) →
    (times first rest other).nesting = max (@chain .add first rest).nesting other.nesting
  | first, .nil, .chain first' rest' => by
    have hjoin : @nesting Operator.add.operand (first.join first') = _ := nesting_join first first'
    simp only [times, nesting, hjoin, Nat.max_zero, Nat.max_assoc]
    rfl
  | first, .cons operand rest, other => by
    have ih := nesting_times operand rest other
    simp only [times, nesting, nesting_join, ih, Nat.max_zero, Nat.max_assoc]

theorem nesting_combine (op : Operator) (left right : Expression) :
    (combine op left right).nesting = max left.nesting right.nesting := by
  cases op with
  | add => exact nesting_join left right
  | mul =>
    cases left with
    | chain first rest => exact nesting_times first rest right

end Tree

/-- The levels that it takes at most to read a phrase without parentheses. -/
def Phrase.reach : Phrase → Nat
  | .factor => 2
  | .rest .mul => 3
  | .chain .mul => 6
  | .rest .add => 7
  | .chain .add => 10

namespace Tree

/-- Parentheses take eleven levels at most: three of their own, and eight from the
factor that they are up to the sum around it. -/
theorem levels_le {phrase : Phrase} (t : Tree phrase) :
    t.levels ≤ phrase.reach + 11 * t.nesting := by
  induction t with
  | digit d => exact Nat.le_refl 2
  | group inner ih =>
    simp only [levels, nesting, Phrase.reach] at ih ⊢
    omega
  | @chain op first rest ihf ihr =>
    simp only [levels, nesting]
    cases op <;> simp only [Operator.operand, Phrase.reach] at ihf ihr ⊢ <;> omega
  | @nil op => cases op <;> simp only [levels, nesting, Phrase.reach] <;> omega
  | @cons op operand rest iho ihr =>
    simp only [levels, nesting]
    cases op <;> simp only [Operator.operand, Phrase.reach] at iho ihr ⊢ <;> omega

/-- **Twelve levels and eleven for each parenthesis** in parentheses are enough for an
expression. -/
theorem need_le (e : Expression) : e.need ≤ 12 + 11 * e.nesting := by
  have h := e.levels_le
  rw [need_eq_levels]
  simp only [Phrase.reach] at h
  omega

end Tree

/-! ## §3 Samples -/

/-- A digit is written for a state. -/
theorem exists_digitChar (seed : Int) :
    ∃ d : Fin 10, digitChar (seed % 10).toNat = digitChar d :=
  ⟨⟨(seed % 10).toNat, by omega⟩, rfl⟩

/-- What is generated is the text of an expression, whose parentheses nest no more
deeply than was asked for. -/
theorem exists_sampleFrom (depth : Nat) (seed : Int) :
    ∃ e : Expression, (sampleFrom depth seed).1 = e.text ∧ e.nesting ≤ depth := by
  induction depth generalizing seed with
  | zero =>
    obtain ⟨d, hd⟩ := exists_digitChar (nextRandom seed)
    refine ⟨.chain (.chain (.digit d) .nil) .nil, ?_, Nat.le_refl 0⟩
    simp only [sampleFrom, hd]
    rfl
  | succ depth ih =>
    obtain ⟨left, hleft, hle⟩ := ih (nextRandom seed)
    obtain ⟨right, hright, hle'⟩ := ih (sampleFrom depth (nextRandom seed)).2
    have hboth : ∀ op, (Tree.combine op left right).nesting ≤ depth + 1 := fun op => by
      rw [Tree.nesting_combine]
      omega
    unfold sampleFrom
    simp only
    split
    · exact ⟨.combine .add left right, by rw [hleft, hright, Tree.text_combine]; rfl, hboth .add⟩
    · split
      · exact ⟨.combine .mul left right, by rw [hleft, hright, Tree.text_combine]; rfl, hboth .mul⟩
      · refine ⟨.chain (.chain (.group left) .nil) .nil, ?_, ?_⟩
        · rw [hleft]
          simp only [Tree.text, List.append_nil]
        · simp only [Tree.nesting, Nat.max_zero]
          omega

/-- **Every sample is evaluated** to its end, where the limit on depth is twelve and
eleven for each level of the sample: to the number that its text stands for, reduced
once. -/
theorem tryParse_sample (config : Parser.Config) (s : Session) (depth seed : Int)
    (hsize : config.maxSourceSize = 0)
    (hdepth : 12 + 11 * max depth 0 ≤ min config.maxDepth 800) :
    ∃ (parser : Parser) (s' : Session) (e : Expression),
      Arithmetic.parser config s = (.ok parser, s') ∧
      (sample depth seed).1 = String.ofList e.text ∧
      (∀ names : Session.GuardNames,
        (Session.tryParse names parser (.ofString (sample depth seed).1) s').1 =
          .matched (.int (e.value % 65535)) (sample depth seed).1.length) ∧
      0 ≤ e.value % 65535 ∧ e.value % 65535 ≤ 65534 := by
  obtain ⟨parser, s', hmake, hneeds⟩ := parser_needs config s
  obtain ⟨e, he, hnesting⟩ := exists_sampleFrom depth.toNat seed
  have htext : (sample depth seed).1 = String.ofList e.text := congrArg String.ofList he
  have hneed := e.need_le
  refine ⟨parser, s', e, hmake, htext, fun names => ?_, by omega, by omega⟩
  rw [htext, hneeds names e (.inl hsize), if_pos (by omega), String.length_ofList]

/-- A sample of depth three, from a state below zero. Its last eight characters are
generated as `4+6` times `0+4`; as they are written, the only product in them is
`6*0`. -/
theorem tryParse_sample_regrouped :
    12 + 11 * max (3 : Int) 0 ≤ min 45 800 ∧ (sample 3 (-2)).1 = "2*4+2*2+4+6*0+4" ∧
      ∃ (parser : Parser) (s' : Session) (e : Expression),
        Arithmetic.parser ⟨45, 0, by decide, by decide⟩ .empty = (.ok parser, s') ∧
        "2*4+2*2+4+6*0+4" = String.ofList e.text ∧
        (Session.tryParse (fun _ => none) parser (.ofString "2*4+2*2+4+6*0+4") s').1 =
          .matched (.int (e.value % 65535)) 15 := by
  have hdepth : 12 + 11 * max (3 : Int) 0 ≤ min 45 800 := by decide
  have hsample : (sample 3 (-2)).1 = "2*4+2*2+4+6*0+4" := by decide +kernel
  obtain ⟨parser, s', e, hmake, htext, htry, -⟩ :=
    tryParse_sample ⟨45, 0, by decide, by decide⟩ .empty 3 (-2) rfl hdepth
  rw [hsample] at htext htry
  exact ⟨hdepth, hsample, parser, s', e, hmake, htext, htry fun _ => none⟩

end PegGraph.Arithmetic
