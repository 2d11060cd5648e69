import Cascade.Proofs.Stopping

/-!
# The levels of the grammar

What each level of the grammar accepts. An operand that nothing continues is accepted at every
level.

## Main definitions

* `Grammar.operation`: an operator and its right operand.

## Main statements

* `Grammar.joined_eq_iff`, `Grammar.comparison_eq_iff`, `Grammar.conditional_eq_iff`.
* `Grammar.expression_of_operand`: an operand that nothing continues is an expression.
-/

namespace Cascade

namespace Grammar

open Cascade.Parser

variable {α : Type} {operand : Parser Expr} {operator : Parser α} {join : α → Expr → Expr → Expr}
  {cs rest : List Char} {e : Expr}

/-- An operator and its right operand. -/
def operation (operand : Parser Expr) (operator : Parser α) : Parser (α × Expr) := do
  let op ← operator
  return (op, ← operand)

theorem operation_eq_iff {op : α} {rhs : Expr} :
    operation operand operator cs = .accepted (op, rhs) rest ↔
    ∃ left, operator cs = .accepted op left ∧ operand left = .accepted rhs rest := by
  refine Iff.trans bind_eq_iff ?_
  constructor
  · rintro ⟨op', left, first, later⟩
    obtain ⟨rhs', last, second, same⟩ := bind_eq_iff.mp later
    cases same
    exact ⟨left, first, second⟩
  · rintro ⟨left, first, second⟩
    exact ⟨op, left, first, bind_eq_iff.mpr ⟨rhs, rest, second, rfl⟩⟩

/-- Where the operands of a level start as operands do, an operator goes on where an operand follows
it. -/
theorem accepts_operation_iff (starts : ∀ cs, operand.Accepts cs ↔ full.operandRule.Accepts cs) :
    (operation operand operator).Accepts cs ↔ (follow operator).Accepts cs := by
  rw [accepts_follow_iff]
  constructor
  · rintro ⟨⟨op, rhs⟩, rest, accepted⟩
    obtain ⟨left, first, second⟩ := operation_eq_iff.mp accepted
    exact ⟨op, left, first, (starts left).mp (accepts_of_eq second)⟩
  · rintro ⟨op, left, first, accepts⟩
    obtain ⟨rhs, rest, second⟩ := (starts left).mpr accepts
    exact ⟨(op, rhs), rest, operation_eq_iff.mpr ⟨left, first, second⟩⟩

theorem joined_eq_iff : joined operand operator join cs = .accepted e rest ↔
    ∃ first left more, operand cs = .accepted first left ∧
      many (operation operand operator) left = .accepted more rest ∧
      e = more.foldl (fun lhs step => join step.1 lhs step.2) first := by
  refine Iff.trans bind_eq_iff ?_
  constructor
  · rintro ⟨first, left, read, later⟩
    obtain ⟨more, last, repeated, same⟩ := bind_eq_iff.mp later
    cases same
    exact ⟨first, left, more, read, repeated, rfl⟩
  · rintro ⟨first, left, more, read, repeated, rfl⟩
    exact ⟨first, left, read, bind_eq_iff.mpr ⟨more, rest, repeated, rfl⟩⟩

/-- The forms of comparisons. -/
inductive ComparisonForm (lhs : Expr) (left : List Char) : Expr → List Char → Prop
  | alone (refused : ¬comparands.Accepts left) : ComparisonForm lhs left lhs left
  | compared {op : ComparisonOp} {rhs : Expr} {rest : List Char}
      (read : operation full.sum comparisonOp left = .accepted (op, rhs) rest) :
      ComparisonForm lhs left (.comparison op lhs rhs) rest

theorem comparison_eq_iff : full.comparison cs = .accepted e rest ↔
    ∃ lhs left, full.sum cs = .accepted lhs left ∧ ComparisonForm lhs left e rest := by
  refine Iff.trans bind_eq_iff (exists_congr fun lhs => exists_congr fun left => and_congr_right
    fun _ => Iff.trans bind_eq_iff ?_)
  constructor
  · rintro ⟨more, middle, read, later⟩
    cases more with
    | none =>
      obtain ⟨refused, rfl⟩ := optional_eq_none_iff.mp read
      cases later
      exact .alone refused
    | some more =>
      cases later
      exact .compared (optional_eq_some_iff.mp read)
  · intro form
    cases form with
    | alone refused => exact ⟨none, _, optional_eq_none_iff.mpr ⟨refused, rfl⟩, rfl⟩
    | @compared op rhs _ read => exact ⟨some (op, rhs), rest, optional_eq_some_iff.mpr read, rfl⟩

theorem branches_eq_iff {onTrue onFalse : Expr} : branches cs = .accepted (onTrue, onFalse) rest ↔
    ∃ left left' left'', spaced (char '?') cs = .accepted () left ∧
      full.expression left = .accepted onTrue left' ∧
      spaced (char ':') left' = .accepted () left'' ∧
      full.conditionalRule left'' = .accepted onFalse rest := by
  refine Iff.trans bind_eq_iff ?_
  constructor
  · rintro ⟨_, left, mark, afterMark⟩
    obtain ⟨t, left', read, afterTrue⟩ := bind_eq_iff.mp afterMark
    obtain ⟨_, left'', colon, afterColon⟩ := bind_eq_iff.mp afterTrue
    obtain ⟨f, last, read', same⟩ := bind_eq_iff.mp afterColon
    cases same
    exact ⟨left, left', left'', mark, read, colon, by rwa [full_conditional] at read'⟩
  · rintro ⟨left, left', left'', mark, read, colon, read'⟩
    exact ⟨(), left, mark, bind_eq_iff.mpr ⟨onTrue, left', read, bind_eq_iff.mpr ⟨(), left'', colon,
      bind_eq_iff.mpr ⟨onFalse, rest, by rwa [full_conditional], rfl⟩⟩⟩⟩

/-- The forms of conditions. -/
inductive ConditionForm (condition : Expr) (left : List Char) : Expr → List Char → Prop
  | alone (refused : ¬branches.Accepts left) : ConditionForm condition left condition left
  | branched {onTrue onFalse : Expr} {rest : List Char}
      (read : branches left = .accepted (onTrue, onFalse) rest) :
      ConditionForm condition left (.conditional condition onTrue onFalse) rest

theorem conditional_eq_iff : full.conditionalRule cs = .accepted e rest ↔
    ∃ condition left, full.concatenation cs = .accepted condition left ∧
      ConditionForm condition left e rest := by
  refine Iff.trans bind_eq_iff (exists_congr fun condition => exists_congr fun left =>
    and_congr_right fun _ => Iff.trans bind_eq_iff ?_)
  constructor
  · rintro ⟨more, middle, read, later⟩
    cases more with
    | none =>
      obtain ⟨refused, rfl⟩ := optional_eq_none_iff.mp read
      cases later
      exact .alone refused
    | some more =>
      cases later
      exact .branched (optional_eq_some_iff.mp read)
  · intro form
    cases form with
    | alone refused => exact ⟨none, _, optional_eq_none_iff.mpr ⟨refused, rfl⟩, rfl⟩
    | @branched t f _ read => exact ⟨some (t, f), rest, optional_eq_some_iff.mpr read, rfl⟩

/-- An operand alone is accepted where no operator of the level goes on. -/
theorem joined_of_operand (read : operand cs = .accepted e rest)
    (starts : ∀ cs, operand.Accepts cs ↔ full.operandRule.Accepts cs)
    (refused : ¬(follow operator).Accepts rest) :
    joined operand operator join cs = .accepted e rest :=
  joined_eq_iff.mpr ⟨e, rest, [], read,
    many_of_not_accepts fun accepts => refused ((accepts_operation_iff starts).mp accepts), rfl⟩

theorem accepts_comparands_iff : comparands.Accepts cs ↔ (follow comparisonOp).Accepts cs :=
  accepts_operation_iff fun _ => accepts_sum_iff

/-- An operand that nothing continues is an expression. -/
theorem expression_of_operand (read : full.operandRule cs = .accepted e rest)
    (tails : ∀ t : Tail, ¬t.Accepts rest) (alone : ¬(follow spaces1).Accepts rest) :
    full.expression cs = .accepted e rest := by
  have product : full.product cs = .accepted e rest :=
    joined_of_operand read (fun _ => Iff.rfl) (tails .product)
  have sum : full.sum cs = .accepted e rest :=
    joined_of_operand product (fun _ => accepts_product_iff) (tails .sum)
  have comparison : full.comparison cs = .accepted e rest :=
    comparison_eq_iff.mpr ⟨e, rest, sum, .alone fun accepts =>
      tails .comparison (accepts_comparands_iff.mp accepts)⟩
  have logical : full.logical cs = .accepted e rest :=
    joined_of_operand comparison (fun _ => accepts_comparison_iff) (tails .logic)
  have concatenation : full.concatenation cs = .accepted e rest :=
    joined_of_operand logical (fun _ => accepts_logical_iff) alone
  have conditional : full.conditionalRule cs = .accepted e rest :=
    conditional_eq_iff.mpr ⟨e, rest, concatenation, .alone (tails .condition)⟩
  rw [full_expression]
  exact joined_of_operand conditional (fun _ => accepts_conditional_iff) (tails .alternative)

end Grammar

end Cascade
