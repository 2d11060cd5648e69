import Cascade.Expr.Basic

/-!
# Operands

The nodes of an expression are the expression itself and the nodes of what stands directly below it.
A property that is told for every node passes on to the operands, which is what an induction on
expressions needs.

## Main definitions

* `Expr.operands`: the expressions directly below an expression.

## Main statements

* `Expr.walk_eq`, `Expr.forall_walk_iff`: the nodes of an expression by its operands.
* `Expr.operandInduction`: induction from the operands of an expression to the expression.
-/

namespace Cascade

namespace Expr

/-- The expressions directly below an expression, in written order. A lambda body is not below. -/
def operands : Expr → List Expr
  | .arithmetic _ lhs rhs => [lhs, rhs]
  | .concatenation lhs rhs => [lhs, rhs]
  | .comparison _ lhs rhs => [lhs, rhs]
  | .fallback lhs rhs => [lhs, rhs]
  | .logical _ lhs rhs => [lhs, rhs]
  | .not operand => [operand]
  | .conditional condition onTrue onFalse => [condition, onTrue, onFalse]
  | .list items => items
  | .range start stop => [start, stop]
  | .map entries => entries.map Prod.snd
  | .call callee args => callee :: args.map Argument.expr
  | .intrinsic _ args => args.map Argument.expr
  | .curry callee args => callee :: args.map Argument.expr
  | .marked _ inner => inner.toList
  | .prefer operand => [operand]
  | .substitution operand => [operand]
  | .dynamic base index => [base, index]
  | .slice base start stop => base :: (start.toList ++ stop.toList)
  | .projection base _ => [base]
  | .qualified base _ => [base]
  | .grouped inner => [inner]
  | _ => []

theorem walkList_eq (items : List Expr) : walkList items = items.flatMap walk := by
  induction items with
  | nil => rw [walkList, List.flatMap_nil]
  | cons item rest ih => rw [walkList, List.flatMap_cons, ih]

theorem walkEntries_eq (entries : List (String × Expr)) :
    walkEntries entries = (entries.map Prod.snd).flatMap walk := by
  induction entries with
  | nil => rw [walkEntries, List.map_nil, List.flatMap_nil]
  | cons entry rest ih => rw [walkEntries, List.map_cons, List.flatMap_cons, ih]

theorem walkArguments_eq (args : List Argument) :
    walkArguments args = (args.map Argument.expr).flatMap walk := by
  induction args with
  | nil => rw [walkArguments, List.map_nil, List.flatMap_nil]
  | cons argument rest ih =>
    cases argument <;> rw [walkArguments, List.map_cons, List.flatMap_cons, ih] <;> rfl

theorem walkOption_eq (e : Option Expr) : walkOption e = e.toList.flatMap walk := by
  cases e with
  | none => rw [walkOption, Option.toList_none, List.flatMap_nil]
  | some inner => rw [walkOption, Option.toList_some, List.flatMap_singleton]

/-- The nodes of an expression are itself and those of its operands. -/
theorem walk_eq (e : Expr) : e.walk = e :: e.operands.flatMap walk := by
  cases e <;> simp [walk, operands, walkList_eq, walkEntries_eq, walkArguments_eq, walkOption_eq]

/-- A statement about all nodes is one about the expression and about all nodes of its operands. -/
theorem forall_walk_iff {P : Expr → Prop} {e : Expr} :
    (∀ part ∈ e.walk, P part) ↔ P e ∧ ∀ operand ∈ e.operands, ∀ part ∈ operand.walk, P part := by
  rw [walk_eq, List.forall_mem_cons, List.forall_mem_flatMap]

theorem forall_walk_single {P : Expr → Prop} {e operand : Expr} (whole : ∀ part ∈ e.walk, P part)
    (shape : e.operands = [operand]) : ∀ part ∈ operand.walk, P part :=
  (forall_walk_iff.mp whole).2 operand (shape ▸ List.mem_singleton_self operand)

theorem forall_walk_pair {P : Expr → Prop} {e lhs rhs : Expr} (whole : ∀ part ∈ e.walk, P part)
    (shape : e.operands = [lhs, rhs]) :
    (∀ part ∈ lhs.walk, P part) ∧ ∀ part ∈ rhs.walk, P part := by
  have operands := (forall_walk_iff.mp whole).2
  rw [shape] at operands
  exact ⟨operands lhs (by simp), operands rhs (by simp)⟩

theorem sizeOf_lt_of_mem_operands {e operand : Expr} (member : operand ∈ e.operands) :
    sizeOf operand < sizeOf e := by
  have among {args : List Argument} (member : operand ∈ args.map Argument.expr) :
      sizeOf operand < sizeOf args := by
    obtain ⟨argument, known, rfl⟩ := List.mem_map.mp member
    have smaller := List.sizeOf_lt_of_mem known
    cases argument <;> simp [Argument.expr] at smaller ⊢ <;> omega
  cases e with
  | list items =>
    have := List.sizeOf_lt_of_mem (show operand ∈ items from member)
    simp
    omega
  | map entries =>
    obtain ⟨⟨key, e⟩, known, rfl⟩ := List.mem_map.mp member
    have := List.sizeOf_lt_of_mem known
    simp at this ⊢
    omega
  | intrinsic id args =>
    have := among member
    simp
    omega
  | call callee args =>
    rcases List.mem_cons.mp member with rfl | given
    · simp; omega
    · have := among given
      simp
      omega
  | curry callee args =>
    rcases List.mem_cons.mp member with rfl | given
    · simp; omega
    · have := among given
      simp
      omega
  | slice base start stop =>
    cases start <;> cases stop <;> simp [operands] at member ⊢ <;> grind
  | marked markers inner =>
    cases inner <;> simp [operands] at member ⊢
    subst member
    omega
  | _ => simp [operands] at member ⊢ <;> grind

/-- A statement that passes from the operands to an expression holds of every expression. -/
theorem operandInduction {P : Expr → Prop}
    (step : ∀ e, (∀ operand ∈ e.operands, P operand) → P e) (e : Expr) : P e :=
  step e fun operand member =>
    have := sizeOf_lt_of_mem_operands member
    operandInduction step operand
termination_by sizeOf e

end Expr

end Cascade
