import Cascade.Proofs.PrintedChains

/-!
# Reading printed expressions

Every level of the grammar reads back what it prints: an operand stops before the operator that
stood behind it, and the operator is followed by the operand that it was followed by.

## Main definitions

* `Grammar.Level`: what reading back needs of operands joined by the operators of one level.

## Main statements

* `Grammar.Level.readsBack`: joined operands read back if the operands do.
* `Grammar.readsBack_expression`: every expression reads back from its printed form.
-/

namespace Cascade

namespace Grammar

open Cascade.Parser

variable {bound : Nat} {cs rest rest' : List Char} {e : Expr}

/-! ### Operands -/

theorem Reprinted.of_operand (read : full.operandRule cs = .accepted e rest)
    (faithful : e.Everywhere Expr.Faithful)
    (accepted : full.operandRule (e.print ++ rest') = .accepted e rest') :
    Reprinted full.operandRule cs e rest' := by
  refine ⟨accepted, ⟨e, rest, rest', read, accepted, rfl, ?_, ?_⟩⟩
  · rintro rfl
    rfl
  · rintro x rfl
    exact faithful

/-- An operand reads back if what is nested in it does. -/
theorem readsBack_operand (expressions : ReadsBackBelow full.expression bound)
    (operands : ReadsBackBelow full.operandRule bound) :
    ReadsBackBelow full.operandRule (bound + 1) := by
  intro cs e rest short read faithful rest' ends
  refine .of_operand read faithful ?_
  cases operandForm_of_eq read with
  | @not left _ _ head operand =>
    rw [head] at short
    exact reprint_not operands (length_dropWhile_lt short) operand faithful ends
  | @substitution left _ _ head operand =>
    rw [head, List.length_cons] at short
    exact reprint_substitution operands (by omega) operand faithful ends
  | marked form => exact reprint_marked expressions short form faithful ends
  | merge form => exact reprint_merge form ends
  | auto _ => exact reprint_auto ends
  | @prefer left left' _ _ word spacing operand =>
    have step := (advances_identifier _ _ _ word).2
    have step' := (advances_spaces1 _ _ _ spacing).2
    exact reprint_prefer operands (by omega) operand faithful ends
  | lambda form =>
    obtain ⟨word, left, params, body, head, form', rfl⟩ := lambda_eq_iff.mp form
    have shrinks : lambdaWord.Shrinks :=
      (advances_keyword (by decide)).shrinks.bind fun _ => shrinks_spaces
    have step := shrinks.optional.length_le head
    rw [List.length_cons] at step
    exact reprint_lambda expressions (by omega) form' faithful ends
  | negative head form =>
    refine operandRule_printed_literal (isLiteral_of_number form) ?_ ends.delimited
    rintro x rfl
    exact faithful
  | chain unmerged named form =>
    exact reprint_chain expressions short unmerged named form faithful ends.delimited

/-! ### Joined operands -/

/-- Operands joined by the operators of one level, and how they print. -/
structure Level {α : Type} (operand : Parser Expr) (operator : Parser α)
    (join : α → Expr → Expr → Expr) (between : α → List Char) : Prop where
  starts : ∀ cs, operand.Accepts cs ↔ full.operandRule.Accepts cs
  advances : operand.Advances
  operates : operator.Advances
  print : ∀ op l r, (join op l r).print = l.print ++ (between op ++ r.print)
  endsOn : ∀ op l r, (join op l r).endsOn = r.endsOn
  startsNil : ∀ op l r, (join op l r).startsNil = l.startsNil
  everywhere : ∀ op l r, (join op l r).Everywhere Expr.Faithful ↔
    (join op l r).Faithful ∧ l.Everywhere Expr.Faithful ∧ r.Everywhere Expr.Faithful
  /-- Only the end of the left operand matters to whether the node prints as it was read. -/
  faithful : ∀ op {l l' : Expr} (r : Expr), l.endsOn = l'.endsOn → (join op l r).Faithful →
    (join op l' r).Faithful
  /-- The operator is read back, and the operand before it stops there. -/
  reads : ∀ {op : α} {l r : Expr} {rest cs P : List Char}, operator rest = .accepted op cs →
    full.operandRule.Accepts cs → SameStart cs r P → (join op l r).Faithful →
    Ends l rest (between op ++ P) ∧ operator (between op ++ P) = .accepted op P
  /-- No operator is read where no expression goes on in a new way. -/
  stops : ∀ {rest rest'}, Stops rest rest' → (follow operator).Accepts rest' →
    (follow operator).Accepts rest

namespace Level

variable {α : Type} {operand : Parser Expr} {operator : Parser α} {join : α → Expr → Expr → Expr}
  {between : α → List Char} (level : Level operand operator join between)

/-- Operands joined from the left. -/
def joinAll (join : α → Expr → Expr → Expr) (first : Expr) (more : List (α × Expr)) : Expr :=
  more.foldl (fun lhs step => join step.1 lhs step.2) first

/-- Operators and their right operands. -/
def moreText (between : α → List Char) (more : List (α × Expr)) : List Char :=
  more.flatMap fun step => between step.1 ++ step.2.print

theorem moreText_cons (between : α → List Char) (op : α) (r : Expr) (more : List (α × Expr))
    (rest : List Char) : moreText between ((op, r) :: more) ++ rest =
      between op ++ (r.print ++ (moreText between more ++ rest)) := by
  simp [moreText]

include level

theorem print_joinAll (first : Expr) (more : List (α × Expr)) :
    (joinAll join first more).print = first.print ++ moreText between more := by
  induction more generalizing first with
  | nil => exact (List.append_nil _).symm
  | cons step more ih =>
    refine (ih (join step.1 first step.2)).trans ?_
    rw [level.print]
    simp [moreText]

theorem startsNil_joinAll (first : Expr) (more : List (α × Expr)) :
    (joinAll join first more).startsNil = first.startsNil := by
  induction more generalizing first with
  | nil => rfl
  | cons step more ih => exact (ih _).trans (level.startsNil _ _ _)

theorem endsOn_joinAll {first first' : Expr} (same : first.endsOn = first'.endsOn)
    (more : List (α × Expr)) :
    (joinAll join first more).endsOn = (joinAll join first' more).endsOn := by
  induction more generalizing first first' with
  | nil => exact same
  | cons step more ih =>
    exact ih ((level.endsOn step.1 first step.2).trans (level.endsOn step.1 first' step.2).symm)

theorem everywhere_first {first : Expr} {more : List (α × Expr)}
    (faithful : (joinAll join first more).Everywhere Expr.Faithful) :
    first.Everywhere Expr.Faithful := by
  induction more generalizing first with
  | nil => exact faithful
  | cons step more ih => exact ((level.everywhere _ _ _).mp (ih faithful)).2.1

/-- The first operand may be replaced by one with the same end. -/
theorem everywhere_replace {first first' : Expr} {more : List (α × Expr)}
    (same : first.endsOn = first'.endsOn) (other : first'.Everywhere Expr.Faithful)
    (faithful : (joinAll join first more).Everywhere Expr.Faithful) :
    (joinAll join first' more).Everywhere Expr.Faithful := by
  induction more generalizing first first' with
  | nil => exact other
  | cons step more ih =>
    obtain ⟨here, -, right⟩ := (level.everywhere _ _ _).mp (level.everywhere_first faithful)
    refine ih ((level.endsOn step.1 first step.2).trans (level.endsOn step.1 first' step.2).symm)
      ((level.everywhere _ _ _).mpr ⟨level.faithful _ _ same here, other, right⟩) faithful

/-- Behind an operand, the operators and operands that followed it are read back. -/
theorem reads_more (nested : ReadsBackBelow operand bound) {first : Expr} {left : List Char}
    {more : List (α × Expr)} (short : left.length < bound)
    (read : many (operation operand operator) left = .accepted more rest)
    (faithful : (joinAll join first more).Everywhere Expr.Faithful)
    (ends : Ends (joinAll join first more) rest rest') :
    Ends first left (moreText between more ++ rest') ∧
      many (operation operand operator) (moreText between more ++ rest') = .accepted more
        rest' := by
  have advances : (operation operand operator).Advances :=
    level.operates.bind fun _ => level.advances.shrinks.bind fun _ => shrinks_pure _
  induction more generalizing first left with
  | nil =>
    obtain ⟨refused, rfl⟩ := advances.many_eq_nil_iff.mp read
    refine ⟨ends, many_of_not_accepts fun accepts => refused ?_⟩
    exact (accepts_operation_iff level.starts).mpr
      (level.stops ends.toStops ((accepts_operation_iff level.starts).mp accepts))
  | cons step more ih =>
    obtain ⟨op, r⟩ := step
    obtain ⟨middle, here, later⟩ := advances.many_eq_cons_iff.mp read
    obtain ⟨source, operated, right⟩ := operation_eq_iff.mp here
    have step := (level.operates _ _ _ operated).2
    have step' := (level.advances _ _ _ right).2
    obtain ⟨joined, -, inRight⟩ := (level.everywhere _ _ _).mp (level.everywhere_first faithful)
    have same : (join op first r).endsOn = r.endsOn := level.endsOn op first r
    have faithful' : (joinAll join r more).Everywhere Expr.Faithful :=
      level.everywhere_replace same inRight faithful
    obtain ⟨endsRight, more'⟩ := ih (by omega) later faithful'
      (ends.of_eq fun on => (level.endsOn_joinAll same more).trans on)
    have again := nested _ _ _ (by omega) right inRight _ endsRight
    obtain ⟨endsFirst, operator'⟩ := level.reads operated
      ((level.starts _).mp (accepts_of_eq right)) again.start joined
    rw [moreText_cons]
    exact ⟨endsFirst, advances.many_eq_cons_iff.mpr ⟨_, operation_eq_iff.mpr
      ⟨_, operator', again.accepted⟩, more'⟩⟩

/-- Joined operands read back if the operands do. -/
theorem readsBack (nested : ReadsBackBelow operand bound) :
    ReadsBackBelow (joined operand operator join) bound := by
  intro cs e rest short read faithful rest' ends
  obtain ⟨first, left, more, operand', more', rfl⟩ := joined_eq_iff.mp read
  have step := (level.advances _ _ _ operand').2
  obtain ⟨endsFirst, again'⟩ := level.reads_more nested (by omega) more' faithful ends
  have again := nested _ _ _ short operand' (level.everywhere_first faithful) _ endsFirst
  have text : (joinAll join first more).print ++ rest' =
      first.print ++ (moreText between more ++ rest') := by
    rw [level.print_joinAll, List.append_assoc]
  constructor
  · change joined operand operator join ((joinAll join first more).print ++ rest') = _
    rw [text]
    exact joined_eq_iff.mpr ⟨first, _, more, again.accepted, again', rfl⟩
  · change SameStart cs (joinAll join first more) ((joinAll join first more).print ++ rest')
    rw [text]
    exact again.start.of_startsNil fun literal =>
      (level.startsNil_joinAll first more).trans literal

end Level

/-! ### The operators -/

/-- A binary operator between spaces. -/
def infixText (symbol : String) : List Char := ' ' :: (symbol.toList ++ [' '])

theorem infixText_append (symbol : String) (P : List Char) :
    infixText symbol ++ P = ' ' :: (symbol.toList ++ ' ' :: P) := by
  simp [infixText]

theorem infixed_eq (l r : List Char) (symbol : String) :
    Expr.infixed l symbol r = l ++ (infixText symbol ++ r) := by
  rw [infixText_append]
  rfl

/-- An expression stops before the operator that continued it. -/
theorem ends_symbol {l : Expr} {symbol : String} {P : List Char} (sign : Symbol rest symbol.toList)
    (isOpen : opens P = true) : Ends l rest (infixText symbol ++ P) := by
  rw [infixText_append]
  exact ⟨stops_symbol sign isOpen, fun _ accepts =>
    absurd accepts (not_accepts_namePart_symbol sign isOpen)⟩

/-- An operator is read between its spaces. -/
theorem spaced_infixText {α : Type} {p : Parser α} {value : α} {symbol : String} {P : List Char}
    (solid : ∃ c left, symbol.toList = c :: left ∧ Blank.isSpacing c = false)
    (read : p (symbol.toList ++ ' ' :: P) = .accepted value (' ' :: P)) (unspaced : Unspaced P) :
    spaced p (infixText symbol ++ P) = .accepted value P := by
  obtain ⟨c, left, chars, solid⟩ := solid
  rw [infixText_append]
  refine spaced_eq_iff.mpr ⟨' ' :: P, ?_, ?_⟩
  · have skip : (' ' :: (symbol.toList ++ ' ' :: P)).dropWhile Blank.isSpacing =
        symbol.toList ++ ' ' :: P := by
      rw [List.dropWhile_cons_of_pos rfl, chars]
      exact unspaced_cons solid _
    rw [skip]
    exact read
  · rw [List.dropWhile_cons_of_pos rfl, unspaced]

theorem level_product : Level full.operandRule productOp Expr.arithmetic fun op =>
    infixText op.symbol where
  starts _ := Iff.rfl
  advances := alike_self.operandRule.advances
  operates := advances_productOp
  print _ _ _ := infixed_eq ..
  endsOn _ _ _ := rfl
  startsNil _ _ _ := rfl
  everywhere _ _ _ := Iff.rfl
  faithful _ _ _ _ _ _ := trivial
  reads := by
    intro op l r rest cs P read accepts start _
    have follows := accepts_follow_iff.mpr ⟨op, cs, read, accepts⟩
    obtain ⟨c, left, -, sign, -⟩ := productOp_head read
    rcases sign with ⟨-, rfl⟩ | ⟨-, rfl⟩ | ⟨-, rfl⟩
    · exact ⟨ends_symbol (.product '*' (by decide) follows) start.opens,
        spaced_infixText ⟨'*', [], rfl, rfl⟩ rfl start.unspaced⟩
    · exact ⟨ends_symbol (.product '/' (by decide) follows) start.opens,
        spaced_infixText ⟨'/', [], rfl, rfl⟩ rfl start.unspaced⟩
    · exact ⟨ends_symbol (.product '%' (by decide) follows) start.opens,
        spaced_infixText ⟨'%', [], rfl, rfl⟩ rfl start.unspaced⟩
  stops stops := stops.product

theorem level_sum : Level full.product sumOp Expr.arithmetic fun op => infixText op.symbol where
  starts _ := accepts_product_iff
  advances := alike_self.product.advances
  operates := advances_sumOp
  print _ _ _ := infixed_eq ..
  endsOn _ _ _ := rfl
  startsNil _ _ _ := rfl
  everywhere _ _ _ := Iff.rfl
  faithful _ _ _ _ _ _ := trivial
  reads := by
    intro op l r rest cs P read accepts start _
    have follows := accepts_follow_iff.mpr ⟨op, cs, read, accepts⟩
    obtain ⟨left, sign, -⟩ := sumOp_head read
    rcases sign with ⟨-, rfl⟩ | ⟨-, -, rfl⟩
    · exact ⟨ends_symbol (.sum '+' (by decide) follows) start.opens,
        spaced_infixText ⟨'+', [], rfl, rfl⟩ rfl start.unspaced⟩
    · exact ⟨ends_symbol (.sum '-' (by decide) follows) start.opens,
        spaced_infixText ⟨'-', [], rfl, rfl⟩ rfl start.unspaced⟩
  stops stops := stops.sum

theorem level_logical :
    Level full.comparison logicOp Expr.logical fun op => infixText op.symbol where
  starts _ := accepts_comparison_iff
  advances := alike_self.comparison.advances
  operates := advances_logicOp
  print _ _ _ := infixed_eq ..
  endsOn _ _ _ := rfl
  startsNil _ _ _ := rfl
  everywhere _ _ _ := Iff.rfl
  faithful _ _ _ _ _ _ := trivial
  reads := by
    intro op l r rest cs P read accepts start _
    have follows := accepts_follow_iff.mpr ⟨op, cs, read, accepts⟩
    refine ⟨ends_symbol (.logic op follows) start.opens, ?_⟩
    have last : spaces1 (' ' :: P) = .accepted () P := spaces1_space start.unspaced
    rw [infixText_append]
    cases op with
    | or =>
      exact bind_eq_iff.mpr ⟨(), '-' :: ("or".toList ++ ' ' :: P), spaces1_space
        (unspaced_cons rfl _),
        char_bind_eq_iff.mpr ⟨_, rfl, bind_eq_iff.mpr ⟨.or, ' ' :: P, choose_cons_eq_iff.mpr (.inl
          (map_eq_iff.mpr
            ⟨(), (keyword_eq_iff isName_or).mpr (isName_or.identifier_append rfl), rfl⟩)),
          bind_eq_iff.mpr ⟨(), P, last, rfl⟩⟩⟩⟩
    | and =>
      have word := isName_and.identifier_append (rfl : continuesName (' ' :: P) = false)
      have other :
        ¬((fun _ => LogicOp.or) <$> keyword "or").Accepts ("and".toList ++ ' ' :: P) := by
        rw [accepts_map_iff, accepts_keyword_iff isName_or]
        rintro ⟨_, or⟩
        exact absurd (Parsed.accepted.inj (word.symm.trans or)).1 (by decide)
      exact bind_eq_iff.mpr ⟨(), '-' :: ("and".toList ++ ' ' :: P), spaces1_space
        (unspaced_cons rfl _),
        char_bind_eq_iff.mpr ⟨_, rfl, bind_eq_iff.mpr ⟨.and, ' ' :: P, choose_cons_eq_iff.mpr (.inr
          ⟨other, map_eq_iff.mpr ⟨(), (keyword_eq_iff isName_and).mpr word, rfl⟩⟩),
          bind_eq_iff.mpr ⟨(), P, last, rfl⟩⟩⟩⟩
  stops stops := stops.logic

theorem level_concatenation :
    Level full.logical spaces1 (fun _ => Expr.concatenation) fun _ => [' '] where
  starts _ := accepts_logical_iff
  advances := alike_self.logical.advances
  operates := advances_spaces1
  print _ _ _ := rfl
  endsOn _ _ _ := rfl
  startsNil _ _ _ := rfl
  everywhere _ _ _ := Iff.rfl
  faithful _ _ _ _ same apart := by
    intro on
    exact apart (same.trans on)
  reads := by
    intro _ l r rest cs P read accepts start apart
    obtain ⟨o, left, left', source, printed, text, isNil, floats⟩ := start.operand
    refine ⟨⟨stops_juxtaposed floats read source printed text, fun on => ?_⟩,
      spaces1_space start.unspaced⟩
    refine accepts_namePart_juxtaposed ?_ read source printed text
    intro literal
    have not : r.startsNil = false := apart on
    rw [isNil literal] at not
    cases not
  stops stops := stops.juxtaposed

theorem level_fallback : Level full.conditionalRule (spaced (word "||".toList))
    (fun _ => Expr.fallback) fun _ => infixText "||" where
  starts _ := accepts_conditional_iff
  advances := alike_self.conditionalRule.advances
  operates := (advances_word (by decide)).spaced
  print _ _ _ := infixed_eq ..
  endsOn _ _ _ := rfl
  startsNil _ _ _ := rfl
  everywhere _ _ _ := Iff.rfl
  faithful _ _ _ _ _ _ := trivial
  reads := by
    intro _ l r rest cs P read accepts start _
    have follows := accepts_follow_iff.mpr ⟨(), cs, read, accepts⟩
    exact ⟨ends_symbol (.alternative follows) start.opens,
      spaced_infixText ⟨'|', ['|'], rfl, rfl⟩ (word_eq_iff.mpr rfl) start.unspaced⟩
  stops stops := stops.alternative

/-- A comparison reads back if its operands do. -/
theorem readsBack_comparison (nested : ReadsBackBelow full.sum bound) :
    ReadsBackBelow full.comparison bound := by
  intro cs e rest short read faithful rest' ends
  obtain ⟨lhs, left, first, form⟩ := comparison_eq_iff.mp read
  cases form with
  | alone refused =>
    have again := nested _ _ _ short first faithful rest' ends
    refine ⟨comparison_eq_iff.mpr ⟨e, rest', again.accepted, .alone fun accepts => refused ?_⟩,
      again.start⟩
    exact accepts_comparands_iff.mpr (ends.comparison (accepts_comparands_iff.mp accepts))
  | @compared op rhs _ compared =>
    obtain ⟨source, operated, right⟩ := operation_eq_iff.mp compared
    have step := (alike_self.sum.advances _ _ _ first).2
    have step' := (advances_comparisonOp _ _ _ operated).2
    obtain ⟨-, inLeft, inRight⟩ := faithful
    have again' := nested _ _ _ (by omega) right inRight rest' (ends.of_eq id)
    have follows :=
      accepts_follow_iff.mpr ⟨op, source, operated, accepts_sum_iff.mp (accepts_of_eq right)⟩
    have isOpen := again'.start.opens
    have again := nested _ _ _ short first inLeft _ (ends_symbol (.comparison op follows) isOpen)
    have operator : comparisonOp (infixText op.symbol ++ (rhs.print ++ rest')) =
        .accepted op (rhs.print ++ rest') := by
      cases op with
      | eq => exact spaced_infixText ⟨'=', ['='], rfl, rfl⟩ rfl again'.start.unspaced
      | ne => exact spaced_infixText ⟨'!', ['='], rfl, rfl⟩ rfl again'.start.unspaced
      | lt => exact spaced_infixText ⟨'<', [], rfl, rfl⟩ rfl again'.start.unspaced
      | le => exact spaced_infixText ⟨'<', ['='], rfl, rfl⟩ rfl again'.start.unspaced
      | gt => exact spaced_infixText ⟨'>', [], rfl, rfl⟩ rfl again'.start.unspaced
      | ge => exact spaced_infixText ⟨'>', ['='], rfl, rfl⟩ rfl again'.start.unspaced
    have text : (Expr.comparison op lhs rhs).print ++ rest' =
        lhs.print ++ (infixText op.symbol ++ (rhs.print ++ rest')) := by
      rw [Expr.print_comparison, infixed_eq, List.append_assoc, List.append_assoc]
    constructor
    · rw [text]
      exact comparison_eq_iff.mpr ⟨lhs, _, again.accepted,
        .compared (operation_eq_iff.mpr ⟨_, operator, again'.accepted⟩)⟩
    · rw [text]
      exact again.start.of_startsNil id

/-- A condition reads back if its operands and what is nested in it do. -/
theorem readsBack_conditional (conditions : ReadsBackBelow full.concatenation (bound + 1))
    (expressions : ReadsBackBelow full.expression bound)
    (alternatives : ReadsBackBelow full.conditionalRule bound) :
    ReadsBackBelow full.conditionalRule (bound + 1) := by
  intro cs e rest short read faithful rest' ends
  obtain ⟨condition, left, first, form⟩ := conditional_eq_iff.mp read
  cases form with
  | alone refused =>
    have again := conditions _ _ _ short first faithful rest' ends
    exact ⟨conditional_eq_iff.mpr ⟨e, rest', again.accepted,
      .alone fun accepts => refused (ends.condition accepts)⟩, again.start⟩
  | @branched onTrue onFalse _ branched =>
    obtain ⟨afterMark, beforeColon, afterColon, mark, readTrue, colon, readFalse⟩ :=
      branches_eq_iff.mp branched
    have shorter : afterMark.length < bound ∧ afterColon.length < bound := by
      have first' := (alike_self.concatenation.advances _ _ _ first).2
      have mark' := ((advances_char '?').spaced _ _ _ mark).2
      have true' := (advances_expression _ _ _ readTrue).2
      have colon' := ((advances_char ':').spaced _ _ _ colon).2
      omega
    obtain ⟨-, inCondition, inTrue, inFalse⟩ := faithful
    have againFalse := alternatives _ _ _ shorter.2 readFalse inFalse rest' (ends.of_eq id)
    have closed : Closed (infixText ":" ++ (onFalse.print ++ rest')) := by
      rw [infixText_append]
      exact ⟨by simp [Delimited], rfl⟩
    have againTrue := expressions _ _ _ shorter.1 readTrue inTrue _ (closed.ends onTrue beforeColon)
    have mark' : Symbol left "?".toList := .condition (accepts_of_eq branched)
    have again := conditions _ _ _ short first inCondition _
      (ends_symbol mark' againTrue.start.opens)
    have text : (Expr.conditional condition onTrue onFalse).print ++ rest' = condition.print ++
        (infixText "?" ++ (onTrue.print ++ (infixText ":" ++ (onFalse.print ++ rest')))) := by
      rw [Expr.print_conditional, infixed_eq, infixed_eq]
      simp only [List.append_assoc]
    constructor
    · rw [text]
      exact conditional_eq_iff.mpr ⟨condition, _, again.accepted, .branched (branches_eq_iff.mpr
        ⟨_, _, _, spaced_infixText ⟨'?', [], rfl, rfl⟩ rfl againTrue.start.unspaced,
          againTrue.accepted, spaced_infixText ⟨':', [], rfl, rfl⟩ rfl againFalse.start.unspaced,
          againFalse.accepted⟩)⟩
    · rw [text]
      exact again.start.of_startsNil id

/-! ### Expressions -/

/-- Whatever is read from a text shorter than the bound reads back from its printed form. -/
theorem readsBack_all (bound : Nat) : ReadsBackBelow full.expression bound ∧
    ReadsBackBelow full.conditionalRule bound ∧ ReadsBackBelow full.operandRule bound := by
  induction bound with
  | zero =>
    exact ⟨fun _ _ _ short => absurd short (Nat.not_lt_zero _),
      fun _ _ _ short => absurd short (Nat.not_lt_zero _),
      fun _ _ _ short => absurd short (Nat.not_lt_zero _)⟩
  | succ bound ih =>
    obtain ⟨expressions, conditionals, operands⟩ := ih
    have operand := readsBack_operand expressions operands
    have comparison := readsBack_comparison (level_sum.readsBack (level_product.readsBack operand))
    have concatenation := level_concatenation.readsBack (level_logical.readsBack comparison)
    have conditional := readsBack_conditional concatenation expressions conditionals
    refine ⟨?_, conditional, operand⟩
    rw [full_expression]
    exact level_fallback.readsBack conditional

/-- Every expression reads back from its printed form. -/
theorem readsBack_expression (read : full.expression cs = .accepted e rest)
    (faithful : e.Everywhere Expr.Faithful) (ends : Ends e rest rest') :
    Reprinted full.expression cs e rest' :=
  (readsBack_all (cs.length + 1)).1 cs e rest (Nat.lt_succ_self _) read faithful rest' ends

end Grammar

end Cascade
