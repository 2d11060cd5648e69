import Cascade.Proofs.OperandForms

/-!
# Where expressions stop

An expression stops where nothing that could continue it can be read. A printed expression stops at
the same place if what follows it in the printed text can be continued in no way in which what
followed it in the text it was read from could not.

## Main definitions

* `Grammar.follow`: an operand behind an operator.
* `Grammar.Stops`: what follows an expression in a printed text continues it in no new way.
* `Grammar.tailOf`: the operator that a text starts with.

## Main statements

* `Grammar.accepts_expression_iff`: a text starts with an expression if it starts with an operand.
* `Grammar.stops_of_closes`, `Grammar.stops_symbol`, `Grammar.stops_juxtaposed`: the texts that
  follow an expression in a printed one.
-/

namespace Cascade

namespace Grammar

open Cascade.Parser

/-! ### Levels -/

theorem accepts_joined_iff {α : Type} {operand : Parser Expr} {operator : Parser α}
    {join : α → Expr → Expr → Expr} {cs : List Char} :
    (joined operand operator join).Accepts cs ↔ operand.Accepts cs :=
  ⟨fun accepts => (accepts_bind_iff.mp accepts).imp fun _ ⟨_, first, _⟩ => ⟨_, first⟩,
    fun ⟨first, left, accepted⟩ => accepts_bind_iff.mpr ⟨first, left, accepted, _, _, rfl⟩⟩

theorem accepts_product_iff {cs : List Char} :
    full.product.Accepts cs ↔ full.operandRule.Accepts cs := accepts_joined_iff

theorem accepts_sum_iff {cs : List Char} : full.sum.Accepts cs ↔ full.operandRule.Accepts cs :=
  accepts_joined_iff.trans accepts_product_iff

/-- The right operand of a comparison. -/
def comparands : Parser (ComparisonOp × Expr) := do
  let op ← comparisonOp
  return (op, ← full.sum)

theorem accepts_comparison_iff {cs : List Char} :
    full.comparison.Accepts cs ↔ full.operandRule.Accepts cs := by
  refine Iff.trans accepts_bind_iff (Iff.trans ?_ accepts_sum_iff)
  constructor
  · rintro ⟨lhs, left, first, -⟩
    exact ⟨lhs, left, first⟩
  · rintro ⟨lhs, left, first⟩
    refine ⟨lhs, left, first, accepts_bind_iff.mpr ?_⟩
    obtain ⟨rest, left', accepted⟩ : (optional comparands).Accepts left := accepts_optional
    exact ⟨rest, left', accepted, by cases rest <;> exact ⟨_, _, rfl⟩⟩

theorem accepts_logical_iff {cs : List Char} :
    full.logical.Accepts cs ↔ full.operandRule.Accepts cs :=
  accepts_joined_iff.trans accepts_comparison_iff

theorem accepts_concatenation_iff {cs : List Char} :
    full.concatenation.Accepts cs ↔ full.operandRule.Accepts cs :=
  accepts_joined_iff.trans accepts_logical_iff

/-- The branches of a condition. -/
def branches : Parser (Expr × Expr) := do
  spaced (char '?')
  let onTrue ← full.expression
  spaced (char ':')
  return (onTrue, ← full.conditional)

theorem accepts_conditional_iff {cs : List Char} :
    full.conditionalRule.Accepts cs ↔ full.operandRule.Accepts cs := by
  refine Iff.trans accepts_bind_iff (Iff.trans ?_ accepts_concatenation_iff)
  constructor
  · rintro ⟨condition, left, first, -⟩
    exact ⟨condition, left, first⟩
  · rintro ⟨condition, left, first⟩
    refine ⟨condition, left, first, accepts_bind_iff.mpr ?_⟩
    obtain ⟨rest, left', accepted⟩ : (optional branches).Accepts left := accepts_optional
    exact ⟨rest, left', accepted, by cases rest <;> exact ⟨_, _, rfl⟩⟩

/-- A text starts with an expression if it starts with an operand. -/
theorem accepts_expression_iff {cs : List Char} :
    full.expression.Accepts cs ↔ full.operandRule.Accepts cs := by
  rw [full_expression]
  exact accepts_joined_iff.trans accepts_conditional_iff

/-! ### Operators and what they need -/

/-- An operand behind an operator. -/
def follow {α : Type} (operator : Parser α) : Parser Unit := do
  let _ ← operator
  let _ ← full.operandRule

theorem accepts_follow_iff {α : Type} {operator : Parser α} {cs : List Char} :
    (follow operator).Accepts cs ↔
      ∃ op rest, operator cs = .accepted op rest ∧ full.operandRule.Accepts rest := by
  refine Iff.trans accepts_bind_iff (exists_congr fun op => exists_congr fun rest =>
    and_congr_right fun _ => Iff.trans accepts_bind_iff ?_)
  exact ⟨fun ⟨o, left, accepted, _⟩ => ⟨o, left, accepted⟩,
    fun ⟨o, left, accepted⟩ => ⟨o, left, accepted, accepts_pure⟩⟩

theorem spaced_eq_iff {α : Type} {p : Parser α} {cs rest : List Char} {value : α} :
    spaced p cs = .accepted value rest ↔ ∃ left,
      p (cs.dropWhile Blank.isSpacing) = .accepted value left ∧
        rest = left.dropWhile Blank.isSpacing := by
  refine Iff.trans spaces_bind_eq_iff (Iff.trans bind_eq_iff ?_)
  constructor
  · rintro ⟨value, left, accepted, later⟩
    cases spaces_bind_eq_iff.mp later
    exact ⟨left, accepted, rfl⟩
  · rintro ⟨left, accepted, rfl⟩
    exact ⟨value, left, accepted, spaces_bind_eq_iff.mpr rfl⟩

/-- What follows an expression in a printed text delimits it and continues it in no way in which
what followed it in the text it was read from did not. -/
structure Stops (rest rest' : List Char) : Prop where
  delimited : Delimited rest'
  product : (follow productOp).Accepts rest' → (follow productOp).Accepts rest
  sum : (follow sumOp).Accepts rest' → (follow sumOp).Accepts rest
  comparison : (follow comparisonOp).Accepts rest' → (follow comparisonOp).Accepts rest
  logic : (follow logicOp).Accepts rest' → (follow logicOp).Accepts rest
  juxtaposed : (follow spaces1).Accepts rest' → (follow spaces1).Accepts rest
  condition : branches.Accepts rest' → branches.Accepts rest
  alternative : (follow (spaced (word "||".toList))).Accepts rest' →
    (follow (spaced (word "||".toList))).Accepts rest
  annotated : (follow spaces).Accepts rest' → (follow spaces).Accepts rest
  path : pathPart.Accepts rest' → pathPart.Accepts rest

section

variable {cs : List Char}

theorem productOp_head {op : ArithmeticOp} {rest : List Char}
    (accepted : productOp cs = .accepted op rest) : ∃ c left,
      cs.dropWhile Blank.isSpacing = c :: left ∧
      (c = '*' ∧ op = .mul ∨ c = '/' ∧ op = .div ∨ c = '%' ∧ op = .mod) ∧
      rest = left.dropWhile Blank.isSpacing := by
  obtain ⟨left, chosen, rfl⟩ := spaced_eq_iff.mp accepted
  rcases choose_cons_eq_iff.mp chosen with found | ⟨-, chosen⟩
  · obtain ⟨_, head, rfl⟩ := map_eq_iff.mp found
    exact ⟨'*', left, char_eq_iff.mp head, .inl ⟨rfl, rfl⟩, rfl⟩
  rcases choose_cons_eq_iff.mp chosen with found | ⟨-, chosen⟩
  · obtain ⟨_, head, rfl⟩ := map_eq_iff.mp found
    exact ⟨'/', left, char_eq_iff.mp head, .inr (.inl ⟨rfl, rfl⟩), rfl⟩
  · obtain ⟨_, head, rfl⟩ := map_eq_iff.mp chosen
    exact ⟨'%', left, char_eq_iff.mp head, .inr (.inr ⟨rfl, rfl⟩), rfl⟩

theorem sumOp_head {op : ArithmeticOp} {rest : List Char}
    (accepted : sumOp cs = .accepted op rest) :
    ∃ left, (cs.dropWhile Blank.isSpacing = '+' :: left ∧ op = .add ∨
        cs.dropWhile Blank.isSpacing = '-' :: left ∧ ¬logicWord.Accepts left ∧ op = .sub) ∧
      rest = left.dropWhile Blank.isSpacing := by
  obtain ⟨left, chosen, rfl⟩ := spaced_eq_iff.mp accepted
  rcases choose_cons_eq_iff.mp chosen with found | ⟨-, chosen⟩
  · obtain ⟨_, head, rfl⟩ := map_eq_iff.mp found
    exact ⟨left, .inl ⟨char_eq_iff.mp head, rfl⟩, rfl⟩
  · obtain ⟨left', head, later⟩ := char_bind_eq_iff.mp chosen
    obtain ⟨_, _, unworded, last⟩ := bind_eq_iff.mp later
    obtain ⟨refused, rfl⟩ := notFollowedBy_eq_iff.mp unworded
    cases last
    exact ⟨_, .inr ⟨head, refused, rfl⟩, rfl⟩

theorem comparisonOp_head {op : ComparisonOp} {rest : List Char}
    (accepted : comparisonOp cs = .accepted op rest) : ∃ left,
      cs.dropWhile Blank.isSpacing = op.symbol.toList ++ left ∧
        rest = left.dropWhile Blank.isSpacing := by
  obtain ⟨left, chosen, rfl⟩ := spaced_eq_iff.mp accepted
  refine ⟨left, ?_, rfl⟩
  rcases choose_cons_eq_iff.mp chosen with found | ⟨-, chosen⟩
  · obtain ⟨_, head, rfl⟩ := map_eq_iff.mp found
    exact word_eq_iff.mp head
  rcases choose_cons_eq_iff.mp chosen with found | ⟨-, chosen⟩
  · obtain ⟨_, head, rfl⟩ := map_eq_iff.mp found
    exact word_eq_iff.mp head
  rcases choose_cons_eq_iff.mp chosen with found | ⟨-, chosen⟩
  · obtain ⟨_, head, rfl⟩ := map_eq_iff.mp found
    exact word_eq_iff.mp head
  rcases choose_cons_eq_iff.mp chosen with found | ⟨-, chosen⟩
  · obtain ⟨_, head, rfl⟩ := map_eq_iff.mp found
    exact word_eq_iff.mp head
  rcases choose_cons_eq_iff.mp chosen with found | ⟨-, chosen⟩
  · obtain ⟨_, head, rfl⟩ := map_eq_iff.mp found
    exact char_eq_iff.mp head
  · obtain ⟨_, head, rfl⟩ := map_eq_iff.mp chosen
    exact char_eq_iff.mp head

theorem logicWord_head {op : LogicOp} {rest : List Char}
    (accepted : logicWord cs = .accepted op rest) :
    identifier cs = .accepted (match op with | .or => "or" | .and => "and") rest := by
  rcases choose_cons_eq_iff.mp accepted with found | ⟨-, chosen⟩
  · obtain ⟨_, head, rfl⟩ := map_eq_iff.mp found
    exact (keyword_eq_iff isName_or).mp head
  · obtain ⟨_, head, rfl⟩ := map_eq_iff.mp chosen
    exact (keyword_eq_iff isName_and).mp head

theorem spaces1_eq {rest : List Char} {u : Unit} (accepted : spaces1 cs = .accepted u rest) :
    rest = cs.dropWhile Blank.isSpacing := by
  obtain ⟨c, left, rfl, spacing, rfl⟩ := spaces1_eq_iff.mp accepted
  rw [List.dropWhile_cons_of_pos spacing]

theorem logicOp_head {op : LogicOp} {rest : List Char} (accepted : logicOp cs = .accepted op rest) :
    ∃ left left', cs.dropWhile Blank.isSpacing = '-' :: left ∧ logicWord left = .accepted op left' ∧
      spaces1 left' = .accepted () rest := by
  obtain ⟨_, left, spacing, later⟩ := bind_eq_iff.mp accepted
  obtain ⟨left', head, later'⟩ := char_bind_eq_iff.mp later
  obtain ⟨op', left'', word, last⟩ := bind_eq_iff.mp later'
  obtain ⟨_, rest', spacing', same⟩ := bind_eq_iff.mp last
  cases same
  rw [← spaces1_eq spacing]
  exact ⟨left', left'', head, word, spacing'⟩

end

/-- The operators that may continue an expression. -/
inductive Tail where
  | product
  | sum
  | comparison
  | logic
  | condition
  | alternative

/-- The expression is continued behind the operator. -/
def Tail.Accepts (cs : List Char) : Tail → Prop
  | .product => (follow productOp).Accepts cs
  | .sum => (follow sumOp).Accepts cs
  | .comparison => (follow comparisonOp).Accepts cs
  | .logic => (follow logicOp).Accepts cs
  | .condition => branches.Accepts cs
  | .alternative => (follow (spaced (word "||".toList))).Accepts cs

/-- The text starts with the word of a logical operator. -/
def startsLogic (cs : List Char) : Bool :=
  nameAt cs == some "or" || nameAt cs == some "and"

/-- The operator that a text starts with, spacing before it left out. -/
def tailOf : List Char → Option Tail
  | '*' :: _ => some .product
  | '/' :: _ => some .product
  | '%' :: _ => some .product
  | '+' :: _ => some .sum
  | '-' :: rest => some (if startsLogic rest then .logic else .sum)
  | '=' :: '=' :: _ => some .comparison
  | '!' :: '=' :: _ => some .comparison
  | '<' :: _ => some .comparison
  | '>' :: _ => some .comparison
  | '?' :: _ => some .condition
  | '|' :: '|' :: _ => some .alternative
  | _ => none

theorem startsLogic_iff {cs : List Char} : startsLogic cs = true ↔ logicWord.Accepts cs := by
  unfold startsLogic logicWord
  rw [accepts_choose_iff]
  simp only [List.mem_cons, List.not_mem_nil, or_false, exists_eq_or_imp, exists_eq_left,
    accepts_map_iff, accepts_keyword_iff isName_or, accepts_keyword_iff isName_and, Bool.or_eq_true,
    beq_iff_eq, nameAt_eq_some_iff]

theorem tailOf_eq {t : Tail} {cs : List Char} (accepts : t.Accepts cs) :
    tailOf (cs.dropWhile Blank.isSpacing) = some t := by
  cases t with
  | product =>
    obtain ⟨op, rest, accepted, -⟩ := accepts_follow_iff.mp accepts
    obtain ⟨c, left, same, ⟨rfl, -⟩ | ⟨rfl, -⟩ | ⟨rfl, -⟩, -⟩ := productOp_head accepted <;>
      rw [same] <;> rfl
  | sum =>
    obtain ⟨op, rest, accepted, -⟩ := accepts_follow_iff.mp accepts
    obtain ⟨left, ⟨same, -⟩ | ⟨same, refused, -⟩, -⟩ := sumOp_head accepted
    · rw [same]
      rfl
    · rw [same, tailOf, if_neg fun logic => refused (startsLogic_iff.mp logic)]
  | comparison =>
    obtain ⟨op, rest, accepted, -⟩ := accepts_follow_iff.mp accepts
    obtain ⟨left, same, -⟩ := comparisonOp_head accepted
    rw [same]
    cases op <;> rfl
  | logic =>
    obtain ⟨op, rest, accepted, -⟩ := accepts_follow_iff.mp accepts
    obtain ⟨left, left', same, word, -⟩ := logicOp_head accepted
    rw [same, tailOf, if_pos (startsLogic_iff.mpr ⟨op, left', word⟩)]
  | condition =>
    obtain ⟨_, rest, accepted, -⟩ := accepts_bind_iff.mp accepts
    obtain ⟨left, head, -⟩ := spaced_eq_iff.mp accepted
    rw [char_eq_iff.mp head]
    rfl
  | alternative =>
    obtain ⟨_, rest, accepted, -⟩ := accepts_follow_iff.mp accepts
    obtain ⟨left, head, -⟩ := spaced_eq_iff.mp accepted
    rw [word_eq_iff.mp head]
    rfl

/-- A text continues an expression by the operator it starts with, by another operand, or by what a
merge form may end with. -/
theorem stops_of_tailOf {rest rest' : List Char} (delimited : Delimited rest')
    (operator : ∀ t : Tail, tailOf (rest'.dropWhile Blank.isSpacing) = some t →
      t.Accepts rest' → t.Accepts rest)
    (juxtaposed : (follow spaces1).Accepts rest' → (follow spaces1).Accepts rest)
    (annotated : (follow spaces).Accepts rest' → (follow spaces).Accepts rest)
    (path : pathPart.Accepts rest' → pathPart.Accepts rest) : Stops rest rest' where
  delimited := delimited
  product accepts := operator .product (tailOf_eq accepts) accepts
  sum accepts := operator .sum (tailOf_eq accepts) accepts
  comparison accepts := operator .comparison (tailOf_eq accepts) accepts
  logic accepts := operator .logic (tailOf_eq accepts) accepts
  condition accepts := operator .condition (tailOf_eq accepts) accepts
  alternative accepts := operator .alternative (tailOf_eq accepts) accepts
  juxtaposed := juxtaposed
  annotated := annotated
  path := path

theorem accepts_follow_spaces_iff {cs : List Char} : (follow spaces).Accepts cs ↔
    full.operandRule.Accepts (cs.dropWhile Blank.isSpacing) := by
  refine Iff.trans accepts_follow_iff ⟨?_, fun accepts => ⟨(), _, rfl, accepts⟩⟩
  rintro ⟨_, _, ⟨⟩, accepts⟩
  exact accepts

theorem accepts_of_follow_spaces1 {cs : List Char} (accepts : (follow spaces1).Accepts cs) :
    full.operandRule.Accepts (cs.dropWhile Blank.isSpacing) := by
  obtain ⟨_, rest, accepted, accepts⟩ := accepts_follow_iff.mp accepts
  rwa [spaces1_eq accepted] at accepts

theorem identifier_of_pathPart {cs : List Char} (accepts : pathPart.Accepts cs) :
    ∃ s, nameAt (cs.dropWhile Blank.isSpacing) = some s ∧ isKeyword s = false := by
  obtain ⟨first, left, accepted, allowed⟩ := accepts_pathPart_iff.mp accepts
  obtain ⟨_, middle, spacing, named⟩ := bind_eq_iff.mp accepted
  rw [spaces1_eq spacing] at named
  exact ⟨first, nameAt_of_identifier named, allowed⟩

theorem identifier_of_namePart {cs : List Char} (accepts : namePart.Accepts cs) :
    ∃ s, nameAt (cs.dropWhile Blank.isSpacing) = some s := by
  obtain ⟨first, left, accepted⟩ := accepts
  obtain ⟨_, middle, spacing, named⟩ := bind_eq_iff.mp accepted
  rw [spaces1_eq spacing] at named
  exact ⟨first, nameAt_of_identifier named⟩

/-! ### The ends of expressions -/

theorem separated_eq_iff {α β : Type} {p : Parser α} {separator : Parser β} {cs rest : List Char}
    {values : List α} : separated p separator cs = .accepted values rest ↔
      (¬p.Accepts cs ∧ values = [] ∧ rest = cs) ∨
      ∃ first more left, p cs = .accepted first left ∧
        many (do let _ ← separator; p) left = .accepted more rest ∧ values = first :: more := by
  refine Iff.trans bind_eq_iff ?_
  constructor
  · rintro ⟨first, left, read, later⟩
    cases first with
    | none =>
      obtain ⟨refused, rfl⟩ := optional_eq_none_iff.mp read
      cases later
      exact .inl ⟨refused, rfl, rfl⟩
    | some first =>
      obtain ⟨more, last, repeated, same⟩ := bind_eq_iff.mp later
      cases same
      exact .inr ⟨first, more, left, optional_eq_some_iff.mp read, repeated, rfl⟩
  · rintro (⟨refused, rfl, rfl⟩ | ⟨first, more, left, read, repeated, rfl⟩)
    · exact ⟨none, _, optional_eq_none_iff.mpr ⟨refused, rfl⟩, rfl⟩
    · exact ⟨some first, left, optional_eq_some_iff.mpr read, bind_eq_iff.mpr
        ⟨more, rest, repeated, rfl⟩⟩

/-- How operands that start with a sign go on. -/
inductive SignForm : Char → List Char → Expr → List Char → Prop
  | not {left o rest}
    (operand : full.operandRule (left.dropWhile Blank.isSpacing) = .accepted o rest) :
      SignForm '!' left (.not o) rest
  | substitution {left o rest} (operand : full.operandRule left = .accepted o rest) :
      SignForm '*' left (.substitution o) rest
  | marked {left e rest} (form : full.marked ('&' :: left) = .accepted e rest) :
      SignForm '&' left e rest
  | lambda {left params body rest} (form : LambdaForm left params body rest) :
      SignForm '|' left (.lambda ⟨params, body⟩) rest
  | negative {left e rest} (form : number true left = .accepted e rest) : SignForm '-' left e rest

theorem signForm_of_eq {c : Char} {left rest : List Char} {e : Expr}
    (sign : c ∈ ['!', '*', '&', '|', '-'])
    (accepted : full.operandRule (c :: left) = .accepted e rest) : SignForm c left e rest := by
  have signs : c = '!' ∨ c = '*' ∨ c = '&' ∨ c = '|' ∨ c = '-' := by simpa using sign
  have unnamed :
    ∀ {s : String} {left' : List Char}, identifier (c :: left) ≠ .accepted s left' := by
    intro s left' named
    rcases signs with rfl | rfl | rfl | rfl | rfl <;> cases named
  cases operandForm_of_eq accepted with
  | not head operand =>
    cases head
    exact .not operand
  | substitution head operand =>
    cases head
    exact .substitution operand
  | marked form =>
    obtain ⟨_, _, _, _, _, read, -⟩ := marked_eq_iff.mp form
    obtain ⟨_, ⟨⟩⟩ := accepts_marker_head (accepts_of_eq read)
    exact .marked form
  | merge form =>
    obtain ⟨_, _, _, _, _, _, -, word, -⟩ := mergeForm_eq_iff.mp form
    exact absurd word unnamed
  | auto word => exact absurd word unnamed
  | prefer word _ _ => exact absurd word unnamed
  | lambda form =>
    obtain ⟨word, left', params, body, read, inner, rfl⟩ := lambda_eq_iff.mp form
    cases word with
    | some word =>
      obtain ⟨_, _, word, -⟩ := bind_eq_iff.mp (optional_eq_some_iff.mp read)
      exact absurd ((keyword_eq_iff isName_lambda).mp word) unnamed
    | none =>
      obtain ⟨-, same⟩ := optional_eq_none_iff.mp read
      cases same
      exact .lambda inner
  | negative head form =>
    cases head
    exact .negative form
  | chain _ _ form =>
    obtain ⟨p, _, primary, -⟩ := chain_eq_iff.mp form
    have isOpen := opensPrimary_of_accepts (accepts_of_eq primary)
    rcases signs with rfl | rfl | rfl | rfl | rfl <;> cases isOpen

/-- Without parameters the second bar follows the first one. -/
theorem lambdaForm_cons {c : Char} {left rest : List Char} {params : List Parameter} {body : Expr}
    (other : Expr.isNameStart c = false) (solid : Blank.isSpacing c = false)
    (form : LambdaForm (c :: left) params body rest) :
    c = '|' ∧ ∃ left', left.dropWhile Blank.isSpacing = '-' :: '>' :: left' := by
  obtain ⟨left₁, left₂, left₃, read, bar, arrow, -⟩ := form
  have unspaced := unspaced_cons solid left
  rw [unspaced] at read
  rcases separated_eq_iff.mp read with ⟨-, -, rfl⟩ | ⟨first, more, _, parameter, -⟩
  · rw [unspaced] at bar
    cases bar
    exact ⟨rfl, left₃, arrow⟩
  · obtain ⟨name, _, named, -⟩ := bind_eq_iff.mp parameter
    obtain ⟨_, _, ⟨⟩, start⟩ := accepts_identifier_iff.mp (accepts_of_eq named)
    rw [other] at start
    cases start

/-- No expression goes on here. -/
def closes : List Char → Bool
  | [] => true
  | '|' :: rest => rest.head? == some '-'
  | '.' :: rest => rest.head? == some '.'
  | c :: _ => [',', ']', ')', '}', ':'].contains c

theorem closes_iff {cs : List Char} :
    closes cs = true ↔ cs = [] ∨ (∃ rest, cs = '|' :: '-' :: rest) ∨
    (∃ rest, cs = '.' :: '.' :: rest) ∨
      ∃ c rest, cs = c :: rest ∧ c ∈ [',', ']', ')', '}', ':'] := by
  constructor
  · intro closed
    unfold closes at closed
    split at closed
    · exact .inl rfl
    · next rest =>
      cases rest with
      | nil => cases closed
      | cons c rest =>
        have same : c = '-' := by simpa using closed
        subst same
        exact .inr (.inl ⟨rest, rfl⟩)
    · next rest =>
      cases rest with
      | nil => cases closed
      | cons c rest =>
        have same : c = '.' := by simpa using closed
        subst same
        exact .inr (.inr (.inl ⟨rest, rfl⟩))
    · exact .inr (.inr (.inr ⟨_, _, rfl, List.contains_iff_mem.mp closed⟩))
  · rintro (rfl | ⟨rest, rfl⟩ | ⟨rest, rfl⟩ | ⟨c, rest, rfl, member⟩)
    · rfl
    · rfl
    · rfl
    · simp only [List.mem_cons, List.not_mem_nil, or_false] at member
      rcases member with rfl | rfl | rfl | rfl | rfl <;> rfl

theorem closes_facts {cs : List Char} (closed : closes cs = true) :
    tailOf cs = none ∧ ¬full.operandRule.Accepts cs ∧ nameAt cs = none := by
  rcases closes_iff.mp closed with rfl | ⟨rest, rfl⟩ | ⟨rest, rfl⟩ | ⟨c, rest, rfl, member⟩
  · refine ⟨rfl, fun accepts => ?_, rfl⟩
    cases opens_of_accepts accepts
  · refine ⟨rfl, fun accepts => ?_, nameAt_cons rfl _⟩
    obtain ⟨_, _, accepted⟩ := accepts
    cases signForm_of_eq (by decide) accepted with
    | lambda form => cases (lambdaForm_cons rfl rfl form).1
  · refine ⟨rfl, fun accepts => ?_, nameAt_cons rfl _⟩
    cases opens_of_accepts accepts
  · simp only [List.mem_cons, List.not_mem_nil, or_false] at member
    rcases member with rfl | rfl | rfl | rfl | rfl <;>
      exact ⟨rfl, fun accepts => (by cases opens_of_accepts accepts), nameAt_cons rfl _⟩

/-- An expression stops at its closing bracket, and wherever nothing continues it. -/
theorem stops_of_closes {rest rest' : List Char} (delimited : Delimited rest')
    (closed : closes (rest'.dropWhile Blank.isSpacing) = true) : Stops rest rest' := by
  obtain ⟨untailed, unopened, unnamed⟩ := closes_facts closed
  refine stops_of_tailOf delimited (fun t same => ?_) (fun accepts => ?_) (fun accepts => ?_)
    (fun accepts => ?_)
  · rw [untailed] at same
    cases same
  · exact absurd (accepts_of_follow_spaces1 accepts) unopened
  · exact absurd (accepts_follow_spaces_iff.mp accepts) unopened
  · obtain ⟨s, named, -⟩ := identifier_of_pathPart accepts
    rw [unnamed] at named
    cases named

/-- A binary operator, or the first sign of a condition, that continued the expression. -/
inductive Symbol (rest : List Char) : List Char → Prop
  | product (c : Char) (member : c ∈ ['*', '/', '%']) (accepts : (follow productOp).Accepts rest) :
      Symbol rest [c]
  | sum (c : Char) (member : c ∈ ['+', '-']) (accepts : (follow sumOp).Accepts rest) :
    Symbol rest [c]
  | comparison (op : ComparisonOp) (accepts : (follow comparisonOp).Accepts rest) :
      Symbol rest op.symbol.toList
  | logic (op : LogicOp) (accepts : (follow logicOp).Accepts rest) : Symbol rest op.symbol.toList
  | alternative (accepts : (follow (spaced (word "||".toList))).Accepts rest) :
      Symbol rest "||".toList
  | condition (accepts : branches.Accepts rest) : Symbol rest ['?']

theorem Symbol.facts {rest w P : List Char} (symbol : Symbol rest w) (isOpen : opens P = true) :
    (' ' :: (w ++ ' ' :: P)).dropWhile Blank.isSpacing = w ++ ' ' :: P ∧
      (∃ t, tailOf (w ++ ' ' :: P) = some t ∧ t.Accepts rest) ∧
      ¬full.operandRule.Accepts (w ++ ' ' :: P) ∧ nameAt (w ++ ' ' :: P) = none := by
  have closed : ∀ {cs : List Char}, opens cs = false → ¬full.operandRule.Accepts cs := by
    intro cs shut accepts
    rw [opens_of_accepts accepts] at shut
    cases shut
  cases symbol with
  | product c member accepts =>
    simp only [List.mem_cons, List.not_mem_nil, or_false] at member
    rcases member with rfl | rfl | rfl
    · refine ⟨rfl, ⟨.product, rfl, accepts⟩, ?_, nameAt_cons rfl _⟩
      rintro ⟨_, _, accepted⟩
      cases signForm_of_eq (by decide) accepted with
      | substitution operand => exact closed rfl (accepts_of_eq operand)
    · exact ⟨rfl, ⟨.product, rfl, accepts⟩, closed rfl, nameAt_cons rfl _⟩
    · exact ⟨rfl, ⟨.product, rfl, accepts⟩, closed rfl, nameAt_cons rfl _⟩
  | sum c member accepts =>
    simp only [List.mem_cons, List.not_mem_nil, or_false] at member
    rcases member with rfl | rfl
    · exact ⟨rfl, ⟨.sum, rfl, accepts⟩, closed rfl, nameAt_cons rfl _⟩
    · exact ⟨rfl, ⟨.sum, rfl, accepts⟩, closed rfl, nameAt_cons rfl _⟩
  | comparison op accepts =>
    cases op with
    | ne =>
      refine ⟨rfl, ⟨.comparison, rfl, accepts⟩, ?_, nameAt_cons rfl _⟩
      rintro ⟨o, left, accepted⟩
      change full.operandRule ('!' :: '=' :: ' ' :: P) = _ at accepted
      cases signForm_of_eq (by decide) accepted with
      | not operand => exact closed rfl (accepts_of_eq operand)
    | _ => exact ⟨rfl, ⟨.comparison, rfl, accepts⟩, closed rfl, nameAt_cons rfl _⟩
  | logic op accepts =>
    have words : ∀ {s : String}, IsName s → s = "or" ∨ s = "and" →
        tailOf ('-' :: (s.toList ++ ' ' :: P)) = some .logic := by
      intro s isName same
      have named : nameAt (s.toList ++ ' ' :: P) = some s :=
        nameAt_of_identifier (isName.identifier_append rfl)
      rw [tailOf, if_pos]
      rw [startsLogic, named]
      rcases same with rfl | rfl <;> rfl
    cases op with
    | or => exact ⟨rfl, ⟨.logic, words isName_or (.inl rfl), accepts⟩, closed rfl,
        nameAt_cons rfl _⟩
    | and => exact ⟨rfl, ⟨.logic, words isName_and (.inr rfl), accepts⟩, closed rfl,
        nameAt_cons rfl _⟩
  | alternative accepts =>
    refine ⟨rfl, ⟨.alternative, rfl, accepts⟩, ?_, nameAt_cons rfl _⟩
    rintro ⟨o, left, accepted⟩
    change full.operandRule ('|' :: '|' :: ' ' :: P) = _ at accepted
    cases signForm_of_eq (by decide) accepted with
    | lambda form =>
      obtain ⟨-, left', arrow⟩ := lambdaForm_cons rfl rfl form
      have solid : (' ' :: P).dropWhile Blank.isSpacing = P := unspaced_of_opens isOpen
      rw [solid] at arrow
      rw [arrow] at isOpen
      cases isOpen
  | condition accepts => exact ⟨rfl, ⟨.condition, rfl, accepts⟩, closed rfl, nameAt_cons rfl _⟩

/-- An expression stops before the operator that continued it. -/
theorem stops_symbol {rest w P : List Char} (symbol : Symbol rest w) (isOpen : opens P = true) :
    Stops rest (' ' :: (w ++ ' ' :: P)) := by
  obtain ⟨solid, ⟨t, tail, accepts⟩, unopened, unnamed⟩ := symbol.facts isOpen
  refine stops_of_tailOf (by simp [Delimited]) (fun t' same _ => ?_) (fun accepts' => ?_)
    (fun accepts' => ?_) (fun accepts' => ?_)
  · rw [solid, tail] at same
    cases same
    exact accepts
  · have accepts'' := accepts_of_follow_spaces1 accepts'
    rw [solid] at accepts''
    exact absurd accepts'' unopened
  · have accepts'' := accepts_follow_spaces_iff.mp accepts'
    rw [solid] at accepts''
    exact absurd accepts'' unopened
  · obtain ⟨s, named, -⟩ := identifier_of_pathPart accepts'
    rw [solid, unnamed] at named
    cases named

/-- No name follows the spacing before an operator. -/
theorem not_accepts_namePart_symbol {rest w P : List Char} (symbol : Symbol rest w)
    (isOpen : opens P = true) : ¬namePart.Accepts (' ' :: (w ++ ' ' :: P)) := by
  obtain ⟨solid, -, -, unnamed⟩ := symbol.facts isOpen
  intro accepts
  obtain ⟨s, named⟩ := identifier_of_namePart accepts
  rw [solid, unnamed] at named
  cases named

theorem not_accepts_namePart_of_closes {cs : List Char}
    (closed : closes (cs.dropWhile Blank.isSpacing) = true) : ¬namePart.Accepts cs := by
  intro accepts
  obtain ⟨s, named⟩ := identifier_of_namePart accepts
  rw [(closes_facts closed).2.2] at named
  cases named

/-! ### Operands side by side -/

theorem isLiteral_applyPostfix (e : Expr) (form : Postfix) :
    (applyPostfix e form).isLiteral = false := by
  cases form with
  | call args =>
    rcases applyPostfix_call e args with ⟨id, -, same⟩ | same <;> rw [same] <;> rfl
  | field name =>
    rcases applyPostfix_field e name with ⟨_, -, same⟩ | ⟨_, _, -, same⟩ | ⟨_, _, -, same⟩ |
      ⟨-, same⟩ <;>
      rw [same] <;> rfl
  | index index =>
    rcases applyPostfix_index e index with ⟨_, _, -, -, same⟩ | same <;> rw [same] <;> rfl
  | curry args => rfl
  | project => rfl
  | slice start stop => rfl

theorem isLiteral_foldl {e : Expr} (solid : e.isLiteral = false) (forms : List Postfix) :
    (forms.foldl applyPostfix e).isLiteral = false := by
  induction forms generalizing e with
  | nil => exact solid
  | cons form forms ih => exact ih (isLiteral_applyPostfix e form)

/-- A literal is an operand without postfix forms, unless it has a sign. -/
theorem literal_source {cs rest : List Char} {e : Expr} (literal : e.isLiteral = true)
    (accepted : full.operandRule cs = .accepted e rest) :
    PrimaryForm cs e rest ∨ ∃ left, cs = '-' :: left ∧ number true left = .accepted e rest := by
  cases operandForm_of_eq accepted with
  | not _ _ => cases literal
  | substitution _ _ => cases literal
  | marked form =>
    obtain ⟨_, _, _, _, _, -, -, -, rfl⟩ := marked_eq_iff.mp form
    cases literal
  | merge form =>
    obtain ⟨_, _, _, _, _, _, rfl, -⟩ := mergeForm_eq_iff.mp form
    cases literal
  | auto _ => cases literal
  | prefer _ _ _ => cases literal
  | lambda form =>
    obtain ⟨_, _, _, _, -, -, rfl⟩ := lambda_eq_iff.mp form
    cases literal
  | negative head form => exact .inr ⟨_, head, form⟩
  | chain _ _ form =>
    obtain ⟨p, left, primary, ⟨-, rfl, rfl⟩ | ⟨solid, forms, -, rfl⟩⟩ := chain_eq_iff.mp form
    · exact .inl (primaryForm_of_eq primary)
    · rw [isLiteral_foldl solid forms] at literal
      cases literal

theorem literal?_ne_nil (t : NumberText) (negative : Bool) : t.literal? negative ≠ some .nil := by
  intro literal
  rcases literal?_cases literal with ⟨-, -, -, same⟩ | ⟨-, _, _, same⟩ <;> cases same

theorem nil_source {cs rest : List Char} (accepted : full.operandRule cs = .accepted .nil rest) :
    identifier cs = .accepted "nil" rest ∨ ∃ left, cs = '~' :: left := by
  rcases literal_source rfl accepted with form | ⟨left, -, form⟩
  · cases form with
    | number form =>
      obtain ⟨t, -, literal⟩ := number_eq_iff.mp form
      exact absurd literal (literal?_ne_nil t false)
    | nil word => exact .inl word
    | tilde head => exact .inr ⟨_, head⟩
    | list form =>
      obtain ⟨left, -, listed⟩ := listLiteral_eq_iff.mp form
      cases listed
    | map form =>
      obtain ⟨_, _, _, -, -, -, ⟨⟩⟩ := mapLiteral_eq_iff.mp form
    | group form =>
      obtain ⟨_, _, _, -, -, -, ⟨⟩⟩ := group_eq_iff.mp form
    | mergeCall form =>
      obtain ⟨_, _, -, -, ⟨⟩⟩ := mergeCall_eq_iff.mp form
  · obtain ⟨t, -, literal⟩ := number_eq_iff.mp form
    exact absurd literal (literal?_ne_nil t true)

/-- A number literal. -/
def isNumber : Expr → Bool
  | .int _ => true
  | .float _ => true
  | _ => false

/-- What the number literals are read from. -/
theorem number_source {cs rest : List Char} {e : Expr} (numeric : isNumber e = true)
    (accepted : full.operandRule cs = .accepted e rest) :
    number false cs = .accepted e rest ∨
      ∃ left, cs = '-' :: left ∧ number true left = .accepted e rest := by
  have literal : e.isLiteral = true := by
    cases e <;> first | rfl | cases numeric
  refine (literal_source literal accepted).imp (fun form => ?_) id
  cases form with
  | number form => exact form
  | string _ => cases numeric
  | bool _ _ => cases numeric
  | nil _ => cases numeric
  | undefined _ => cases numeric
  | tilde _ => cases numeric
  | list form =>
    obtain ⟨left, -, listed⟩ := listLiteral_eq_iff.mp form
    cases listed <;> cases numeric
  | map form =>
    obtain ⟨_, _, _, -, -, -, rfl⟩ := mapLiteral_eq_iff.mp form
    cases numeric
  | group form =>
    obtain ⟨_, _, _, -, -, -, rfl⟩ := group_eq_iff.mp form
    cases numeric
  | mergeCall form =>
    obtain ⟨_, _, -, -, rfl⟩ := mergeCall_eq_iff.mp form
    cases numeric
  | reference _ _ => cases numeric

/-- A printed number that was read without a sign has none. -/
theorem number_print_head {cs rest : List Char} {e : Expr}
    (accepted : number false cs = .accepted e rest)
    (floats : ∀ x, e = .float x → ReadsBack x) :
    ∃ c left, e.print = c :: left ∧ c.isDigit = true := by
  obtain ⟨t, -, literal⟩ := number_eq_iff.mp accepted
  refine (literal?_cases literal).elim (fun int => ?_) (fun float => ?_)
  · obtain ⟨-, -, fits, same⟩ := int
    obtain ⟨c, left, chars, digit⟩ := toDigits_head (naturalOfDigits t.whole)
    have printed : e.print = Nat.toDigits 10 (naturalOfDigits t.whole) := by
      rw [same, Expr.print_int]
      exact print_unsigned _ fits
    exact ⟨c, left, printed.trans chars, digit⟩
  · obtain ⟨-, digits, scale, same⟩ := float
    obtain ⟨text, written, read⟩ :=
      (floats _ same).text (Binary64.isNegative_ofDecimal false digits scale)
    obtain ⟨c, left, rfl, digit⟩ := number_head (accepts_of_eq read)
    have printed : e.print = c :: left := by
      rw [same, Expr.print_float, written]
      rfl
    exact ⟨c, left, printed, digit⟩

/-- Whether a number fits without its sign does not depend on how it is written. -/
theorem accepts_number_of_negative {cs cs' rest rest' : List Char} {e : Expr}
    (first : number true cs = .accepted e rest) (unsigned : (number false).Accepts cs)
    (second : number true cs' = .accepted e rest') : (number false).Accepts cs' := by
  obtain ⟨t, read, literal⟩ := number_eq_iff.mp first
  obtain ⟨t', read', literal'⟩ := number_eq_iff.mp second
  suffices some : ∃ e', t'.literal? false = some e' by
    obtain ⟨e', same⟩ := some
    exact ⟨e', rest', number_eq_iff.mpr ⟨t', read', same⟩⟩
  rcases literal?_cases literal' with ⟨none, none', fits', same⟩ | ⟨some, -⟩
  · obtain ⟨e₀, rest₀, accepted⟩ := unsigned
    obtain ⟨t₀, read₀, literal₀⟩ := number_eq_iff.mp accepted
    obtain ⟨rfl, rfl⟩ := Parsed.accepted.inj (read.symm.trans read₀)
    subst same
    rcases literal?_cases literal with ⟨whole, whole', fits, same⟩ | ⟨-, _, _, ⟨⟩⟩
    have equal : naturalOfDigits t'.whole = naturalOfDigits t.whole := by
      have ints := congrArg Int64.toInt (Expr.int.inj same)
      rw [toInt_ofInt fits, toInt_ofInt fits'] at ints
      exact Int.ofNat_inj.mp (Int.neg_inj.mp ints)
    rcases literal?_cases literal₀ with ⟨-, -, fits₀, -⟩ | ⟨some | some, -⟩
    · unfold NumberText.literal?
      rw [none, none']
      simp only [equal]
      exact ⟨_, if_pos fits₀⟩
    · exact absurd whole some
    · exact absurd whole' some
  · unfold NumberText.literal?
    split
    · next none none' => exact absurd none' (by rcases some with some | some <;> contradiction)
    · exact ⟨_, rfl⟩

/-- An operand that starts with no sign or word of its own. -/
def isUnmarked : Expr → Bool
  | .not _ => false
  | .substitution _ => false
  | .marked _ _ => false
  | .merge _ => false
  | .auto => false
  | .prefer _ => false
  | .lambda _ => false
  | _ => true

theorem isUnmarked_applyPostfix (e : Expr) (form : Postfix) :
    isUnmarked (applyPostfix e form) = true := by
  cases form with
  | call args =>
    rcases applyPostfix_call e args with ⟨_, -, result⟩ | result <;> rw [result] <;> rfl
  | field name =>
    rcases applyPostfix_field e name with ⟨_, -, result⟩ | ⟨_, _, -, result⟩ | ⟨_, _, -, result⟩ |
      ⟨-, result⟩ <;> rw [result] <;> rfl
  | index index =>
    rcases applyPostfix_index e index with ⟨_, _, -, -, result⟩ | result <;> rw [result] <;> rfl
  | curry args => rfl
  | project => rfl
  | slice start stop => rfl

theorem isUnmarked_foldl {e : Expr} (unmarked : isUnmarked e = true) (forms : List Postfix) :
    isUnmarked (forms.foldl applyPostfix e) = true := by
  induction forms generalizing e with
  | nil => exact unmarked
  | cons form forms ih => exact ih (isUnmarked_applyPostfix e form)

theorem isUnmarked_number {negative : Bool} {cs rest : List Char} {e : Expr}
    (accepted : number negative cs = .accepted e rest) : isUnmarked e = true := by
  obtain ⟨t, -, literal⟩ := number_eq_iff.mp accepted
  rcases literal?_cases literal with ⟨-, -, -, rfl⟩ | ⟨-, _, _, rfl⟩ <;> rfl

theorem isUnmarked_primary {cs rest : List Char} {e : Expr}
    (accepted : full.primary cs = .accepted e rest) : isUnmarked e = true := by
  cases primaryForm_of_eq accepted with
  | number form => exact isUnmarked_number form
  | list form =>
    obtain ⟨_, -, listed⟩ := listLiteral_eq_iff.mp form
    cases listed <;> rfl
  | map form =>
    obtain ⟨_, _, _, -, -, -, rfl⟩ := mapLiteral_eq_iff.mp form
    rfl
  | group form =>
    obtain ⟨_, _, _, -, -, -, rfl⟩ := group_eq_iff.mp form
    rfl
  | mergeCall form =>
    obtain ⟨_, _, -, -, rfl⟩ := mergeCall_eq_iff.mp form
    rfl
  | _ => rfl

theorem isUnmarked_chain {cs rest : List Char} {e : Expr}
    (accepted : full.chain cs = .accepted e rest) : isUnmarked e = true := by
  obtain ⟨p, left, primary, ⟨-, rfl, -⟩ | ⟨-, forms, -, rfl⟩⟩ := chain_eq_iff.mp accepted
  · exact isUnmarked_primary primary
  · exact isUnmarked_foldl (isUnmarked_primary primary) forms

theorem substitution_source {cs rest : List Char} {o : Expr}
    (accepted : full.operandRule cs = .accepted (.substitution o) rest) :
    ∃ left, cs = '*' :: left ∧ full.operandRule left = .accepted o rest := by
  generalize same : Expr.substitution o = e at accepted
  cases operandForm_of_eq accepted with
  | not _ _ => cases same
  | substitution head operand =>
    cases same
    exact ⟨_, head, operand⟩
  | marked form =>
    obtain ⟨_, _, _, _, _, -, -, -, rfl⟩ := marked_eq_iff.mp form
    cases same
  | merge form =>
    obtain ⟨_, _, _, _, _, _, rfl, -⟩ := mergeForm_eq_iff.mp form
    cases same
  | auto _ => cases same
  | prefer _ _ _ => cases same
  | lambda form =>
    obtain ⟨_, _, _, _, -, -, rfl⟩ := lambda_eq_iff.mp form
    cases same
  | negative _ form =>
    subst same
    cases isUnmarked_number form
  | chain _ _ form =>
    subst same
    cases isUnmarked_chain form

/-- Markers are read from where they stand. -/
theorem marked_source {cs rest : List Char} {markers : List Marker} {inner : Option Expr}
    (accepted : full.operandRule cs = .accepted (.marked markers inner) rest) :
    marker.Accepts cs := by
  generalize same : Expr.marked markers inner = e at accepted
  cases operandForm_of_eq accepted with
  | not _ _ => cases same
  | substitution _ _ => cases same
  | marked form =>
    obtain ⟨_, _, _, _, _, read, -⟩ := marked_eq_iff.mp form
    exact accepts_of_eq read
  | merge form =>
    obtain ⟨_, _, _, _, _, _, rfl, -⟩ := mergeForm_eq_iff.mp form
    cases same
  | auto _ => cases same
  | prefer _ _ _ => cases same
  | lambda form =>
    obtain ⟨_, _, _, _, -, -, rfl⟩ := lambda_eq_iff.mp form
    cases same
  | negative _ form =>
    subst same
    cases isUnmarked_number form
  | chain _ _ form =>
    subst same
    cases isUnmarked_chain form

/-- Digits start an operand only as a number. -/
theorem accepts_number_of_operand {c : Char} {left : List Char} (digit : c.isDigit = true)
    (accepts : full.operandRule.Accepts (c :: left)) : (number false).Accepts (c :: left) := by
  obtain ⟨e, rest, accepted⟩ := accepts
  have unnamed := nameAt_digit digit left
  have unsigned : ∀ {d : Char} {left' : List Char}, d.isDigit = false → c :: left ≠ d :: left' := by
    rintro d left' other ⟨⟩
    rw [digit] at other
    cases other
  have nameless :
    ∀ {s : String} {left' : List Char}, identifier (c :: left) ≠ .accepted s left' := by
    intro s left' named
    rw [nameAt_of_identifier named] at unnamed
    cases unnamed
  cases operandForm_of_eq accepted with
  | not head _ => exact absurd head (unsigned (by decide))
  | substitution head _ => exact absurd head (unsigned (by decide))
  | marked form =>
    obtain ⟨_, _, _, _, _, read, -⟩ := marked_eq_iff.mp form
    obtain ⟨_, head⟩ := accepts_marker_head (accepts_of_eq read)
    exact absurd head (unsigned (by decide))
  | merge form =>
    obtain ⟨_, _, _, _, _, _, -, word, -⟩ := mergeForm_eq_iff.mp form
    exact absurd word nameless
  | auto word => exact absurd word nameless
  | prefer word _ _ => exact absurd word nameless
  | lambda form =>
    rcases lambda_head (accepts_of_eq form) with ⟨_, head⟩ | ⟨_, _, word, -⟩
    · exact absurd head (unsigned (by decide))
    · exact absurd word nameless
  | negative head _ => exact absurd head (unsigned (by decide))
  | chain _ _ form =>
    obtain ⟨p, middle, primary, -⟩ := chain_eq_iff.mp form
    cases primaryForm_of_eq primary with
    | number form => exact accepts_of_eq form
    | string form =>
      obtain ⟨_, head⟩ := head_of_accepts_char (accepts_of_eq form)
      exact absurd head (unsigned (by decide))
    | bool _ word => exact absurd word nameless
    | nil word => exact absurd word nameless
    | undefined text => exact absurd text (unsigned (by decide))
    | tilde head => exact absurd head (unsigned (by decide))
    | list form =>
      obtain ⟨_, head⟩ := head_of_accepts_char (accepts_of_eq form)
      exact absurd head (unsigned (by decide))
    | map form =>
      obtain ⟨_, head⟩ := head_of_accepts_char (accepts_of_eq form)
      exact absurd head (unsigned (by decide))
    | group form =>
      obtain ⟨_, head⟩ := head_of_accepts_char (accepts_of_eq form)
      exact absurd head (unsigned (by decide))
    | mergeCall form =>
      obtain ⟨_, word⟩ := identifier_mergeCall (accepts_of_eq form)
      exact absurd word nameless
    | reference _ form =>
      rcases reference_head (accepts_of_eq form) with ⟨_, _, word⟩ | ⟨_, head, -⟩
      · exact absurd word nameless
      · exact absurd head (unsigned (by decide))

theorem accepts_operand_of_number {cs : List Char} (accepts : (number false).Accepts cs) :
    full.operandRule.Accepts cs := by
  obtain ⟨e, rest, accepted⟩ := accepts
  refine accepts_choose_iff.mpr ⟨full.chain, by simp, accepts_bind_iff.mpr
    ⟨e, rest, choose_cons_eq_iff.mpr (.inl accepted), ?_⟩⟩
  obtain ⟨t, -, literal⟩ := number_eq_iff.mp accepted
  have isLiteral : e.isLiteral = true := by
    rcases literal?_cases literal with ⟨-, -, -, rfl⟩ | ⟨-, _, _, rfl⟩ <;> rfl
  rw [if_pos isLiteral]
  exact accepts_pure

section

variable {rest cs P left left' : List Char} {o : Expr}

/-- Two texts of one operand start with the same name, if one of them is printed. -/
theorem nameAt_of_printed (spelled : o ≠ .nil)
    (source : full.operandRule cs = .accepted o left)
    (printed : full.operandRule P = .accepted o left') (text : P = o.print ++ left') {s : String}
    (named : nameAt P = some s) : nameAt cs = some s := by
  have bars : ∀ l, o ≠ .lambda l := by
    rintro ⟨params, body⟩ rfl
    rw [text, Expr.print_lambda, List.cons_append, nameAt_cons rfl] at named
    cases named
  have leading : ∀ {cs left}, full.operandRule cs = .accepted o left → nameAt cs = o.leading := by
    intro cs left accepted
    rcases nameAt_operand accepted with same | same | ⟨l, same⟩
    · exact same
    · exact absurd same spelled
    · exact absurd same (bars l)
  rw [leading source, ← leading printed, named]

theorem nil_of_nameAt (printed : full.operandRule P = .accepted .nil left') {s : String}
    (named : nameAt P = some s) : s = "nil" := by
  rcases nil_source printed with word | ⟨left, rfl⟩
  · rw [nameAt_of_identifier word] at named
    exact (Option.some.inj named).symm
  · cases named

/-- An expression stops before an operand that stood beside it. -/
theorem stops_juxtaposed (floats : ∀ x, o = .float x → ReadsBack x)
    (spacing : spaces1 rest = .accepted () cs)
    (source : full.operandRule cs = .accepted o left)
    (printed : full.operandRule P = .accepted o left') (text : P = o.print ++ left') :
    Stops rest (' ' :: P) := by
  have isOpen := opens_of_accepts (accepts_of_eq printed)
  have solid : (' ' :: P).dropWhile Blank.isSpacing = P := unspaced_of_opens isOpen
  have start : rest.dropWhile Blank.isSpacing = cs := (spaces1_eq spacing).symm
  have closed : ∀ {cs : List Char}, opens cs = false → ¬full.operandRule.Accepts cs := by
    intro cs shut accepts
    rw [opens_of_accepts accepts] at shut
    cases shut
  refine stops_of_tailOf (by simp [Delimited]) (fun t _ accepts => ?_) (fun _ => ?_) (fun _ => ?_)
    (fun accepts => ?_)
  · cases t with
    | product =>
      obtain ⟨op, rest', accepted, -⟩ := accepts_follow_iff.mp accepts
      obtain ⟨c, D, same, sign, -⟩ := productOp_head accepted
      rw [solid] at same
      subst same
      rcases sign with ⟨rfl, -⟩ | ⟨rfl, -⟩ | ⟨rfl, -⟩
      · cases signForm_of_eq (by decide) printed with
        | substitution operand =>
          obtain ⟨D', rfl, operand'⟩ := substitution_source source
          have solid' := unspaced_of_opens (opens_of_accepts (accepts_of_eq operand'))
          refine accepts_follow_iff.mpr ⟨.mul, D', spaced_eq_iff.mpr ⟨D', ?_, solid'.symm⟩,
            accepts_of_eq operand'⟩
          rw [start]
          exact choose_cons_eq_iff.mpr (.inl (map_eq_iff.mpr ⟨(), char_eq_iff.mpr rfl, rfl⟩))
      · cases isOpen
      · cases isOpen
    | sum =>
      obtain ⟨op, rest', accepted, accepts'⟩ := accepts_follow_iff.mp accepts
      obtain ⟨D, ⟨same, -⟩ | ⟨same, -, -⟩, rfl⟩ := sumOp_head accepted
      · rw [solid] at same
        subst same
        cases isOpen
      · rw [solid] at same
        subst same
        cases signForm_of_eq (by decide) printed with
        | negative form =>
          obtain ⟨c, D', rfl, digit⟩ := number_head (accepts_of_eq form)
          have solid' : Unspaced (c :: D') :=
            unspaced_of_opens (opens_of_opensPrimary (opensPrimary_of_digit digit))
          rw [solid'] at accepts'
          have unsigned := accepts_number_of_operand digit accepts'
          have numeric : isNumber o = true := by
            obtain ⟨t, -, literal⟩ := number_eq_iff.mp form
            rcases literal?_cases literal with ⟨-, -, -, rfl⟩ | ⟨-, _, _, rfl⟩ <;> rfl
          rcases number_source numeric source with found | ⟨E, rfl, found⟩
          · obtain ⟨d, _, chars, digit'⟩ := number_print_head found floats
            rw [chars, List.cons_append] at text
            obtain ⟨rfl, -⟩ := List.cons.inj text
            cases digit'
          · have accepts'' := accepts_number_of_negative form unsigned found
            obtain ⟨d, E', rfl, digit'⟩ := number_head accepts''
            have solid'' : Unspaced (d :: E') :=
              unspaced_of_opens (opens_of_opensPrimary (opensPrimary_of_digit digit'))
            refine accepts_follow_iff.mpr ⟨.sub, d :: E', spaced_eq_iff.mpr
              ⟨d :: E', ?_, solid''.symm⟩, accepts_operand_of_number accepts''⟩
            rw [start]
            refine choose_cons_eq_iff.mpr (.inr ⟨?_, char_bind_eq_iff.mpr ⟨_, rfl, bind_eq_iff.mpr
              ⟨(), _, notFollowedBy_eq_iff.mpr ⟨fun logic => ?_, rfl⟩, rfl⟩⟩⟩)
            · rw [accepts_map_iff]
              rintro ⟨_, _, head⟩
              cases char_eq_iff.mp head
            · have word := startsLogic_iff.mpr logic
              rw [startsLogic, nameAt_digit digit'] at word
              cases word
    | comparison =>
      obtain ⟨op, rest', accepted, -⟩ := accepts_follow_iff.mp accepts
      obtain ⟨D, same, -⟩ := comparisonOp_head accepted
      rw [solid] at same
      subst same
      cases op with
      | ne =>
        change full.operandRule ('!' :: '=' :: D) = _ at printed
        cases signForm_of_eq (by decide) printed with
        | not operand => exact absurd (accepts_of_eq operand) (closed rfl)
      | _ => cases isOpen
    | logic =>
      obtain ⟨op, rest', accepted, -⟩ := accepts_follow_iff.mp accepts
      obtain ⟨D, D', same, word, -⟩ := logicOp_head accepted
      rw [solid] at same
      subst same
      obtain ⟨c, E, rfl, start'⟩ := accepts_identifier_iff.mp (accepts_of_eq (logicWord_head word))
      have undigited : Undigited [c] := undigited_of_isNameStart start'
      have digit : c.isDigit = true := isOpen
      rw [Undigited, List.takeWhile_cons_of_pos digit] at undigited
      cases undigited
    | condition =>
      obtain ⟨_, rest', accepted, -⟩ := accepts_bind_iff.mp accepts
      obtain ⟨D, head, -⟩ := spaced_eq_iff.mp accepted
      rw [solid] at head
      obtain rfl := char_eq_iff.mp head
      cases isOpen
    | alternative =>
      obtain ⟨_, rest', accepted, accepts'⟩ := accepts_follow_iff.mp accepts
      obtain ⟨D, head, rfl⟩ := spaced_eq_iff.mp accepted
      rw [solid] at head
      obtain rfl := word_eq_iff.mp head
      change full.operandRule ('|' :: '|' :: D) = _ at printed
      cases signForm_of_eq (by decide) printed with
      | lambda form =>
        obtain ⟨-, left', arrow⟩ := lambdaForm_cons rfl rfl form
        rw [arrow] at accepts'
        exact absurd accepts' (closed rfl)
  · exact accepts_follow_iff.mpr ⟨(), cs, spacing, accepts_of_eq source⟩
  · rw [accepts_follow_spaces_iff, start]
    exact accepts_of_eq source
  · obtain ⟨s, named, allowed⟩ := identifier_of_pathPart accepts
    rw [solid] at named
    have spelled : o ≠ .nil := by
      rintro rfl
      rw [nil_of_nameAt printed named] at allowed
      cases allowed
    obtain ⟨left'', word⟩ := nameAt_eq_some_iff.mp
      (nameAt_of_printed spelled source printed text named)
    exact accepts_pathPart_iff.mpr ⟨s, left'', bind_eq_iff.mpr ⟨(), cs, spacing, word⟩, allowed⟩

/-- A name follows only if one did, unless the operand is the literal that prints as a word. -/
theorem accepts_namePart_juxtaposed (spelled : o ≠ .nil) (spacing : spaces1 rest = .accepted () cs)
    (source : full.operandRule cs = .accepted o left)
    (printed : full.operandRule P = .accepted o left') (text : P = o.print ++ left')
    (accepts : namePart.Accepts (' ' :: P)) : namePart.Accepts rest := by
  have solid : (' ' :: P).dropWhile Blank.isSpacing = P :=
    unspaced_of_opens (opens_of_accepts (accepts_of_eq printed))
  obtain ⟨s, named⟩ := identifier_of_namePart accepts
  rw [solid] at named
  obtain ⟨left'', word⟩ :=
    nameAt_eq_some_iff.mp (nameAt_of_printed spelled source printed text named)
  exact ⟨s, left'', bind_eq_iff.mpr ⟨(), cs, spacing, word⟩⟩

end

end Grammar

end Cascade
