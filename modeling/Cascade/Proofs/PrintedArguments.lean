import Cascade.Proofs.Levels
import Cascade.Proofs.PrintedBrackets

/-!
# Reading printed arguments

A name or a number before an equals sign makes an argument a named or an indexed one. An expression
that was read as an argument of its own starts with no such sign, however it is printed.

## Main definitions

* `Grammar.Assigned`: the text starts with a single equals sign.
* `Grammar.namedArgument`, `Grammar.indexedArgument`, `Grammar.plainArgument`: the forms of
  arguments.

## Main statements

* `Grammar.reprint_arguments`: arguments read back from their printed form.
-/

namespace Cascade

namespace Grammar

open Cascade.Parser

variable {bound : Nat} {cs left rest rest' : List Char}

/-! ### Equals signs -/

/-- The text starts with a single equals sign, spacing before it left out. -/
def Assigned (cs : List Char) : Prop :=
  ∃ left, cs.dropWhile Blank.isSpacing = '=' :: left ∧ ∀ left', left ≠ '=' :: left'

theorem assignment_eq_iff {u : Unit} : assignment cs = .accepted u rest ↔ ∃ left,
    cs.dropWhile Blank.isSpacing = '=' :: left ∧ (∀ left', left ≠ '=' :: left') ∧
      rest = left.dropWhile Blank.isSpacing := by
  refine Iff.trans spaces_bind_eq_iff (Iff.trans char_bind_eq_iff (exists_congr fun left =>
    and_congr_right fun _ => Iff.trans bind_eq_iff ?_))
  constructor
  · rintro ⟨_, middle, single, later⟩
    obtain ⟨refused, rfl⟩ := notFollowedBy_eq_iff.mp single
    cases later
    exact ⟨fun left' same => refused ⟨(), left', char_eq_iff.mpr same⟩, rfl⟩
  · rintro ⟨single, rfl⟩
    refine ⟨(), left, notFollowedBy_eq_iff.mpr ⟨?_, rfl⟩, rfl⟩
    rintro ⟨_, left', second⟩
    exact single left' (char_eq_iff.mp second)

theorem assigned_of_accepts (accepts : assignment.Accepts cs) : Assigned cs := by
  obtain ⟨_, rest, accepted⟩ := accepts
  obtain ⟨left, head, single, -⟩ := assignment_eq_iff.mp accepted
  exact ⟨left, head, single⟩

namespace Assigned

variable (assigned : Assigned cs)

include assigned

theorem ne_cons {c : Char} (solid : Blank.isSpacing c = false) (other : c ≠ '=')
    (left : List Char) :
    cs ≠ c :: left := by
  rintro rfl
  obtain ⟨left', head, -⟩ := assigned
  rw [unspaced_cons solid] at head
  exact other (List.cons.inj head).1

theorem nameAt : nameAt (cs.dropWhile Blank.isSpacing) = none := by
  obtain ⟨left, head, -⟩ := assigned
  rw [head]
  exact nameAt_cons rfl _

theorem not_accepts_namePart : ¬namePart.Accepts cs := by
  intro accepts
  obtain ⟨s, named⟩ := identifier_of_namePart accepts
  rw [assigned.nameAt] at named
  cases named

theorem not_accepts_operand : ¬full.operandRule.Accepts (cs.dropWhile Blank.isSpacing) := by
  obtain ⟨left, head, -⟩ := assigned
  rw [head]
  intro accepts
  cases opens_of_accepts accepts

theorem tailOf : tailOf (cs.dropWhile Blank.isSpacing) = none := by
  obtain ⟨left, head, single⟩ := assigned
  rw [head]
  unfold Grammar.tailOf
  split <;> next same => first | rfl | (cases same <;> exact absurd rfl (single _))

theorem not_accepts_fieldStep : ¬fieldStep.Accepts cs := by
  intro accepts
  obtain ⟨left, head⟩ := head_of_accepts_char accepts
  exact assigned.ne_cons rfl (by decide) left head

theorem not_accepts_fractionPart : ¬fractionPart.Accepts cs := by
  intro accepts
  obtain ⟨left, head⟩ := head_of_accepts_char accepts
  exact assigned.ne_cons rfl (by decide) left head

theorem not_accepts_exponentPart : ¬exponentPart.Accepts cs := by
  intro accepts
  obtain ⟨c, left, letter, -⟩ := accepts_bind_iff.mp accepts
  obtain ⟨rfl, isLetter⟩ := satisfy_eq_iff.mp letter
  rcases Bool.or_eq_true_iff.mp isLetter with same | same <;> obtain rfl := eq_of_beq same <;>
    exact assigned.ne_cons rfl (by decide) left rfl

/-- An operand before the sign is a whole expression. -/
theorem expression {o : Expr} {text : List Char}
    (operand : full.operandRule text = .accepted o cs) :
    full.expression text = .accepted o cs := by
  refine expression_of_operand operand (fun t accepts => ?_) fun accepts =>
    assigned.not_accepts_operand (accepts_of_follow_spaces1 accepts)
  have tail := tailOf_eq accepts
  rw [assigned.tailOf] at tail
  cases tail

end Assigned

/-- No postfix form follows. -/
theorem not_accepts_postfixForm (unparen : ∀ left, cs ≠ '(' :: left)
    (uncurried : ∀ left, cs ≠ '*' :: '(' :: left) (unbracketed : ∀ left, cs ≠ '[' :: left)
    (unindexed : ∀ left, cs ≠ '.' :: '[' :: left) (stops : ¬fieldStep.Accepts cs) :
    ¬full.postfixForm.Accepts cs := by
  rintro ⟨form, rest, accepted⟩
  rcases choose_cons_eq_iff.mp accepted with found | ⟨-, accepted⟩
  · obtain ⟨_, read, -⟩ := map_eq_iff.mp found
    obtain ⟨left, _, head, -⟩ := arguments_eq_iff.mp read
    exact unparen left head
  rcases choose_cons_eq_iff.mp accepted with found | ⟨-, accepted⟩
  · obtain ⟨left, head, later⟩ := char_bind_eq_iff.mp found
    obtain ⟨_, read, -⟩ := map_eq_iff.mp later
    obtain ⟨left', _, rfl, -⟩ := arguments_eq_iff.mp read
    exact uncurried left' head
  rcases choose_cons_eq_iff.mp accepted with found | ⟨-, accepted⟩
  · obtain ⟨point, left, read, later⟩ := bind_eq_iff.mp found
    obtain ⟨left', rfl, -⟩ := char_bind_eq_iff.mp later
    cases point with
    | none =>
      obtain ⟨-, rfl⟩ := optional_eq_none_iff.mp read
      exact unbracketed left' rfl
    | some point => exact unindexed left' (char_eq_iff.mp (optional_eq_some_iff.mp read))
  · obtain ⟨name, read, -⟩ := map_eq_iff.mp accepted
    exact stops (accepts_of_eq read)

/-! ### Operands before an equals sign -/

theorem Assigned.not_accepts_postfixForm (assigned : Assigned cs) : ¬full.postfixForm.Accepts cs :=
  Grammar.not_accepts_postfixForm (assigned.ne_cons rfl (by decide))
    (fun left => assigned.ne_cons rfl (by decide) _) (assigned.ne_cons rfl (by decide))
    (fun left => assigned.ne_cons rfl (by decide) _) assigned.not_accepts_fieldStep

section

variable {s : String}

/-- The parser starts with the sign and not with a name. -/
theorem ne_of_identifier {c : Char} (named : identifier cs = .accepted s left)
    (other : Expr.isNameStart c = false) (left' : List Char) : cs ≠ c :: left' := by
  rintro rfl
  have unnamed := nameAt_cons other left'
  rw [nameAt_of_identifier named] at unnamed
  cases unnamed

theorem reference_of_assigned {r : Reference} (named : identifier cs = .accepted s left)
    (assigned : Assigned left) (form : reference cs = .accepted r rest) : rest = left := by
  obtain ⟨tag, middle, tagged, afterTag⟩ := bind_eq_iff.mp form
  cases tag with
  | some tag =>
    obtain ⟨_, after, read, later⟩ := bind_eq_iff.mp (optional_eq_some_iff.mp tagged)
    obtain ⟨-, -, name, left', named', follows⟩ := tagName_eq read
    obtain ⟨-, rfl⟩ := Parsed.accepted.inj (named.symm.trans named')
    obtain ⟨_, _, colons, -⟩ := bind_eq_iff.mp later
    obtain rfl := word_eq_iff.mp colons
    rcases follows with same | ⟨digits, -, -, same, -⟩
    · exact absurd same (assigned.ne_cons rfl (by decide) _)
    · exact absurd same (assigned.ne_cons rfl (by decide) _)
  | none =>
    obtain ⟨-, rfl⟩ := optional_eq_none_iff.mp tagged
    obtain ⟨point, left', pointed, afterPoint⟩ := bind_eq_iff.mp afterTag
    cases point with
    | some point =>
      exact absurd (char_eq_iff.mp (optional_eq_some_iff.mp pointed))
        (ne_of_identifier named (by decide) _)
    | none =>
      obtain ⟨-, rfl⟩ := optional_eq_none_iff.mp pointed
      obtain ⟨first, left'', named', later⟩ := bind_eq_iff.mp afterPoint
      obtain ⟨rfl, rfl⟩ := Parsed.accepted.inj (named.symm.trans named')
      by_cases refused :
        (none : Option String).isNone && !(none : Option Unit).isSome && isKeyword s
      · rw [if_pos refused] at later
        cases later
      · rw [if_neg refused] at later
        obtain ⟨path, last, steps, same⟩ := bind_eq_iff.mp later
        cases same
        rw [many_of_not_accepts assigned.not_accepts_fieldStep] at steps
        exact (Parsed.accepted.inj steps).2.symm

theorem primary_of_assigned {e : Expr} (named : identifier cs = .accepted s left)
    (assigned : Assigned left) (form : full.primary cs = .accepted e rest) : rest = left := by
  have word : ∀ {w : String}, identifier cs = .accepted w rest → rest = left := fun word =>
    (Parsed.accepted.inj (word.symm.trans named)).2
  cases primaryForm_of_eq form with
  | number form =>
    obtain ⟨c, left', rfl, digit⟩ := number_head (accepts_of_eq form)
    have unnamed := nameAt_digit digit left'
    rw [nameAt_of_identifier named] at unnamed
    cases unnamed
  | string form =>
    obtain ⟨_, head⟩ := head_of_accepts_char (accepts_of_eq form)
    exact absurd head (ne_of_identifier named (by decide) _)
  | bool _ read => exact word read
  | nil read => exact word read
  | undefined text => exact absurd text (ne_of_identifier named (by decide) _)
  | tilde head => exact absurd head (ne_of_identifier named (by decide) _)
  | list form =>
    obtain ⟨_, head⟩ := head_of_accepts_char (accepts_of_eq form)
    exact absurd head (ne_of_identifier named (by decide) _)
  | map form =>
    obtain ⟨_, head⟩ := head_of_accepts_char (accepts_of_eq form)
    exact absurd head (ne_of_identifier named (by decide) _)
  | group form =>
    obtain ⟨_, head⟩ := head_of_accepts_char (accepts_of_eq form)
    exact absurd head (ne_of_identifier named (by decide) _)
  | mergeCall form =>
    obtain ⟨_, read⟩ := identifier_mergeCall (accepts_of_eq form)
    obtain ⟨-, same⟩ := Parsed.accepted.inj (named.symm.trans read)
    exact absurd same (assigned.ne_cons rfl (by decide) _)
  | reference _ form => exact reference_of_assigned named assigned form

/-- A name before the sign is the whole operand. -/
theorem operand_of_assigned {o : Expr} (named : identifier cs = .accepted s left)
    (assigned : Assigned left) (operand : full.operandRule cs = .accepted o rest) :
    rest = left := by
  have same :
    ∀ {w : String} {middle : List Char}, identifier cs = .accepted w middle → middle = left :=
    fun word => (Parsed.accepted.inj (word.symm.trans named)).2
  cases operandForm_of_eq operand with
  | not head _ => exact absurd head (ne_of_identifier named (by decide) _)
  | substitution head _ => exact absurd head (ne_of_identifier named (by decide) _)
  | marked form =>
    obtain ⟨_, _, _, _, _, read, -⟩ := marked_eq_iff.mp form
    obtain ⟨_, head⟩ := accepts_marker_head (accepts_of_eq read)
    exact absurd head (ne_of_identifier named (by decide) _)
  | merge form =>
    obtain ⟨flags, path, key, middle, left', left'', -, word, -, flagged, keyed, pathed⟩ :=
      mergeForm_eq_iff.mp form
    obtain rfl := same word
    have unnamed := assigned.not_accepts_namePart
    rw [many_of_not_accepts fun accepts => ?_] at flagged
    · obtain ⟨-, rfl⟩ := Parsed.accepted.inj flagged
      rw [optional_eq_none_iff.mpr ⟨fun accepts => ?_, rfl⟩] at keyed
      · obtain ⟨-, rfl⟩ := Parsed.accepted.inj keyed
        rw [optional_eq_none_iff.mpr ⟨fun accepts => ?_, rfl⟩] at pathed
        · exact (Parsed.accepted.inj pathed).2.symm
        · obtain ⟨first, rest, accepted, -⟩ := accepts_pathPart_iff.mp accepts
          exact unnamed (accepts_of_eq accepted)
      · obtain ⟨rest, accepted, -⟩ := accepts_keyPart_iff.mp accepts
        exact unnamed (accepts_of_eq accepted)
    · obtain ⟨flag, rest, accepted⟩ := accepts
      exact unnamed (accepts_of_eq (mergeFlag_eq_iff.mp accepted))
  | auto word => exact same word
  | prefer word spacing inner =>
    obtain rfl := same word
    rw [spaces1_eq spacing] at inner
    exact absurd (accepts_of_eq inner) assigned.not_accepts_operand
  | lambda form =>
    rcases lambda_head (accepts_of_eq form) with ⟨_, head⟩ | ⟨_, _, word, bar⟩
    · exact absurd head (ne_of_identifier named (by decide) _)
    · obtain rfl := same word
      obtain ⟨_, head, -⟩ := assigned
      rw [head] at bar
      cases bar
  | negative head _ => exact absurd head (ne_of_identifier named (by decide) _)
  | chain _ _ form =>
    obtain ⟨p, middle, primary, ⟨-, rfl, rfl⟩ | ⟨-, forms, read, -⟩⟩ := chain_eq_iff.mp form
    · exact primary_of_assigned named assigned primary
    · obtain rfl := primary_of_assigned named assigned primary
      rw [many_of_not_accepts assigned.not_accepts_postfixForm] at read
      exact (Parsed.accepted.inj read).2.symm

/-- Digits before the sign are the whole operand. -/
theorem number_of_assigned {o : Expr} {digits : List Char}
    (read : digits1 cs = .accepted digits left)
    (assigned : Assigned left) (operand : full.operandRule cs = .accepted o rest) :
    rest = left := by
  obtain ⟨nonempty, digital, rfl, -⟩ := digits1_eq_iff.mp read
  cases digits with
  | nil => exact absurd rfl nonempty
  | cons c digits =>
    obtain ⟨e, rest', number⟩ := accepts_number_of_operand (digital c (List.mem_cons_self ..))
      (accepts_of_eq operand)
    obtain ⟨-, same⟩ := Parsed.accepted.inj (operand.symm.trans (operandRule_number number))
    obtain ⟨t, text, -⟩ := number_eq_iff.mp number
    obtain ⟨middle, middle', whole, fraction, exponent⟩ := numberText_eq_iff.mp text
    obtain ⟨-, rfl⟩ := Parsed.accepted.inj (read.symm.trans whole)
    rw [optional_eq_none_iff.mpr ⟨assigned.not_accepts_fractionPart, rfl⟩] at fraction
    obtain ⟨-, rfl⟩ := Parsed.accepted.inj fraction
    rw [optional_eq_none_iff.mpr ⟨assigned.not_accepts_exponentPart, rfl⟩] at exponent
    exact same.trans (Parsed.accepted.inj exponent).2.symm

end

/-! ### Arguments -/

/-- A named argument. -/
def namedArgument : Parser Argument := do
  let name ← identifier
  assignment
  return .named name (← full.expression)

/-- An argument at a position. -/
def indexedArgument : Parser Argument := do
  let index ← position
  assignment
  return .indexed index (← full.expression)

/-- An argument of its own. -/
def plainArgument : Parser Argument := do
  let e ← full.expression
  let spread := (← optional (word "...".toList)).isSome
  return if spread then .spread e else .positional e

theorem namedArgument_eq_iff {a : Argument} : namedArgument cs = .accepted a rest ↔
    ∃ name left left' e, identifier cs = .accepted name left ∧ assignment left = .accepted
    () left' ∧
      full.expression left' = .accepted e rest ∧ a = .named name e := by
  refine Iff.trans bind_eq_iff ?_
  constructor
  · rintro ⟨name, left, named, later⟩
    obtain ⟨_, left', sign, last⟩ := bind_eq_iff.mp later
    obtain ⟨e, _, inner, same⟩ := bind_eq_iff.mp last
    cases same
    exact ⟨name, left, left', e, named, sign, inner, rfl⟩
  · rintro ⟨name, left, left', e, named, sign, inner, rfl⟩
    exact ⟨name, left, named, bind_eq_iff.mpr
      ⟨(), left', sign, bind_eq_iff.mpr ⟨e, rest, inner, rfl⟩⟩⟩

theorem position_eq_iff {n : Nat} : position cs = .accepted n rest ↔
    ∃ digits, digits1 cs = .accepted digits rest ∧ n = naturalOfDigits digits ∧ FitsWord n := by
  refine Iff.trans bind_eq_iff ?_
  constructor
  · rintro ⟨digits, left, read, later⟩
    by_cases fits : FitsWord (naturalOfDigits digits)
    · rw [if_pos fits] at later
      cases later
      exact ⟨digits, read, rfl, fits⟩
    · rw [if_neg fits] at later
      cases later
  · rintro ⟨digits, read, rfl, fits⟩
    refine ⟨digits, rest, read, ?_⟩
    rw [if_pos fits]
    rfl

theorem indexedArgument_eq_iff {a : Argument} : indexedArgument cs = .accepted a rest ↔
    ∃ index left left' e, position cs = .accepted index left ∧ assignment left = .accepted
    () left' ∧
      full.expression left' = .accepted e rest ∧ a = .indexed index e := by
  refine Iff.trans bind_eq_iff ?_
  constructor
  · rintro ⟨index, left, read, later⟩
    obtain ⟨_, left', sign, last⟩ := bind_eq_iff.mp later
    obtain ⟨e, _, inner, same⟩ := bind_eq_iff.mp last
    cases same
    exact ⟨index, left, left', e, read, sign, inner, rfl⟩
  · rintro ⟨index, left, left', e, read, sign, inner, rfl⟩
    exact ⟨index, left, read, bind_eq_iff.mpr
      ⟨(), left', sign, bind_eq_iff.mpr ⟨e, rest, inner, rfl⟩⟩⟩

theorem plainArgument_eq_iff {a : Argument} : plainArgument cs = .accepted a rest ↔
    ∃ e left, full.expression cs = .accepted e left ∧
      (left = "...".toList ++ rest ∧ a = .spread e ∨
        ¬(word "...".toList).Accepts left ∧ rest = left ∧ a = .positional e) := by
  refine Iff.trans bind_eq_iff (exists_congr fun e => exists_congr fun left =>
    and_congr_right fun _ =>
    Iff.trans bind_eq_iff ?_)
  constructor
  · rintro ⟨points, middle, read, same⟩
    cases points with
    | some points =>
      cases same
      exact .inl ⟨word_eq_iff.mp (optional_eq_some_iff.mp read), rfl⟩
    | none =>
      obtain ⟨unpointed, rfl⟩ := optional_eq_none_iff.mp read
      cases same
      exact .inr ⟨unpointed, rfl, rfl⟩
  · rintro (⟨points, rfl⟩ | ⟨unpointed, rfl, rfl⟩)
    · exact ⟨some (), rest, optional_eq_some_iff.mpr (word_eq_iff.mpr points), rfl⟩
    · exact ⟨none, _, optional_eq_none_iff.mpr ⟨unpointed, rfl⟩, rfl⟩

theorem not_accepts_named_of_digit {c : Char} (digit : c.isDigit = true) (left : List Char) :
    ¬namedArgument.Accepts (c :: left) := by
  rintro ⟨a, rest, accepted⟩
  obtain ⟨name, left', _, _, named, -⟩ := namedArgument_eq_iff.mp accepted
  have unnamed := nameAt_digit digit left
  rw [nameAt_of_identifier named] at unnamed
  cases unnamed

/-- A printed expression is read as an argument of its own. -/
theorem Reprinted.unassigned {e : Expr} (again : Reprinted full.expression cs e rest')
    (closed : Closed rest') : ¬namedArgument.Accepts (e.print ++ rest') ∧
      ¬indexedArgument.Accepts (e.print ++ rest') := by
  -- An operand before the sign would be the whole expression, and the sign would close it.
  have clash : ∀ {o : Expr} {left : List Char}, Assigned left →
      full.operandRule (e.print ++ rest') = .accepted o left → False := by
    intro o left assigned operand
    obtain ⟨-, rfl⟩ := Parsed.accepted.inj (again.accepted.symm.trans (assigned.expression operand))
    obtain ⟨left', head, -⟩ := assigned
    exact closes_ne_equals closed.closes head
  obtain ⟨o, _, left, -, operand, -⟩ := again.start.operand
  constructor
  · rintro ⟨a, rest, accepted⟩
    obtain ⟨name, left', _, _, named, sign, -⟩ := namedArgument_eq_iff.mp accepted
    have assigned := assigned_of_accepts (accepts_of_eq sign)
    rw [operand_of_assigned named assigned operand] at operand
    exact clash assigned operand
  · rintro ⟨a, rest, accepted⟩
    obtain ⟨index, left', _, _, read, sign, -⟩ := indexedArgument_eq_iff.mp accepted
    obtain ⟨digits, read', -⟩ := position_eq_iff.mp read
    have assigned := assigned_of_accepts (accepts_of_eq sign)
    rw [number_of_assigned read' assigned operand] at operand
    exact clash assigned operand

/-- The sign before a printed expression. -/
theorem Reprinted.assignment {e : Expr} (again : Reprinted full.expression cs e rest') :
    assignment ('=' :: (e.print ++ rest')) = .accepted () (e.print ++ rest') := by
  refine assignment_eq_iff.mpr ⟨_, rfl, fun left same => ?_, again.start.unspaced.symm⟩
  have isOpen := again.start.opens
  rw [same] at isOpen
  cases isOpen

theorem advances_argument : full.argument.Advances := alike_self.argument.advances

theorem advances_assignment : assignment.Shrinks :=
  shrinks_spaces.bind fun _ => (advances_char '=').shrinks.bind fun _ =>
    shrinks_notFollowedBy.bind fun _ => shrinks_spaces

theorem readsItems_argument (nested : ReadsBackBelow full.expression bound) :
    ReadsItems full.argument Expr.printArgument (fun a => a.expr.Everywhere Expr.Faithful)
    bound := by
  intro cs a rest short read faithful rest' ends
  rcases choose_cons_eq_iff.mp read with found | ⟨-, read⟩
  · obtain ⟨name, left, left', e, named, sign, inner, rfl⟩ := namedArgument_eq_iff.mp found
    obtain ⟨isName, -, -⟩ := identifier_eq_iff.mp named
    have shorter : left'.length < bound := by
      have first := (advances_identifier _ _ _ named).2
      have second := (advances_assignment.length_le sign)
      omega
    have again := nested _ _ _ shorter inner faithful rest' (ends.toClosed.ends e rest)
    have text :
      Expr.printArgument (.named name e) ++ rest' = name.toList ++ '=' :: (e.print ++ rest') := by
      simp [Expr.printArgument]
    rw [text]
    exact ⟨choose_cons_eq_iff.mpr (.inl (namedArgument_eq_iff.mpr ⟨name, _, _, e,
      isName.identifier_append rfl, again.assignment, again.accepted, rfl⟩)), isName.unspaced _⟩
  rcases choose_cons_eq_iff.mp read with found | ⟨-, read⟩
  · obtain ⟨index, left, left', e, position, sign, inner, rfl⟩ := indexedArgument_eq_iff.mp found
    obtain ⟨digits, read', rfl, fits⟩ := position_eq_iff.mp position
    have shorter : left'.length < bound := by
      have first := (advances_digits1 _ _ _ read').2
      have second := (advances_assignment.length_le sign)
      omega
    have again := nested _ _ _ shorter inner faithful rest' (ends.toClosed.ends e rest)
    obtain ⟨c, more, chars, digit⟩ := toDigits_head (naturalOfDigits digits)
    have text : Expr.printArgument (.indexed (naturalOfDigits digits) e) ++ rest' =
        Nat.toDigits 10 (naturalOfDigits digits) ++ '=' :: (e.print ++ rest') := by
      simp [Expr.printArgument]
    have counted : Grammar.position (Nat.toDigits 10 (naturalOfDigits digits) ++
        '=' :: (e.print ++ rest')) = .accepted (naturalOfDigits digits)
          ('=' :: (e.print ++ rest')) :=
      position_eq_iff.mpr ⟨Nat.toDigits 10 (naturalOfDigits digits), digits1_eq_iff.mpr
        ⟨toDigits_ne_nil _, fun c member => isDigit_of_mem_toDigits member, rfl,
          undigited_cons (by decide) _⟩, (naturalOfDigits_toDigits _).symm, fits⟩
    rw [text]
    refine ⟨choose_cons_eq_iff.mpr (.inr ⟨?_, choose_cons_eq_iff.mpr (.inl
      (indexedArgument_eq_iff.mpr ⟨_, _, _, e, counted, again.assignment, again.accepted, rfl⟩))⟩),
        ?_⟩
    · rw [chars]
      exact not_accepts_named_of_digit digit _
    · rw [chars]
      exact unspaced_of_opens (opens_of_opensPrimary (opensPrimary_of_digit digit))
  · obtain ⟨e, left, inner, ⟨-, rfl⟩ | ⟨-, -, rfl⟩⟩ := plainArgument_eq_iff.mp read
    · have points : Closed ("...".toList ++ rest') := closed_points _
      have again := nested _ _ _ short inner faithful _ (points.ends e left)
      have text : Expr.printArgument (.spread e) ++ rest' = e.print ++ ("...".toList ++ rest') :=
        List.append_assoc ..
      obtain ⟨unnamed, unindexed⟩ := again.unassigned points
      rw [text]
      exact ⟨choose_cons_eq_iff.mpr (.inr ⟨unnamed, choose_cons_eq_iff.mpr (.inr ⟨unindexed,
        plainArgument_eq_iff.mpr ⟨e, _, again.accepted, .inl ⟨rfl, rfl⟩⟩⟩)⟩), again.start.unspaced⟩
    · have again := nested _ _ _ short inner faithful rest' (ends.toClosed.ends e left)
      obtain ⟨unnamed, unindexed⟩ := again.unassigned ends.toClosed
      exact ⟨choose_cons_eq_iff.mpr (.inr ⟨unnamed, choose_cons_eq_iff.mpr (.inr ⟨unindexed,
        plainArgument_eq_iff.mpr ⟨e, _, again.accepted,
          .inr ⟨not_accepts_word_points ends.unpointed, rfl, rfl⟩⟩⟩)⟩), again.start.unspaced⟩

theorem not_accepts_argument (closed : Closed cs) (solid : Unspaced cs) (unnamed : nameAt cs = none)
    (undigited : Undigited cs) : ¬full.argument.Accepts cs := by
  rintro ⟨a, rest, accepted⟩
  rcases choose_cons_eq_iff.mp accepted with found | ⟨-, accepted⟩
  · obtain ⟨_, _, _, _, named, -⟩ := namedArgument_eq_iff.mp found
    rw [nameAt_of_identifier named] at unnamed
    cases unnamed
  rcases choose_cons_eq_iff.mp accepted with found | ⟨-, accepted⟩
  · obtain ⟨_, _, _, _, read, -⟩ := indexedArgument_eq_iff.mp found
    obtain ⟨_, read', -⟩ := position_eq_iff.mp read
    exact accepts_digits1_iff.mp (accepts_of_eq read') undigited
  · obtain ⟨_, _, inner, -⟩ := plainArgument_eq_iff.mp accepted
    exact not_accepts_expression closed solid (accepts_of_eq inner)

/-- Arguments read back from their printed form. -/
theorem reprint_arguments {args : List Argument} (nested : ReadsBackBelow full.expression bound)
    (short : cs.length < bound + 1) (read : full.arguments cs = .accepted args rest)
    (faithful : Expr.EverywhereInArguments Expr.Faithful args) (rest' : List Char) :
    full.arguments ('(' :: (Expr.printArguments args ++ ')' :: rest')) = .accepted args rest' := by
  obtain ⟨left, left', rfl, items, -⟩ := arguments_eq_iff.mp read
  have bracket : ItemEnd (')' :: rest') := itemEnd_of_head (by decide) _
  obtain ⟨again, solid⟩ := (readsItems_argument nested).separated advances_argument
    (length_dropWhile_lt short) items (everywhereInArguments_iff.mp faithful) bracket
    (by rintro _ ⟨⟩) (not_accepts_argument bracket.toClosed (unspaced_cons rfl _)
      (nameAt_cons rfl _)
      (undigited_cons (by decide) _))
  have unspaced : Unspaced (Expr.printArguments args ++ ')' :: rest') := by
    rw [printArguments_eq]
    cases args with
    | nil => exact unspaced_cons rfl _
    | cons a args => exact solid (List.cons_ne_nil _ _)
  refine arguments_eq_iff.mpr ⟨_, ')' :: rest', rfl, ?_, closing_bracket (by decide) rfl⟩
  rw [unspaced, printArguments_eq]
  exact again

end Grammar

end Cascade
