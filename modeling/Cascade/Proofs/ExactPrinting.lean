import Cascade.Proofs.FloatTexts
import Cascade.Proofs.OrderlyGrammar
import Cascade.Proofs.RoundTrip
import Cascade.Proofs.TildeBudgets

/-!
# Exactly which printed expressions are read back

A merge form that a name would continue, before the literal that prints as a word, is not read back.
Read from a text, the literal behind such a form must have been a tilde: a word would have become
the key of the form. So the text has more tildes than the printed expression, and the printed
expression is not that text. This is shown by one walk over the rules of the grammar, with tildes as
the currency.

## Main definitions

* `Grammar.Paid`: the tildes between two places of a text pay for what is read there.

## Main statements

* `Expr.due_le_of_parseChars`: the tildes of a text pay for the expression that is read from it.
* `Expr.parse_render_iff`, `Expr.classify_embed_iff`: a printed expression is read back exactly if
  no literal in it becomes the key of a merge form.
-/

namespace Cascade

namespace Parser

variable {α β : Type}

/-- The values of the parser have a property. -/
def Ensures (p : Parser α) (Q : α → Prop) : Prop :=
  ∀ cs value rest, p cs = .accepted value rest → Q value

section

variable {p : Parser α} {f : α → Parser β} {g : α → β} {Q : β → Prop}

theorem ensures_pure {value : β} (holds : Q value) : (pure value : Parser β).Ensures Q := by
  rintro cs _ _ ⟨⟩
  exact holds

theorem ensures_bind (next : ∀ value, (f value).Ensures Q) : (p >>= f).Ensures Q := by
  intro cs result rest accepted
  obtain ⟨value, left, -, there⟩ := bind_eq_iff.mp accepted
  exact next value left result rest there

theorem ensures_map (each : ∀ value, Q (g value)) : (g <$> p).Ensures Q := by
  intro cs result rest accepted
  obtain ⟨value, -, rfl⟩ := map_eq_iff.mp accepted
  exact each value

theorem exists_of_choose {parsers : List (Parser α)} {cs rest : List Char} {value : α}
    (accepted : choose parsers cs = .accepted value rest) :
    ∃ p ∈ parsers, p cs = .accepted value rest := by
  induction parsers with
  | nil => cases accepted
  | cons first others ih =>
    rcases choose_cons_eq_iff.mp accepted with read | ⟨-, read⟩
    · exact ⟨first, List.mem_cons_self, read⟩
    · obtain ⟨p, member, read⟩ := ih read
      exact ⟨p, List.mem_cons_of_mem _ member, read⟩

end

end Parser

namespace Grammar

open Cascade.Parser Cascade.Expr

variable {cs left rest : List Char} {e : Expr}

/-! ### What is paid for an expression -/

/-- The tildes between two places of a text pay for the expression that is read there. One is left
over if the expression starts with a literal that is written as a tilde. And no name follows a merge
form that a name would continue. -/
structure Paid (cs : List Char) (e : Expr) (rest : List Char) : Prop where
  cost : e.due + tildes rest ≤ tildes cs
  starts : e.startsNil = true → identifier.Accepts cs ∨ e.due + tildes rest < tildes cs
  ends : e.endsOn = true → ¬namePart.Accepts rest

/-- Everything that the parser reads is paid. -/
def Pays (p : Parser Expr) : Prop := ∀ cs e rest, p cs = .accepted e rest → Paid cs e rest

theorem Pays.affords {p : Parser Expr} (pays : Pays p) : p.Affords 0 due := by
  intro cs e rest accepted
  rw [Nat.zero_add]
  exact (pays cs e rest accepted).cost

/-- Neither end of the expression can be read in another way. -/
structure IsInner (e : Expr) : Prop where
  starts : e.startsNil = false
  ends : e.endsOn = false

/-- What the parser reads starts with no literal that has two spellings, and no name follows a merge
form that a name would continue. -/
def Seals (p : Parser Expr) : Prop :=
  ∀ cs e rest, p cs = .accepted e rest →
    e.startsNil = false ∧ (e.endsOn = true → ¬namePart.Accepts rest)

theorem Seals.of_inner {p : Parser Expr} (inner : p.Ensures IsInner) : Seals p := by
  intro cs e rest accepted
  have inside := inner cs e rest accepted
  refine ⟨inside.starts, fun ends => ?_⟩
  rw [inside.ends] at ends
  cases ends

theorem Seals.bind {α : Type} {p : Parser α} {f : α → Parser Expr}
    (next : ∀ value, Seals (f value)) : Seals (p >>= f) := by
  intro cs e rest accepted
  obtain ⟨value, left, -, there⟩ := bind_eq_iff.mp accepted
  exact next value left e rest there

/-- An operand behind a sign or a word. -/
theorem Pays.seals_map {p : Parser Expr} (pays : Pays p) (wrap : Expr → Expr)
    (starts : ∀ e, (wrap e).startsNil = false) (ends : ∀ e, (wrap e).endsOn = e.endsOn) :
    Seals (wrap <$> p) := by
  intro cs e rest accepted
  obtain ⟨inner, read, rfl⟩ := map_eq_iff.mp accepted
  refine ⟨starts inner, ?_⟩
  rw [ends]
  exact (pays cs inner rest read).ends

theorem Seals.pays {p : Parser Expr} (seals : Seals p) (affords : p.Affords 0 due) : Pays p := by
  intro cs e rest accepted
  obtain ⟨starts, ends⟩ := seals cs e rest accepted
  refine ⟨?_, fun nil => ?_, ends⟩
  · have cost := affords cs e rest accepted
    rwa [Nat.zero_add] at cost
  · rw [starts] at nil
    cases nil

/-! ### Postfix forms -/

/-- The cost of the expressions in a postfix form. -/
noncomputable def Postfix.due : Postfix → Nat
  | .call args => (args.map argumentDue).sum
  | .curry args => (args.map argumentDue).sum
  | .field name => tildes name.toList
  | .project => 0
  | .slice start stop => start.elim 0 Expr.due + stop.elim 0 Expr.due
  | .index i => i.due

theorem due_applyPostfix (e : Expr) (form : Postfix) :
    (applyPostfix e form).due ≤ e.due + form.due := by
  cases form with
  | call args =>
    rcases applyPostfix_call e args with ⟨id, rfl, same⟩ | same
    · rw [same]
      exact (due_intrinsic args id).trans (Nat.le_add_left _ _)
    · rw [same]
      exact due_call e args
  | curry args => exact due_curry e args
  | field name =>
    rcases applyPostfix_field e name with ⟨r, rfl, same⟩ | ⟨base, path, rfl, same⟩ |
      ⟨base, path, rfl, same⟩ | ⟨-, same⟩
    · rw [same, due_longer]
      exact Nat.le_refl _
    · rw [same, due_projection, due_projection]
      simp [Postfix.due, Nat.add_assoc]
    · rw [same, due_qualified, due_qualified]
      simp [Postfix.due, Nat.add_assoc]
    · rw [same, due_qualified]
      simp [Postfix.due]
  | project => exact (due_projection e []).le
  | slice start stop => exact due_slice e start stop
  | index index =>
    rcases applyPostfix_index e index with ⟨r, n, rfl, rfl, same⟩ | same
    · rw [same, due_longer]
      have segment : tildes (indexSegment n).toList = 0 := by
        rw [indexSegment, String.toList_append, String.toList_append, tildes_append, tildes_append,
          tildes_toString]
        rfl
      rw [segment]
      exact Nat.le_add_right _ _
    · rw [same]
      exact due_dynamic e index

theorem due_foldl (e : Expr) (forms : List Postfix) :
    (forms.foldl applyPostfix e).due ≤ e.due + (forms.map Postfix.due).sum := by
  induction forms generalizing e with
  | nil => exact Nat.le_refl _
  | cons form forms ih =>
    have first := due_applyPostfix e form
    have later := ih (applyPostfix e form)
    simp only [List.foldl_cons, List.map_cons, List.sum_cons]
    omega

theorem isInner_applyPostfix (e : Expr) (form : Postfix) : IsInner (applyPostfix e form) := by
  cases form with
  | call args =>
    rcases applyPostfix_call e args with ⟨id, -, same⟩ | same <;> rw [same] <;> exact ⟨rfl, rfl⟩
  | field name =>
    rcases applyPostfix_field e name with ⟨_, -, same⟩ | ⟨_, _, -, same⟩ | ⟨_, _, -, same⟩ |
      ⟨-, same⟩ <;>
      rw [same] <;> exact ⟨rfl, rfl⟩
  | index index =>
    rcases applyPostfix_index e index with ⟨_, _, -, -, same⟩ | same <;> rw [same] <;>
      exact ⟨rfl, rfl⟩
  | curry args => exact ⟨rfl, rfl⟩
  | project => exact ⟨rfl, rfl⟩
  | slice start stop => exact ⟨rfl, rfl⟩

theorem isInner_foldl {e : Expr} (inner : IsInner e) (forms : List Postfix) :
    IsInner (forms.foldl applyPostfix e) := by
  induction forms generalizing e with
  | nil => exact inner
  | cons form forms ih => exact ih (isInner_applyPostfix e form)

/-! ### Expressions that neither end of which is read in another way -/

theorem isInner_number (negative : Bool) : (number negative).Ensures IsInner := by
  intro cs e rest accepted
  obtain ⟨t, -, literal⟩ := number_eq_iff.mp accepted
  rcases literal?_cases literal with ⟨-, -, -, rfl⟩ | ⟨-, _, _, rfl⟩ <;> exact ⟨rfl, rfl⟩

/-- A merge form whose path is the word before a key has no key because no name follows. -/
theorem seals_mergeForm : Seals mergeForm := by
  intro cs e rest accepted
  obtain ⟨flags, path, key, left, left', left'', rfl, -, -, -, keyed, pathed⟩ :=
    mergeForm_eq_iff.mp accepted
  refine ⟨rfl, fun ends accepts => ?_⟩
  simp only [endsOn, MergeExpr.endsOn, Bool.and_eq_true, beq_iff_eq] at ends
  obtain ⟨rfl, rfl⟩ := ends
  obtain ⟨keyless, rfl⟩ := optional_eq_none_iff.mp keyed
  obtain ⟨_, middle, spacing, read⟩ := bind_eq_iff.mp (optional_eq_some_iff.mp pathed)
  obtain ⟨first, steps, last, same, named, -, stepped⟩ := mergePath_eq_iff.mp read
  cases same
  obtain ⟨-, rfl⟩ := advances_fieldStep.many_eq_nil_iff.mp stepped
  exact keyless (accepts_keyPart_iff.mpr ⟨_, bind_eq_iff.mpr ⟨(), middle, spacing, named⟩, accepts⟩)

section

variable (g : Grammar)

theorem isInner_listLiteral : g.listLiteral.Ensures IsInner := by
  refine ensures_bind fun _ => ensures_bind fun _ => ensures_bind fun first => ?_
  cases first with
  | none => exact ensures_bind fun _ => ensures_pure ⟨rfl, rfl⟩
  | some first =>
    refine ensures_bind fun range => ?_
    cases range with
    | some stop => exact ensures_pure ⟨rfl, rfl⟩
    | none => exact ensures_bind fun _ => ensures_bind fun _ => ensures_pure ⟨rfl, rfl⟩

theorem isInner_mapLiteral : g.mapLiteral.Ensures IsInner :=
  ensures_bind fun _ => ensures_bind fun _ => ensures_bind fun _ => ensures_bind fun _ =>
    ensures_pure ⟨rfl, rfl⟩

theorem isInner_group : g.group.Ensures IsInner :=
  ensures_bind fun _ => ensures_bind fun _ => ensures_bind fun _ => ensures_bind fun _ =>
    ensures_bind fun _ => ensures_pure ⟨rfl, rfl⟩

theorem isInner_mergeCall : g.mergeCall.Ensures IsInner :=
  ensures_bind fun _ => ensures_bind fun _ => ensures_bind fun _ => ensures_pure ⟨rfl, rfl⟩

end

/-! ### Rules -/

/-- Everything that the parsers of nested expressions read is paid. -/
structure PaysAll (g : Grammar) : Prop where
  expression : Pays g.expression
  conditional : Pays g.conditional
  operand : Pays g.operand

namespace PaysAll

variable {g : Grammar} (paid : PaysAll g)

include paid

theorem marked : Pays g.marked := by
  refine Seals.pays ?_ ?_
  · refine .bind fun first => .bind fun more => ?_
    intro cs e rest accepted
    obtain ⟨inner, left, read, same⟩ := bind_eq_iff.mp accepted
    cases same
    refine ⟨rfl, ?_⟩
    cases inner with
    | none => rintro ⟨⟩
    | some inner =>
      obtain ⟨_, left, -, inside⟩ := bind_eq_iff.mp (optional_eq_some_iff.mp read)
      exact (paid.expression _ _ _ inside).ends
  · have next : (spaces >>= fun _ => marker).Affords 0 fun m => tildes m.render.toList :=
      shrinks_spaces.skip fun _ => affords_marker
    have inside : (spaces >>= fun _ => g.expression).Affords 0 due :=
      shrinks_spaces.skip fun _ => paid.expression.affords
    exact affords_marker.start fun first => next.many.bind fun more => inside.optional.bind
      fun inner => affords_pure (due_marked first more inner)

theorem parameter : g.parameter.Affords 0 parameterDue := by
  refine affords_identifier.start fun name => (shrinks_word _).optional.skip fun variadic => ?_
  cases variadic with
  | some _ => exact affords_pure (due_parameter name none true).le
  | none =>
    have default : (spaced (char '=') >>= fun _ => g.expression).Affords 0 due :=
      (advances_char '=').spaced.shrinks.skip fun _ => paid.expression.affords
    exact default.optional.bind fun default => affords_pure (due_parameter name default false).le

theorem lambda : Pays g.lambda := by
  refine Seals.pays ?_ ?_
  · exact .bind fun _ => .bind fun _ => .bind fun _ => .bind fun params => .bind fun _ =>
      .bind fun _ => .bind fun _ => .bind fun _ => .bind fun _ =>
        paid.expression.seals_map (fun body => .lambda ⟨params, body⟩) (fun _ => rfl) fun _ => rfl
  · refine ((advances_keyword (by decide)).shrinks.bind fun _ => shrinks_spaces).optional.skip
      fun _ => (advances_char '|').shrinks.skip fun _ => shrinks_spaces.skip fun _ =>
        (paid.parameter.separated advances_comma.shrinks).start fun params => ?_
    exact shrinks_spaces.skip fun _ => (advances_char '|').shrinks.skip fun _ =>
      shrinks_spaces.skip fun _ => (shrinks_word _).skip fun _ => shrinks_spaces.skip fun _ =>
        paid.expression.affords.bind fun body => affords_pure (due_lambda body params)

theorem argument : g.argument.Affords 0 argumentDue := by
  have assigns : assignment.Shrinks := shrinks_spaces.bind fun _ =>
    (advances_char '=').shrinks.bind fun _ => shrinks_notFollowedBy.bind fun _ => shrinks_spaces
  refine .choose ⟨?_, ?_, ?_⟩
  · refine affords_identifier.start fun name => assigns.skip fun _ =>
      paid.expression.affords.bind fun e => affords_pure ?_
    rw [due_argument, Nat.add_comm]
    exact Nat.le_refl _
  · exact orderly_position.shrinks.skip fun index => assigns.skip fun _ =>
      paid.expression.affords.start fun e => affords_pure (due_argument (.indexed index e)).le
  · refine paid.expression.affords.start fun e => (shrinks_word _).optional.skip fun spread =>
      affords_pure ?_
    rw [due_argument]
    split <;> exact Nat.le_refl _

theorem arguments : g.arguments.Affords 0 fun args => (args.map argumentDue).sum :=
  (advances_char '(').shrinks.skip fun _ => shrinks_spaces.skip fun _ =>
    (paid.argument.separated advances_comma.shrinks).start fun _ =>
      (advances_closing ')').shrinks.skip fun _ => affords_pure (Nat.le_refl _)

theorem indexBody : g.indexBody.Affords 0 Postfix.due := by
  have star : (char '*' >>= fun _ => followedBy (spaces >>= fun _ => char ']')).Shrinks :=
    (advances_char '*').shrinks.bind fun _ => shrinks_followedBy
  refine star.optional.skip fun projection => ?_
  cases projection with
  | some _ => exact affords_pure (Nat.le_refl _)
  | none =>
    refine paid.expression.affords.optional.start fun start => ?_
    refine (advances_word (by decide)).spaced.shrinks.optional.skip fun range => ?_
    cases range with
    | some _ =>
      exact paid.expression.affords.optional.bind fun stop => affords_pure (Nat.le_refl _)
    | none =>
      cases start with
      | some i => exact affords_pure (Nat.le_refl _)
      | none => exact affords_fail

theorem indexSuffix : g.indexSuffix.Affords 0 Postfix.due :=
  (advances_char '[').shrinks.skip fun _ => shrinks_spaces.skip fun _ =>
    paid.indexBody.start fun _ => shrinks_spaces.skip fun _ =>
      (advances_char ']').shrinks.skip fun _ => affords_pure (Nat.le_refl _)

theorem postfixForm : g.postfixForm.Affords 0 Postfix.due :=
  .choose ⟨.map paid.arguments, (advances_char '*').shrinks.skip fun _ => .map paid.arguments,
    (advances_char '.').shrinks.optional.skip fun _ => paid.indexSuffix, .map affords_fieldStep⟩

theorem listLiteral : g.listLiteral.Affords 0 due := by
  refine (advances_char '[').shrinks.skip fun _ => shrinks_spaces.skip fun _ =>
    paid.expression.affords.optional.start fun first => ?_
  cases first with
  | none =>
    exact (advances_closing ']').shrinks.skip fun _ => affords_pure (due_list [])
  | some first =>
    have range : (spaced (word "..".toList) >>= fun _ => g.expression >>= fun stop =>
        spaces >>= fun _ => char ']' >>= fun _ => pure stop).Affords 0 due :=
      (advances_word (by decide)).spaced.shrinks.skip fun _ => paid.expression.affords.start
        fun stop => shrinks_spaces.skip fun _ => (advances_char ']').shrinks.skip fun _ =>
          affords_pure (Nat.le_refl _)
    refine range.optional.bind fun stop => ?_
    cases stop with
    | some stop => exact affords_pure (due_range first stop)
    | none =>
      exact (advances_comma.shrinks.skip fun _ => paid.expression.affords).many.bind fun more =>
        (advances_closing ']').shrinks.skip fun _ => affords_pure (due_list (first :: more))

theorem mapEntry : g.mapEntry.Affords 0 entryDue := by
  have key : (Parser.choose [stringLiteral, identifier]).Affords 0 fun key => tildes key.toList :=
    .choose ⟨affords_stringLiteral, affords_identifier⟩
  exact key.start fun key => (advances_satisfy _).spaced.shrinks.skip fun _ =>
    paid.expression.affords.bind fun e => affords_pure (Nat.le_refl _)

theorem mapLiteral : g.mapLiteral.Affords 0 due :=
  (advances_char '{').shrinks.skip fun _ => shrinks_spaces.skip fun _ =>
    (paid.mapEntry.separated advances_comma.shrinks).start fun entries =>
      (advances_closing '}').shrinks.skip fun _ => affords_pure (due_map entries)

theorem group : g.group.Affords 0 due :=
  (advances_char '(').shrinks.skip fun _ => shrinks_spaces.skip fun _ =>
    paid.expression.affords.start fun e => shrinks_spaces.skip fun _ =>
      (advances_char ')').shrinks.skip fun _ => affords_pure (due_grouped e)

theorem mergeCall : g.mergeCall.Affords 0 due :=
  (shrinks_word _).skip fun _ => shrinks_followedBy.skip fun _ => paid.arguments.start fun args =>
    affords_pure (due_intrinsic args .merge)

/-- An operand without postfix forms is paid, and only the literal that has two spellings can be
read in another way. -/
theorem primary (accepted : g.primary cs = .accepted e rest) :
    Paid cs e rest ∧ (e ≠ .nil → IsInner e) := by
  have inner : ∀ {p : Parser Expr}, p.Affords 0 due → p.Ensures IsInner →
      p cs = .accepted e rest → Paid cs e rest ∧ (e ≠ .nil → IsInner e) :=
    fun affords inner read => ⟨(Seals.of_inner inner).pays affords _ _ _ read,
      fun _ => inner _ _ _ read⟩
  have bool : ∀ {w : String} {b : Bool}, w.toList ≠ [] →
      ((fun _ => Expr.bool b) <$> keyword w) cs = .accepted e rest →
      Paid cs e rest ∧ (e ≠ .nil → IsInner e) := by
    intro w b nonempty
    refine inner (.map ?_) (ensures_map fun _ => ⟨rfl, rfl⟩)
    rw [due_bool]
    exact (advances_keyword nonempty).shrinks.affords
  obtain ⟨p, member, read⟩ := exists_of_choose accepted
  simp only [List.mem_cons, List.not_mem_nil, or_false] at member
  rcases member with rfl | rfl | rfl | rfl | rfl | rfl | rfl | rfl | rfl | rfl | rfl | rfl
  · exact inner (affords_number false) (isInner_number false) read
  · refine inner (.map ?_) (ensures_map fun s => ⟨rfl, rfl⟩) read
    simp only [due_string]
    exact affords_stringLiteral
  · exact bool (by decide) read
  · exact bool (by decide) read
  · -- The word is a name.
    obtain ⟨_, word, rfl⟩ := map_eq_iff.mp read
    have name := (keyword_eq_iff isName_nil).mp word
    refine ⟨⟨?_, fun _ => .inl ⟨_, _, name⟩, by rintro ⟨⟩⟩, fun other => absurd rfl other⟩
    rw [due_nil, Nat.zero_add]
    exact tildes_le_of_suffix (advances_identifier.shrinks _ _ _ name)
  · refine inner (.map ?_) (ensures_map fun _ => ⟨rfl, rfl⟩) read
    rw [due_undefined]
    exact affords_word _
  · -- The tilde is not printed.
    obtain ⟨_, tilde, rfl⟩ := map_eq_iff.mp read
    obtain rfl := char_eq_iff.mp tilde
    have less : Expr.nil.due + tildes rest < tildes ('~' :: rest) := by
      rw [due_nil]
      simp
    exact ⟨⟨less.le, fun _ => .inr less, by rintro ⟨⟩⟩, fun other => absurd rfl other⟩
  · exact inner paid.listLiteral (isInner_listLiteral g) read
  · exact inner paid.mapLiteral (isInner_mapLiteral g) read
  · exact inner paid.group (isInner_group g) read
  · exact inner paid.mergeCall (isInner_mergeCall g) read
  · refine inner (.map ?_) (ensures_map fun r => ⟨rfl, rfl⟩) read
    simp only [due_reference]
    exact affords_reference

theorem chain : Pays g.chain := by
  intro cs e rest accepted
  obtain ⟨first, left, read, later⟩ := bind_eq_iff.mp accepted
  obtain ⟨here, inner⟩ := paid.primary read
  split at later
  · cases later
    exact here
  · next solid =>
    obtain ⟨forms, last, formed, same⟩ := bind_eq_iff.mp later
    cases same
    have inside := isInner_foldl (inner (by rintro rfl; exact solid rfl)) forms
    have cost := due_foldl first forms
    have formsPaid : (forms.map Postfix.due).sum + tildes rest ≤ 0 + tildes left :=
      paid.postfixForm.many left forms rest formed
    have firstPaid := here.cost
    refine ⟨by omega, fun starts => ?_, fun ends => ?_⟩
    · rw [inside.starts] at starts
      cases starts
    · rw [inside.ends] at ends
      cases ends

theorem operandRule : Pays g.operandRule := by
  intro cs e rest accepted
  have operand : ∀ {wrap : Expr → Expr}, (∀ e, (wrap e).due ≤ e.due) →
      (wrap <$> g.operand).Affords 0 due := fun free => .map fun cs e rest read =>
    (Nat.add_le_add_right (free e) _).trans (paid.operand.affords cs e rest read)
  obtain ⟨p, member, read⟩ := exists_of_choose accepted
  simp only [List.mem_cons, List.not_mem_nil, or_false] at member
  rcases member with rfl | rfl | rfl | rfl | rfl | rfl | rfl | rfl | rfl
  · refine Seals.pays (.bind fun _ => .bind fun _ =>
      paid.operand.seals_map Expr.not (fun _ => rfl) fun _ => rfl) ?_ cs e rest read
    exact (advances_char '!').shrinks.skip fun _ => shrinks_spaces.skip fun _ => operand due_not
  · refine Seals.pays (.bind fun _ =>
      paid.operand.seals_map Expr.substitution (fun _ => rfl) fun _ => rfl) ?_ cs e rest read
    exact (advances_char '*').shrinks.skip fun _ => operand due_substitution
  · exact paid.marked cs e rest read
  · exact seals_mergeForm.pays affords_mergeForm cs e rest read
  · refine Seals.pays (.of_inner (ensures_map fun _ => ⟨rfl, rfl⟩)) (.map ?_) cs e rest read
    rw [due_auto]
    exact (advances_keyword (by decide)).shrinks.affords
  · refine Seals.pays (.bind fun _ => .bind fun _ =>
      paid.operand.seals_map Expr.prefer (fun _ => rfl) fun _ => rfl) ?_ cs e rest read
    exact (advances_keyword (by decide)).shrinks.skip fun _ => advances_spaces1.shrinks.skip
      fun _ => operand due_prefer
  · exact paid.lambda cs e rest read
  · exact Seals.pays (.bind fun _ => .of_inner (isInner_number true))
      ((advances_char '-').shrinks.skip fun _ => affords_number true) cs e rest read
  · exact paid.chain cs e rest read

end PaysAll

/-! ### Operators -/

section

variable {middle : List Char} {l r both : Expr}

/-- Two operands side by side are paid together. -/
theorem Paid.beside (first : Paid cs l left) (second : Paid middle r rest)
    (cost : both.due + tildes rest ≤ l.due + tildes left) (starts : both.startsNil = l.startsNil)
    (ends : both.endsOn = r.endsOn) : Paid cs both rest where
  cost := cost.trans first.cost
  starts nil := by
    rw [starts] at nil
    exact (first.starts nil).imp_right fun less => Nat.lt_of_le_of_lt cost less
  ends on := by
    rw [ends] at on
    exact second.ends on

theorem Paid.operator (first : Paid cs l left) (second : Paid middle r rest)
    (fewer : tildes middle ≤ tildes left) (cost : both.due ≤ l.due + r.due)
    (starts : both.startsNil = l.startsNil) (ends : both.endsOn = r.endsOn) :
    Paid cs both rest := by
  refine first.beside second ?_ starts ends
  have paid := second.cost
  omega

/-- Where a merge form would be continued by the literal, the literal is written as a tilde. -/
theorem Paid.concatenation (first : Paid cs l left) (second : Paid middle r rest)
    (spacing : spaces1 left = .accepted () middle) : Paid cs (.concatenation l r) rest := by
  have fewer := tildes_le_of_suffix (advances_spaces1.shrinks _ _ _ spacing)
  by_cases apart : (Expr.concatenation l r).Apart
  · exact first.operator second fewer (due_concatenation l r apart) rfl rfl
  · simp only [Apart, Classical.not_imp, Bool.not_eq_false] at apart
    obtain ⟨ends, starts⟩ := apart
    rcases second.starts starts with ⟨name, last, named⟩ | less
    · exact absurd ⟨name, last, bind_eq_iff.mpr ⟨(), middle, spacing, named⟩⟩ (first.ends ends)
    · refine first.beside second ?_ rfl rfl
      have lapse := due_concatenation_le l r
      omega

theorem pays_joined {α : Type} {operand : Parser Expr} {operator : Parser α}
    {join : α → Expr → Expr → Expr} (pays : Pays operand)
    (step : ∀ {cs left middle rest op l r}, Paid cs l left → operator left = .accepted op middle →
      Paid middle r rest → Paid cs (join op l r) rest) : Pays (joined operand operator join) := by
  intro cs e rest accepted
  obtain ⟨first, left, more, read, repeated, rfl⟩ := joined_eq_iff.mp accepted
  have here := pays cs first left read
  -- The operands that are joined so far are paid where the next operator is read.
  have further : ∀ (count : Nat) (left : List Char) (lhs : Expr), Paid cs lhs left →
      Paid cs ((upTo (operation operand operator) count left).1.foldl
        (fun lhs step => join step.1 lhs step.2) lhs)
        (upTo (operation operand operator) count left).2 := by
    intro count
    induction count with
    | zero => exact fun _ _ paid => paid
    | succ count ih =>
      intro left lhs paid
      unfold upTo
      split
      · next pair rest operated =>
        obtain ⟨op, rhs⟩ := pair
        obtain ⟨middle, sign, there⟩ := operation_eq_iff.mp operated
        exact ih rest _ (step paid sign (pays middle rhs rest there))
      · exact paid
  cases repeated
  exact further left.length left first here

end

namespace PaysAll

variable {g : Grammar} (paid : PaysAll g)

include paid

theorem product : Pays g.product :=
  pays_joined paid.operandRule fun first sign second => first.operator second
    (tildes_le_of_suffix (advances_productOp.shrinks _ _ _ sign)) (due_arithmetic _ _ _) rfl rfl

theorem sum : Pays g.sum :=
  pays_joined paid.product fun first sign second => first.operator second
    (tildes_le_of_suffix (advances_sumOp.shrinks _ _ _ sign)) (due_arithmetic _ _ _) rfl rfl

theorem comparison : Pays g.comparison := by
  intro cs e rest accepted
  obtain ⟨lhs, left, read, later⟩ := bind_eq_iff.mp accepted
  obtain ⟨more, last, continued, same⟩ := bind_eq_iff.mp later
  have first := paid.sum cs lhs left read
  cases more with
  | none =>
    cases same
    obtain ⟨-, rfl⟩ := optional_eq_none_iff.mp continued
    exact first
  | some pair =>
    obtain ⟨op, rhs⟩ := pair
    cases same
    obtain ⟨middle, sign, there⟩ := operation_eq_iff.mp (optional_eq_some_iff.mp continued)
    exact first.operator (paid.sum middle rhs rest there)
      (tildes_le_of_suffix (advances_comparisonOp.shrinks _ _ _ sign)) (due_comparison _ _ op)
      rfl rfl

theorem logical : Pays g.logical :=
  pays_joined paid.comparison fun first sign second => first.operator second
    (tildes_le_of_suffix (advances_logicOp.shrinks _ _ _ sign)) (due_logical _ _ _) rfl rfl

theorem concatenation : Pays g.concatenation :=
  pays_joined paid.logical fun first spacing second => first.concatenation second spacing

theorem conditionalRule : Pays g.conditionalRule := by
  intro cs e rest accepted
  obtain ⟨condition, left, read, later⟩ := bind_eq_iff.mp accepted
  obtain ⟨branches, last, continued, same⟩ := bind_eq_iff.mp later
  have first := paid.concatenation cs condition left read
  cases branches with
  | none =>
    cases same
    obtain ⟨-, rfl⟩ := optional_eq_none_iff.mp continued
    exact first
  | some pair =>
    obtain ⟨onTrue, onFalse⟩ := pair
    cases same
    obtain ⟨_, left₁, question, later⟩ := bind_eq_iff.mp (optional_eq_some_iff.mp continued)
    obtain ⟨_, left₂, readTrue, later⟩ := bind_eq_iff.mp later
    obtain ⟨_, left₃, colon, later⟩ := bind_eq_iff.mp later
    obtain ⟨_, left₄, readFalse, same⟩ := bind_eq_iff.mp later
    cases same
    have second := paid.expression left₁ onTrue left₂ readTrue
    have third := paid.conditional left₃ onFalse rest readFalse
    refine first.beside third ?_ rfl rfl
    have signs : ∀ {c : Char} {cs rest : List Char}, spaced (char c) cs = .accepted () rest →
        tildes rest ≤ tildes cs := fun {c} _ _ read =>
      tildes_le_of_suffix ((advances_char c).spaced.shrinks _ _ _ read)
    have due := due_conditional condition onTrue onFalse
    have paidTrue := second.cost
    have paidFalse := third.cost
    have sign := signs question
    have sign' := signs colon
    omega

theorem fallback : Pays g.fallback :=
  pays_joined paid.conditionalRule fun first sign second => first.operator second
    (tildes_le_of_suffix ((advances_word (by decide)).spaced.shrinks _ _ _ sign))
    (due_fallback _ _) rfl rfl

end PaysAll

theorem paysAll_ofDepth (depth : Nat) : PaysAll (ofDepth depth) := by
  have none : Pays fail := by
    rintro cs e rest ⟨⟩
  induction depth with
  | zero => exact ⟨none, none, none⟩
  | succ depth ih => exact ⟨ih.fallback, ih.conditionalRule, ih.operandRule⟩

theorem pays_expression : Pays full.expression := by
  intro cs e rest accepted
  rw [← (alike_full (cs.length + 1)).expression.same cs (Nat.lt_succ_self _)] at accepted
  exact (paysAll_ofDepth _).expression cs e rest accepted

end Grammar

namespace Expr

open Grammar Cascade.Parser

/-- The tildes of a text pay for the printed expression. -/
theorem due_le_of_parseChars {text : List Char} {e : Expr} (parsed : parseChars text = .ok e) :
    e.due ≤ tildes text := by
  obtain ⟨left, inner, -⟩ := parseChars_eq_ok_iff.mp parsed
  have paid := (pays_expression _ e left inner).cost
  have fewer := tildes_le_of_suffix (List.dropWhile_suffix (l := text) Blank.isSpacing)
  omega

/-- A text with no more tildes than the printed expression is read as the expression only if no
literal in it would become the key of a merge form. -/
theorem apart_of_parseChars {text : List Char} {e : Expr} (parsed : parseChars text = .ok e)
    (few : tildes text ≤ tildes e.print) : e.Everywhere Apart := by
  have paid := due_le_of_parseChars parsed
  by_contra lapses
  have one : lapse (e.Everywhere Apart) = 1 := if_neg lapses
  unfold due at paid
  omega

/-- No float literal is an infinity. -/
def IsFinite : Expr → Prop
  | .float x => Binary64.isFinite x = true
  | _ => True

theorem faithful_of_apart {e : Expr} (finite : e.Everywhere IsFinite)
    (apart : e.Everywhere Apart) : e.Everywhere Faithful := by
  refine everywhere_of_imp (fun e finite apart => ?_) e finite apart
  cases e with
  | float x => exact readsBack_of_isFinite finite
  | _ => exact apart

section

variable {text : String} {e : Expr} (parsed : parse text = .ok e) (finite : e.Everywhere IsFinite)

include parsed finite

/-- An expression that was read is read back from its printed text exactly if no literal in it
becomes the key of a merge form. -/
theorem parse_render_iff : parse e.render = .ok e ↔ e.Everywhere Apart := by
  refine ⟨fun again => apart_of_parseChars again ?_, fun apart =>
    parse_render_of_faithful parsed (faithful_of_apart finite apart)⟩
  rw [render, String.toList_ofList]

/-- An expression that was read is read back from the string that embeds it exactly if no literal in
it becomes the key of a merge form. -/
theorem classify_embed_iff :
    Embedded.classify e.embed = .expression e ↔ e.Everywhere Apart := by
  refine ⟨fun again => ?_, fun apart =>
    classify_embed_of_faithful parsed (faithful_of_apart finite apart)⟩
  have inside : parseChars (' ' :: (e.print ++ [' '])) = .ok e := by
    unfold Embedded.classify at again
    rw [inner?_embed] at again
    split at again
    · cases again
    · cases again
    · next inner _ same =>
      cases same
      split at again
      · next read =>
        cases again
        exact read
      · cases again
  exact apart_of_parseChars inside (by simp)

end

end Expr

end Cascade
