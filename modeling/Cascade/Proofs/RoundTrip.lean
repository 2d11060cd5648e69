import Cascade.Proofs.Embedded
import Cascade.Proofs.PrintedExpressions

/-!
# Printing and reading are inverse

Whatever is read from a text prints to a text that is read as the same expression, alone and in the
brackets that embed it in a document. Two texts print alike exactly if they are read as the same
expression. The exception is a merge form that a name would continue before a literal that two words
spell: `merge on ~` prints as `merge on nil`, where the literal has become the key of the form.

## Main statements

* `Expr.parse_render`: a printed expression is read as the expression.
* `Expr.parse_render_onNil`: the exception.
-/

namespace Cascade

namespace Expr

open Grammar Cascade.Parser

/-- What a text is read as. -/
theorem parseChars_eq_ok_iff {text : List Char} {e : Expr} : parseChars text = .ok e ↔
    ∃ left, full.expression (text.dropWhile Blank.isSpacing) = .accepted e left ∧
      left.dropWhile Blank.isSpacing = [] := by
  have deep : (ofDepth (text.length + 1)).expression (text.dropWhile Blank.isSpacing) =
      full.expression (text.dropWhile Blank.isSpacing) :=
    (alike_full (text.length + 1)).expression.same _
      (Nat.lt_succ_of_le (List.dropWhile_suffix _).length_le)
  have accepted : ∀ {rest : List Char}, whole text = .accepted e rest ↔
      ∃ left, full.expression (text.dropWhile Blank.isSpacing) = .accepted e left ∧
        rest = left.dropWhile Blank.isSpacing := by
    intro rest
    rw [← deep]
    exact spaced_eq_iff
  unfold parseChars
  constructor
  · intro parsed
    split at parsed
    · next e' read =>
      cases parsed
      obtain ⟨left, inner, last⟩ := accepted.mp read
      exact ⟨left, inner, last.symm⟩
    · cases parsed
    · cases parsed
  · rintro ⟨left, inner, last⟩
    rw [accepted.mpr ⟨left, inner, last.symm⟩]

/-- A printed expression is read back before spacing. -/
theorem parseChars_print {text : List Char} {e : Expr} (parsed : parseChars text = .ok e)
    (faithful : e.Everywhere Faithful) (before after : List Char)
    (spacing : before.dropWhile Blank.isSpacing = [])
    (closed : Closed after) (last : after.dropWhile Blank.isSpacing = []) :
    parseChars (before ++ (e.print ++ after)) = .ok e := by
  obtain ⟨left, inner, -⟩ := parseChars_eq_ok_iff.mp parsed
  have again := readsBack_expression inner faithful (closed.ends e left)
  have skip : (before ++ (e.print ++ after)).dropWhile Blank.isSpacing = e.print ++ after := by
    rw [List.dropWhile_append, spacing]
    exact again.start.unspaced
  refine parseChars_eq_ok_iff.mpr ⟨after, ?_, last⟩
  rw [skip]
  exact again.accepted

theorem parse_render_of_faithful {text : String} {e : Expr} (parsed : parse text = .ok e)
    (faithful : e.Everywhere Faithful) : parse e.render = .ok e := by
  have again := parseChars_print parsed faithful [] [] rfl ⟨trivial, rfl⟩ rfl
  rw [List.nil_append, List.append_nil] at again
  unfold parse render
  rwa [String.toList_ofList]

/-- Nothing is stripped from a text that starts and ends with a bracket. -/
theorem strip_brackets (inside : List Char) :
    Blank.strip Blank.isBlank (['(', '('] ++ inside ++ [')', ')']) =
      ['(', '('] ++ inside ++ [')', ')'] := by
  have opening : Blank.isBlank '(' = false := by decide
  have closing : Blank.isBlank ')' = false := by decide
  simp [Blank.strip, Blank.dropLeading, Blank.dropTrailing, opening, closing]

/-- What is read of an embedded expression. -/
theorem inner?_embed (e : Expr) :
    Embedded.inner? e.embed = some (' ' :: (e.print ++ [' '])) := by
  have chars : e.embed.toList = ['(', '('] ++ (' ' :: (e.print ++ [' '])) ++ [')', ')'] := by
    simp [embed, render]
  rw [Embedded.inner?_eq_some_iff, chars]
  exact strip_brackets _

theorem classify_embed_of_faithful {text : String} {e : Expr} (parsed : parse text = .ok e)
    (faithful : e.Everywhere Faithful) : Embedded.classify e.embed = .expression e := by
  have again := parseChars_print parsed faithful [' '] [' '] rfl ⟨by simp [Delimited], rfl⟩ rfl
  unfold Embedded.classify
  rw [inner?_embed]
  split
  · next none => cases none
  · next escaped => cases escaped
  · next inner _ same =>
    cases same
    rw [show parseChars (' ' :: (e.print ++ [' '])) = .ok e from again]

/-- A printed expression is read as the expression, alone and in the brackets that embed it, and two
expressions that were read print alike only if they are the same. -/
theorem parse_render {text : String} {e : Expr} (parsed : parse text = .ok e)
    (faithful : e.Everywhere Faithful) :
    parse e.render = .ok e ∧ Embedded.classify e.embed = .expression e ∧
      ∀ (text' : String) (e' : Expr), parse text' = .ok e' → e'.Everywhere Faithful →
        (e.render = e'.render ↔ e = e') := by
  refine ⟨parse_render_of_faithful parsed faithful, classify_embed_of_faithful parsed faithful, ?_⟩
  intro text' e' parsed' faithful'
  refine ⟨fun same => ?_, congrArg render⟩
  have again := parse_render_of_faithful parsed faithful
  rw [same, parse_render_of_faithful parsed' faithful'] at again
  exact (Except.ok.inj again).symm

/-- A condition whose last branch ends with a merge form, and a call with a spread argument beside
the literal that has two spellings. -/
def branchedMerge : Expr :=
  .conditional (.concatenation (.call (.reference ⟨none, false, ["g"]⟩)
      [.named "x" (.int 2), .spread (.reference ⟨none, false, ["ys"]⟩)]) .nil)
    (.range (.int 1) (.reference ⟨none, false, ["n"]⟩))
    (.marked [.flag .temporary] (some (.merge ⟨some ["on"], false, false, none⟩)))

theorem parse_decimal : parse "15e-1" = .ok (.float (Binary64.ofDecimal false 15 (-1))) := by
  have literal : number false "15e-1".toList =
      .accepted (.float (Binary64.ofDecimal false 15 (-1))) [] := rfl
  refine parseChars_eq_ok_iff.mpr ⟨[], expression_of_operand (operandRule_number literal)
    ?_ ?_, rfl⟩
  · intro t accepts
    cases tailOf_eq accepts
  · intro accepts
    cases opens_of_accepts (accepts_of_follow_spaces1 accepts)

theorem parse_render_branchedMerge :
    parse "g(  x=2,ys... )  ~ ?[1..n]:&temporary merge on" = .ok branchedMerge ∧
      branchedMerge.render = "g(x=2, ys...) nil ? [1..n] : &temporary merge on" ∧
      parse branchedMerge.render = .ok branchedMerge ∧
      Embedded.classify branchedMerge.embed = .expression branchedMerge ∧
      branchedMerge.render ≠ (Expr.float (Binary64.ofDecimal false 15 (-1))).render := by
  have parsed : parse "g(  x=2,ys... )  ~ ?[1..n]:&temporary merge on" = .ok branchedMerge := by cbv
  have faithful : branchedMerge.Everywhere Faithful :=
    ⟨trivial, ⟨by rintro ⟨⟩, ⟨trivial, trivial, trivial, trivial, trivial⟩, trivial⟩,
      ⟨trivial, trivial, trivial⟩, trivial, trivial⟩
  have decimal : (Expr.float (Binary64.ofDecimal false 15 (-1))).Everywhere Faithful :=
    ⟨"1.5".toList, by decide +kernel, by rw [Binary64.isNegative_ofDecimal]; rfl⟩
  obtain ⟨again, embedded, alike⟩ := parse_render parsed faithful
  refine ⟨parsed, by decide +kernel, again, embedded, fun same => ?_⟩
  cases (alike _ _ parse_decimal decimal).mp same

/-- A merge form with a path, beside the literal that has two spellings. -/
def mergeBesideNil : Expr := .concatenation (.merge ⟨some ["on"], false, false, none⟩) .nil

/-- A merge form with a key. -/
def mergeOnNil : Expr := .merge ⟨none, false, false, some "nil"⟩

/-- The literal that was written as a tilde prints as a word, which becomes the key of the merge
form before it. -/
theorem parse_render_onNil : parse "merge on ~" = .ok mergeBesideNil ∧
    parse mergeBesideNil.render ≠ .ok mergeBesideNil ∧ parse "merge on nil" = .ok mergeOnNil ∧
      mergeOnNil.render = mergeBesideNil.render ∧ mergeOnNil ≠ mergeBesideNil := by
  have printed : mergeBesideNil.render = "merge on nil" := by decide +kernel
  have keyed : parse "merge on nil" = .ok mergeOnNil := by cbv
  have different : mergeOnNil ≠ mergeBesideNil := by rintro ⟨⟩
  refine ⟨by cbv, ?_, keyed, by decide +kernel, different⟩
  rw [printed, keyed]
  exact fun same => different (Except.ok.inj same)

end Expr

end Cascade
