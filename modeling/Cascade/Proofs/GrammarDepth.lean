import Cascade.Expr.Parser
import Cascade.Proofs.ParserLaws

/-!
# The grammar without a bound on nesting

A nested expression starts after at least one character of the expression around it. So grammars
that agree on texts shorter than a bound have rules that agree on texts up to the bound, and the
grammar of a depth above the length of a text is the grammar without a bound.

## Main definitions

* `Parser.Alike`: two parsers agree on texts shorter than a bound.
* `Grammar.full`: the grammar without a bound on nesting.

## Main statements

* `Grammar.full_expression`, `Grammar.full_conditional`, `Grammar.full_operand`: its equations.
* `Grammar.alike_full`: a depth above the length of the text is enough.
-/

namespace Cascade

namespace Parser

variable {α β : Type}

/-! ### Parsers that agree on short texts -/

/-- Two parsers agree on texts shorter than a bound, and leave a suffix of the text; if they are
strict, a shorter one. -/
structure Alike (strict : Bool) (bound : Nat) (p q : Parser α) : Prop where
  same : ∀ cs, cs.length < bound → p cs = q cs
  suffix : p.Shrinks
  shorter : strict = true → p.Advances

section

variable {p p' : Parser α} {f f' : α → Parser β} {strict later : Bool} {bound : Nat}

theorem Shrinks.alike (shrinks : p.Shrinks) :
    Alike false bound p p := ⟨fun _ _ => rfl, shrinks, fun h => absurd h Bool.false_ne_true⟩

theorem Advances.alike (advances : p.Advances) : Alike true bound p p :=
  ⟨fun _ _ => rfl, advances.shrinks, fun _ => advances⟩

namespace Alike

theorem advances (alike : Alike true bound p p') : p.Advances := alike.shorter rfl

theorem weaken (alike : Alike true bound p p') : Alike false bound p p' :=
  ⟨alike.same, alike.suffix, fun h => absurd h Bool.false_ne_true⟩

theorem mono {lower : Nat} (alike : Alike strict bound p p') (le : lower ≤ bound) :
    Alike strict lower p p' :=
  ⟨fun cs short => alike.same cs (Nat.lt_of_lt_of_le short le), alike.suffix, alike.shorter⟩

theorem bind (first : Alike false bound p p')
    (next : ∀ value, Alike later bound (f value) (f' value)) :
    Alike later bound (p >>= f) (p' >>= f') := by
  refine ⟨fun cs short => ?_, first.suffix.bind fun value => (next value).suffix, fun strict =>
    first.suffix.bind_advances fun value => (next value).shorter strict⟩
  rw [bind_apply, bind_apply, ← first.same cs short]
  cases here : p cs with
  | failed stopped => rfl
  | accepted value rest =>
    have le := first.suffix.length_le here
    exact (next value).same rest (by omega)

/-- What follows a part of the text is read on a shorter text. -/
theorem bind_strict (first : Alike true (bound + 1) p p')
    (next : ∀ value, Alike false bound (f value) (f' value)) :
    Alike true (bound + 1) (p >>= f) (p' >>= f') := by
  refine ⟨fun cs short => ?_, first.suffix.bind fun value => (next value).suffix, fun _ =>
    first.advances.bind fun value => (next value).suffix⟩
  rw [bind_apply, bind_apply, ← first.same cs short]
  cases here : p cs with
  | failed stopped => rfl
  | accepted value rest =>
    have less := (first.advances _ _ _ here).2
    exact (next value).same rest (by omega)

/-- A part that is read makes the whole strict. -/
theorem bind_first (first : Alike true bound p p')
    (next : ∀ value, Alike false bound (f value) (f' value)) :
    Alike true bound (p >>= f) (p' >>= f') :=
  ⟨(first.weaken.bind next).same, first.suffix.bind fun value => (next value).suffix, fun _ =>
    first.advances.bind fun value => (next value).suffix⟩

theorem map {g : α → β} (alike : Alike strict bound p p') :
    Alike strict bound (g <$> p) (g <$> p') := by
  refine ⟨fun cs short => ?_, alike.suffix.map, fun isStrict => (alike.shorter isStrict).map⟩
  change (p >>= fun value => pure (g value)) cs = (p' >>= fun value => pure (g value)) cs
  rw [bind_apply, bind_apply, alike.same cs short]

theorem optional (alike : Alike strict bound p p') :
    Alike false bound (Parser.optional p) (Parser.optional p') := by
  refine ⟨fun cs short => ?_, alike.suffix.optional, fun h => absurd h Bool.false_ne_true⟩
  unfold Parser.optional
  rw [alike.same cs short]

theorem choose {parsers parsers' : List (Parser α)}
    (each : List.Forall₂ (Alike strict bound) parsers parsers') :
    Alike strict bound (Parser.choose parsers) (Parser.choose parsers') := by
  induction each with
  | nil => exact ⟨fun _ _ => rfl, shrinks_fail, fun _ => advances_fail⟩
  | @cons first first' rest rest' here there ih =>
    cases there with
    | nil => exact here
    | @cons second second' others others' next more =>
      refine ⟨fun cs short => ?_, ?_, fun isStrict => ?_⟩
      · change orElse first _ cs = orElse first' _ cs
        unfold orElse
        rw [here.same cs short, ih.same cs short]
      · intro cs value rest accepted
        rcases orElse_eq_iff.mp accepted with accepted | ⟨_, accepted⟩
        · exact here.suffix _ _ _ accepted
        · exact ih.suffix _ _ _ accepted
      · intro cs value rest accepted
        rcases orElse_eq_iff.mp accepted with accepted | ⟨_, accepted⟩
        · exact here.shorter isStrict _ _ _ accepted
        · exact ih.shorter isStrict _ _ _ accepted

theorem upTo (alike : Alike strict bound p p') (count : Nat) {cs : List Char}
    (short : cs.length < bound) : Parser.upTo p count cs = Parser.upTo p' count cs := by
  induction count generalizing cs with
  | zero => rfl
  | succ count ih =>
    rw [Parser.upTo, Parser.upTo, ← alike.same cs short]
    cases here : p cs with
    | failed stopped => rfl
    | accepted value rest =>
      have le := alike.suffix.length_le here
      simp only [ih (show rest.length < bound by omega)]

theorem many (alike : Alike strict bound p p') :
    Alike false bound (Parser.many p) (Parser.many p') := by
  refine ⟨fun cs short => ?_, alike.suffix.many, fun h => absurd h Bool.false_ne_true⟩
  unfold Parser.many
  rw [alike.upTo _ short]

end Alike

end

/-! ### Characters -/

theorem advances_satisfy (test : Char → Bool) : (satisfy test).Advances := by
  intro cs value rest accepted
  cases cs with
  | nil => cases accepted
  | cons c cs =>
    simp only [satisfy] at accepted
    split at accepted
    · cases accepted
      exact ⟨List.suffix_cons _ _, Nat.lt_succ_self _⟩
    · cases accepted

theorem char_eq_iff {c : Char} {cs rest : List Char} {u : Unit} :
    char c cs = .accepted u rest ↔ cs = c :: rest := by
  cases cs with
  | nil => simp [char]
  | cons d cs =>
    simp only [char]
    split
    · next same => simp [same]
    · next differs => simp [differs]

theorem advances_char (c : Char) : (char c).Advances := by
  intro cs value rest accepted
  obtain rfl := char_eq_iff.mp accepted
  exact ⟨List.suffix_cons _ _, Nat.lt_succ_self _⟩

theorem word_eq_iff {w cs rest : List Char} {u : Unit} :
    word w cs = .accepted u rest ↔ cs = w ++ rest := by
  unfold word
  split
  · next starts =>
    obtain ⟨rest', rfl⟩ := List.isPrefixOf_iff_prefix.mp starts
    simp
  · next starts =>
    simp only [reduceCtorEq, false_iff]
    rintro rfl
    exact starts (List.isPrefixOf_iff_prefix.mpr (List.prefix_append _ _))

theorem shrinks_word (w : List Char) : (word w).Shrinks := by
  intro cs value rest accepted
  obtain rfl := word_eq_iff.mp accepted
  exact List.suffix_append _ _

theorem advances_word {w : List Char} (nonempty : w ≠ []) : (word w).Advances := by
  intro cs value rest accepted
  obtain rfl := word_eq_iff.mp accepted
  refine ⟨List.suffix_append _ _, ?_⟩
  have := List.length_pos_iff.mpr nonempty
  rw [List.length_append]
  omega

theorem shrinks_spaces : spaces.Shrinks := by
  rintro cs _ _ ⟨⟩
  exact List.dropWhile_suffix _

theorem advances_takeWhile1 (test : Char → Bool) : (takeWhile1 test).Advances := by
  intro cs value rest accepted
  unfold takeWhile1 at accepted
  split at accepted
  · cases accepted
  · next nonempty =>
    cases accepted
    refine ⟨List.dropWhile_suffix _, ?_⟩
    have whole := congrArg List.length (List.takeWhile_append_dropWhile (p := test) (l := cs))
    have := List.length_pos_iff.mpr nonempty
    rw [List.length_append] at whole
    omega

theorem advances_spaces1 : spaces1.Advances :=
  (advances_takeWhile1 _).bind fun _ => shrinks_pure _

theorem advances_digits1 : digits1.Advances := advances_takeWhile1 _

section

variable {p p' : Parser α} {bound : Nat}

theorem Alike.spaced (alike : Alike true bound p p') :
    Alike true bound (Parser.spaced p) (Parser.spaced p') :=
  shrinks_spaces.alike.bind fun _ => alike.bind_first fun _ =>
    shrinks_spaces.alike.bind fun _ => (shrinks_pure _).alike

theorem Advances.spaced (advances : p.Advances) : (Parser.spaced p).Advances :=
  (advances.alike : Alike true 0 p p).spaced.advances

/-- A list of values, each after the first one behind a separator. -/
theorem Alike.separated {separator : Parser β} (alike : Alike true bound p p')
    (separates : separator.Advances) :
    Alike false bound (Parser.separated p separator) (Parser.separated p' separator) := by
  refine alike.optional.bind fun first => ?_
  cases first with
  | none => exact (shrinks_pure _).alike
  | some first =>
    have item : Alike false bound (separator >>= fun _ => p) (separator >>= fun _ => p') :=
      separates.alike.weaken.bind fun _ => alike.weaken
    exact item.many.bind fun _ => (shrinks_pure _).alike

end

end Parser

namespace Grammar

open Cascade.Parser

/-! ### Words and literals -/

theorem nameRest_suffix (cs : List Char) : (nameRest cs).2 <:+ cs := by
  induction cs with
  | nil => exact List.suffix_refl _
  | cons c rest ih =>
    rw [nameRest]
    split
    · exact ih.trans (List.suffix_cons _ _)
    · exact List.suffix_refl _

theorem advances_identifier : identifier.Advances := by
  refine (advances_satisfy _).bind fun first => ?_
  rintro cs _ _ ⟨⟩
  exact nameRest_suffix cs

theorem advances_keyword {w : String} (nonempty : w.toList ≠ []) : (keyword w).Advances := by
  refine (advances_word nonempty).bind fun _ => ?_
  intro cs value rest accepted
  simp only at accepted
  split at accepted
  · cases accepted
  · cases accepted
    exact List.suffix_refl _

theorem advances_pathSegment : pathSegment.Advances := by
  refine Advances.choose (List.forall_mem_cons.mpr ⟨advances_identifier, ?_⟩)
  exact List.forall_mem_cons.mpr ⟨advances_digits1.map, by simp⟩

theorem advances_fieldStep : fieldStep.Advances :=
  (advances_char '.').bind fun _ => advances_pathSegment.shrinks

theorem advances_comma : comma.Advances := (advances_char ',').spaced

theorem advances_closing (bracket : Char) : (closing bracket).Advances := by
  refine shrinks_spaces.bind_advances fun _ => ?_
  have last : (char ',' >>= fun _ => spaces).Shrinks :=
    (advances_char ',').shrinks.bind fun _ => shrinks_spaces
  exact last.optional.bind_advances fun _ => advances_char bracket

theorem advances_numberText : numberText.Advances := by
  refine advances_digits1.bind fun _ => ?_
  have fraction : (char '.' >>= fun _ => digits1).Shrinks :=
    (advances_char '.').shrinks.bind fun _ => advances_digits1.shrinks
  have sign : exponentSign.Shrinks := by
    refine Shrinks.choose (List.forall_mem_cons.mpr ⟨(advances_char '+').map.shrinks, ?_⟩)
    refine List.forall_mem_cons.mpr ⟨(advances_char '-').map.shrinks, ?_⟩
    exact List.forall_mem_cons.mpr ⟨shrinks_pure _, by simp⟩
  refine fraction.optional.bind fun _ => Shrinks.bind (Shrinks.optional ?_) fun _ => shrinks_pure _
  refine (advances_satisfy _).shrinks.bind fun _ => sign.bind fun _ => ?_
  exact advances_digits1.shrinks.bind fun _ => shrinks_pure _

theorem advances_number (negative : Bool) : (number negative).Advances := by
  refine advances_numberText.bind fun text => ?_
  cases text.literal? negative with
  | none => exact shrinks_fail
  | some literal => exact shrinks_pure _

theorem advances_stringChar : stringChar.Advances := by
  refine Advances.choose (List.forall_mem_cons.mpr ⟨?_, List.forall_mem_cons.mpr
    ⟨advances_satisfy _, by simp⟩⟩)
  refine (advances_char _).bind fun _ => Shrinks.choose fun p member => ?_
  simp only [List.mem_cons, List.not_mem_nil, or_false] at member
  rcases member with rfl | rfl | rfl | rfl | rfl <;> exact (advances_char _).map.shrinks

theorem advances_stringLiteral : stringLiteral.Advances :=
  (advances_char _).bind fun _ => advances_stringChar.shrinks.many.bind fun _ =>
    (advances_char _).shrinks.bind fun _ => shrinks_pure _

theorem advances_tagName : tagName.Advances := by
  refine advances_identifier.bind fun _ => ?_
  have number : (char '.' >>= fun _ => digits1).Shrinks :=
    (advances_char '.').shrinks.bind fun _ => advances_digits1.shrinks
  refine number.optional.bind fun digits => ?_
  cases digits <;> exact shrinks_pure _

theorem advances_reference : reference.Advances := by
  have tag : (tagName >>= fun name => word [':', ':'] >>= fun _ => pure name).Shrinks :=
    advances_tagName.shrinks.bind fun _ => (shrinks_word _).bind fun _ => shrinks_pure _
  refine tag.optional.bind_advances fun tag => ?_
  refine (advances_char '.').shrinks.optional.bind_advances fun absolute => ?_
  refine advances_identifier.bind fun first => ?_
  split
  · exact shrinks_fail
  · exact advances_fieldStep.shrinks.many.bind fun _ => shrinks_pure _

/-! ### Markers and merge forms -/

theorem advances_marker : marker.Advances := by
  refine (advances_char '&').bind fun _ => advances_identifier.shrinks.bind fun name => ?_
  cases MarkerId.ofName? name with
  | none => exact shrinks_fail
  | some id =>
    cases id with
    | tag => exact (advances_char ':').shrinks.bind fun _ =>
        advances_tagName.shrinks.bind fun _ => shrinks_pure _
    | _ => exact shrinks_pure _

theorem advances_mergePath : mergePath.Advances := by
  refine advances_identifier.bind fun first => ?_
  split
  · exact shrinks_fail
  · exact advances_fieldStep.shrinks.many.bind fun _ => shrinks_pure _

theorem advances_mergeFlag : mergeFlag.Advances := by
  refine advances_spaces1.bind fun _ => Shrinks.choose (List.forall_mem_cons.mpr
    ⟨(advances_keyword (by decide)).map.shrinks, List.forall_mem_cons.mpr
      ⟨(advances_keyword (by decide)).map.shrinks, by simp⟩⟩)

theorem advances_mergeForm : mergeForm.Advances := by
  refine (advances_keyword (by decide)).bind fun _ => shrinks_notFollowedBy.bind fun _ =>
    advances_mergeFlag.shrinks.many.bind fun _ => ?_
  refine Shrinks.bind (Shrinks.optional ?_) fun _ => Shrinks.bind (Shrinks.optional ?_) fun _ =>
    shrinks_pure _
  · exact advances_spaces1.shrinks.bind fun _ =>
      (advances_keyword (by decide)).shrinks.bind fun _ =>
      advances_spaces1.shrinks.bind fun _ => advances_identifier.shrinks
  · exact advances_spaces1.shrinks.bind fun _ => advances_mergePath.shrinks

/-! ### Rules -/

/-- The parsers of nested expressions agree on texts shorter than a bound. -/
structure Alike (bound : Nat) (g g' : Grammar) : Prop where
  expression : Parser.Alike true bound g.expression g'.expression
  conditional : Parser.Alike true bound g.conditional g'.conditional
  operand : Parser.Alike true bound g.operand g'.operand

namespace Alike

variable {g g' : Grammar} {bound : Nat} (alike : Alike bound g g')

include alike

theorem marked : Parser.Alike true (bound + 1) g.marked g'.marked := by
  refine advances_marker.alike.bind_strict fun _ => ?_
  refine Parser.Alike.bind ?_ fun _ => ?_
  · exact (shrinks_spaces.bind fun _ => advances_marker.shrinks).many.alike
  · exact (shrinks_spaces.alike.bind fun _ => alike.expression).optional.bind fun _ =>
      (shrinks_pure _).alike

theorem parameter : Parser.Alike true bound g.parameter g'.parameter := by
  refine advances_identifier.alike.bind_first fun name => ?_
  refine (shrinks_word _).optional.alike.bind fun variadic => ?_
  cases variadic with
  | some _ => exact (shrinks_pure _).alike
  | none =>
    exact ((advances_char '=').spaced.alike.bind_first fun _ =>
      alike.expression.weaken).optional.bind
      fun _ => (shrinks_pure _).alike

theorem lambda : Parser.Alike true (bound + 1) g.lambda g'.lambda := by
  have name : (keyword "lambda" >>= fun _ => spaces).Shrinks :=
    (advances_keyword (by decide)).shrinks.bind fun _ => shrinks_spaces
  refine name.optional.alike.bind fun _ => (advances_char '|').alike.bind_strict fun _ => ?_
  refine shrinks_spaces.alike.bind fun _ => (alike.parameter.separated advances_comma).bind
    fun _ => ?_
  refine shrinks_spaces.alike.bind fun _ => (advances_char '|').shrinks.alike.bind fun _ => ?_
  refine shrinks_spaces.alike.bind fun _ => (shrinks_word _).alike.bind fun _ => ?_
  exact shrinks_spaces.alike.bind fun _ => alike.expression.weaken.bind fun _ =>
    (shrinks_pure _).alike

theorem argument : Parser.Alike true bound g.argument g'.argument := by
  have assigns : assignment.Shrinks := shrinks_spaces.bind fun _ => (advances_char '=').shrinks.bind
    fun _ => shrinks_notFollowedBy.bind fun _ => shrinks_spaces
  have places : position.Advances := by
    refine advances_digits1.bind fun digits => ?_
    simp only
    split
    · exact shrinks_pure _
    · exact shrinks_fail
  refine .choose (.cons ?_ (.cons ?_ (.cons ?_ .nil)))
  · exact advances_identifier.alike.bind_first fun _ => assigns.alike.bind fun _ =>
      alike.expression.weaken.bind fun _ => (shrinks_pure _).alike
  · exact places.alike.bind_first fun _ => assigns.alike.bind fun _ =>
      alike.expression.weaken.bind fun _ => (shrinks_pure _).alike
  · exact alike.expression.bind_first fun _ => (shrinks_word _).optional.alike.bind fun _ =>
      (shrinks_pure _).alike

theorem arguments : Parser.Alike true (bound + 1) g.arguments g'.arguments := by
  refine (advances_char '(').alike.bind_strict fun _ => shrinks_spaces.alike.bind fun _ => ?_
  exact (alike.argument.separated advances_comma).bind fun _ =>
    (advances_closing ')').shrinks.alike.bind fun _ => (shrinks_pure _).alike

theorem indexBody : Parser.Alike false bound g.indexBody g'.indexBody := by
  have projects : (char '*' >>= fun _ => followedBy (spaces >>= fun _ => char ']')).Shrinks :=
    (advances_char '*').shrinks.bind fun _ => shrinks_followedBy
  refine projects.optional.alike.bind fun projection => ?_
  cases projection with
  | some _ => exact (shrinks_pure _).alike
  | none =>
    refine alike.expression.optional.bind fun start => ?_
    refine (advances_word (by decide)).spaced.shrinks.optional.alike.bind fun range => ?_
    cases range with
    | some _ => exact alike.expression.optional.bind fun _ => (shrinks_pure _).alike
    | none =>
      cases start with
      | some _ => exact (shrinks_pure _).alike
      | none => exact shrinks_fail.alike

theorem indexSuffix : Parser.Alike true (bound + 1) g.indexSuffix g'.indexSuffix :=
  (advances_char '[').alike.bind_strict fun _ => shrinks_spaces.alike.bind fun _ =>
    alike.indexBody.bind fun _ => shrinks_spaces.alike.bind fun _ =>
      (advances_char ']').shrinks.alike.bind fun _ => (shrinks_pure _).alike

theorem postfixForm : Parser.Alike true (bound + 1) g.postfixForm g'.postfixForm := by
  refine .choose (.cons ?_ (.cons ?_ (.cons ?_ (.cons ?_ .nil))))
  · exact alike.arguments.map
  · exact (advances_char '*').alike.bind_first fun _ => alike.arguments.map.weaken
  · exact (advances_char '.').shrinks.optional.alike.bind fun _ => alike.indexSuffix
  · exact advances_fieldStep.map.alike

theorem listLiteral : Parser.Alike true (bound + 1) g.listLiteral g'.listLiteral := by
  refine (advances_char '[').alike.bind_strict fun _ => shrinks_spaces.alike.bind fun _ => ?_
  refine alike.expression.optional.bind fun first => ?_
  cases first with
  | none => exact (advances_closing ']').shrinks.alike.bind fun _ => (shrinks_pure _).alike
  | some first =>
    refine Parser.Alike.bind ((advances_word (by decide)).spaced.alike.bind_first fun _ =>
      alike.expression.weaken.bind fun _ => shrinks_spaces.alike.bind fun _ =>
        (advances_char ']').shrinks.alike.bind fun _ => (shrinks_pure _).alike).optional
          fun range => ?_
    · cases range with
      | some stop => exact (shrinks_pure _).alike
      | none =>
        exact (advances_comma.alike.bind_first fun _ => alike.expression.weaken).many.bind fun _ =>
          (advances_closing ']').shrinks.alike.bind fun _ => (shrinks_pure _).alike

theorem mapEntry : Parser.Alike true bound g.mapEntry g'.mapEntry := by
  have key : (Parser.choose [stringLiteral, identifier]).Advances :=
    .choose (List.forall_mem_cons.mpr ⟨advances_stringLiteral,
      List.forall_mem_cons.mpr ⟨advances_identifier, by simp⟩⟩)
  exact key.alike.bind_first fun _ => (advances_satisfy _).spaced.shrinks.alike.bind fun _ =>
    alike.expression.weaken.bind fun _ => (shrinks_pure _).alike

theorem mapLiteral : Parser.Alike true (bound + 1) g.mapLiteral g'.mapLiteral :=
  (advances_char '{').alike.bind_strict fun _ => shrinks_spaces.alike.bind fun _ =>
    (alike.mapEntry.separated advances_comma).bind fun _ =>
      (advances_closing '}').shrinks.alike.bind fun _ => (shrinks_pure _).alike

theorem group : Parser.Alike true (bound + 1) g.group g'.group :=
  (advances_char '(').alike.bind_strict fun _ => shrinks_spaces.alike.bind fun _ =>
    alike.expression.weaken.bind fun _ => shrinks_spaces.alike.bind fun _ =>
      (advances_char ')').shrinks.alike.bind fun _ => (shrinks_pure _).alike

theorem mergeCall : Parser.Alike true (bound + 1) g.mergeCall g'.mergeCall :=
  (advances_word (by decide)).alike.bind_strict fun _ => shrinks_followedBy.alike.bind fun _ =>
    (alike.arguments.mono (Nat.le_succ _)).weaken.bind fun _ => (shrinks_pure _).alike

theorem primary : Parser.Alike true (bound + 1) g.primary g'.primary := by
  refine .choose (.cons (advances_number false).alike (.cons advances_stringLiteral.map.alike
    (.cons (advances_keyword (by decide)).map.alike (.cons (advances_keyword (by decide)).map.alike
      (.cons (advances_keyword (by decide)).map.alike (.cons (advances_word (by decide)).map.alike
        (.cons (advances_char '~').map.alike (.cons alike.listLiteral (.cons alike.mapLiteral
          (.cons alike.group (.cons alike.mergeCall (.cons ?_ .nil))))))))))))
  exact advances_reference.map.alike

theorem chain : Parser.Alike true (bound + 1) g.chain g'.chain := by
  refine alike.primary.bind_first fun e => ?_
  split
  · exact (shrinks_pure _).alike
  · exact alike.postfixForm.many.bind fun _ => (shrinks_pure _).alike

theorem operandRule : Parser.Alike true (bound + 1) g.operandRule g'.operandRule := by
  refine .choose (.cons ?_ (.cons ?_ (.cons alike.marked (.cons advances_mergeForm.alike
    (.cons (advances_keyword (by decide)).map.alike (.cons ?_ (.cons alike.lambda (.cons ?_
      (.cons alike.chain .nil)))))))))
  · exact (advances_char '!').alike.bind_strict fun _ => shrinks_spaces.alike.bind fun _ =>
      alike.operand.map.weaken
  · exact (advances_char '*').alike.bind_strict fun _ => alike.operand.map.weaken
  · exact (advances_keyword (by decide)).alike.bind_strict fun _ =>
      advances_spaces1.shrinks.alike.bind fun _ => alike.operand.map.weaken
  · exact (advances_char '-').alike.bind_strict fun _ => (advances_number true).shrinks.alike

end Alike

/-! ### Operators -/

section

variable {α : Type} {p p' : Parser Expr} {operator : Parser α} {bound : Nat}

theorem alike_joined (operand : Parser.Alike true bound p p') (operates : operator.Advances)
    (join : α → Expr → Expr → Expr) :
    Parser.Alike true bound (joined p operator join) (joined p' operator join) := by
  have tail : Parser.Alike true bound (operator >>= fun op => p >>= fun e => pure (op, e))
      (operator >>= fun op => p' >>= fun e => pure (op, e)) :=
    operates.alike.bind_first fun _ => operand.weaken.bind fun _ => (shrinks_pure _).alike
  exact operand.bind_first fun _ => tail.many.bind fun _ => (shrinks_pure _).alike

end

theorem advances_productOp : productOp.Advances := by
  refine Advances.spaced (.choose fun p member => ?_)
  simp only [List.mem_cons, List.not_mem_nil, or_false] at member
  rcases member with rfl | rfl | rfl <;> exact (advances_char _).map

theorem advances_logicWord : logicWord.Advances := by
  refine .choose fun p member => ?_
  simp only [List.mem_cons, List.not_mem_nil, or_false] at member
  rcases member with rfl | rfl <;> exact (advances_keyword (by decide)).map

theorem advances_sumOp : sumOp.Advances := by
  refine Advances.spaced (.choose (List.forall_mem_cons.mpr ⟨(advances_char _).map,
    List.forall_mem_cons.mpr ⟨?_, by simp⟩⟩))
  exact (advances_char _).bind fun _ => shrinks_notFollowedBy.bind fun _ => shrinks_pure _

theorem advances_comparisonOp : comparisonOp.Advances := by
  refine Advances.spaced (.choose fun p member => ?_)
  simp only [List.mem_cons, List.not_mem_nil, or_false] at member
  rcases member with rfl | rfl | rfl | rfl | rfl | rfl
  · exact (advances_word (by decide)).map
  · exact (advances_word (by decide)).map
  · exact (advances_word (by decide)).map
  · exact (advances_word (by decide)).map
  · exact (advances_char _).map
  · exact (advances_char _).map

theorem advances_logicOp : logicOp.Advances :=
  advances_spaces1.bind fun _ => (advances_char _).shrinks.bind fun _ =>
    advances_logicWord.shrinks.bind fun _ => advances_spaces1.shrinks.bind fun _ => shrinks_pure _

namespace Alike

variable {g g' : Grammar} {bound : Nat} (alike : Alike bound g g')

include alike

theorem product : Parser.Alike true (bound + 1) g.product g'.product :=
  alike_joined alike.operandRule advances_productOp _

theorem sum : Parser.Alike true (bound + 1) g.sum g'.sum :=
  alike_joined alike.product advances_sumOp _

theorem comparison : Parser.Alike true (bound + 1) g.comparison g'.comparison := by
  refine alike.sum.bind_first fun lhs => ?_
  refine (advances_comparisonOp.alike.bind_first fun _ => alike.sum.weaken.bind fun _ =>
    (shrinks_pure _).alike).optional.bind fun rest => ?_
  cases rest <;> exact (shrinks_pure _).alike

theorem logical : Parser.Alike true (bound + 1) g.logical g'.logical :=
  alike_joined alike.comparison advances_logicOp _

theorem concatenation : Parser.Alike true (bound + 1) g.concatenation g'.concatenation :=
  alike_joined alike.logical advances_spaces1 _

theorem conditionalRule : Parser.Alike true (bound + 1) g.conditionalRule g'.conditionalRule := by
  refine alike.concatenation.bind_first fun condition => ?_
  refine Parser.Alike.bind ((advances_char '?').spaced.alike.bind_strict fun _ =>
    alike.expression.weaken.bind fun _ => (advances_char ':').spaced.shrinks.alike.bind fun _ =>
      alike.conditional.weaken.bind fun _ => (shrinks_pure _).alike).optional fun branches => ?_
  · cases branches <;> exact (shrinks_pure _).alike

theorem fallback : Parser.Alike true (bound + 1) g.fallback g'.fallback :=
  alike_joined alike.conditionalRule (advances_word (by decide)).spaced _

theorem nested : Alike (bound + 1) ⟨g.fallback, g.conditionalRule, g.operandRule⟩
    ⟨g'.fallback, g'.conditionalRule, g'.operandRule⟩ :=
  ⟨alike.fallback, alike.conditionalRule, alike.operandRule⟩

end Alike

/-! ### The grammar without a bound -/

theorem alike_ofDepth {depth depth' : Nat} (le : depth ≤ depth') :
    Alike depth (ofDepth depth) (ofDepth depth') := by
  induction depth generalizing depth' with
  | zero =>
    exact ⟨⟨fun _ h => absurd h (Nat.not_lt_zero _), shrinks_fail, fun _ => advances_fail⟩,
      ⟨fun _ h => absurd h (Nat.not_lt_zero _), shrinks_fail, fun _ => advances_fail⟩,
      ⟨fun _ h => absurd h (Nat.not_lt_zero _), shrinks_fail, fun _ => advances_fail⟩⟩
  | succ depth ih =>
    obtain ⟨more, rfl⟩ := Nat.exists_eq_add_of_le' le
    exact (ih (Nat.le_add_left depth more)).nested

/-- The grammar in which expressions nest as deeply as the text is long. -/
def full : Grammar where
  expression cs := (ofDepth (cs.length + 1)).expression cs
  conditional cs := (ofDepth (cs.length + 1)).conditional cs
  operand cs := (ofDepth (cs.length + 1)).operand cs

theorem alike_full (depth : Nat) : Alike depth (ofDepth depth) full := by
  have self : Alike depth (ofDepth depth) (ofDepth depth) := alike_ofDepth (Nat.le_refl _)
  have deeper : ∀ {cs : List Char}, cs.length < depth →
      Alike (cs.length + 1) (ofDepth (cs.length + 1)) (ofDepth depth) := fun short =>
    alike_ofDepth short
  refine ⟨⟨fun cs short => ?_, self.expression.suffix, self.expression.shorter⟩,
    ⟨fun cs short => ?_, self.conditional.suffix, self.conditional.shorter⟩,
    ⟨fun cs short => ?_, self.operand.suffix, self.operand.shorter⟩⟩
  · exact ((deeper short).expression.same cs (Nat.lt_succ_self _)).symm
  · exact ((deeper short).conditional.same cs (Nat.lt_succ_self _)).symm
  · exact ((deeper short).operand.same cs (Nat.lt_succ_self _)).symm

theorem full_expression : full.expression = full.fallback :=
  funext fun cs => (alike_full cs.length).fallback.same cs (Nat.lt_succ_self _)

theorem full_conditional : full.conditional = full.conditionalRule :=
  funext fun cs => (alike_full cs.length).conditionalRule.same cs (Nat.lt_succ_self _)

theorem full_operand : full.operand = full.operandRule :=
  funext fun cs => (alike_full cs.length).operandRule.same cs (Nat.lt_succ_self _)

theorem alike_self : Alike 0 full full := by
  have shrinking : ∀ {p : Parser Expr}, (∀ cs value rest, p cs = .accepted value rest →
      rest <:+ cs ∧ rest.length < cs.length) → Parser.Alike true 0 p p := fun h => Advances.alike h
  exact ⟨shrinking fun cs => ((alike_ofDepth (Nat.le_refl (cs.length + 1))).expression.advances cs),
    shrinking fun cs => ((alike_ofDepth (Nat.le_refl (cs.length + 1))).conditional.advances cs),
    shrinking fun cs => ((alike_ofDepth (Nat.le_refl (cs.length + 1))).operand.advances cs)⟩

end Grammar

end Cascade
