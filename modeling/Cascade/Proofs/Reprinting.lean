import Cascade.Proofs.Stopping

/-!
# Reading printed operands

An operand reads back from its printed form if what is nested in it does: each of its forms prints
to a text of the same form. Signs, words, markers and literals come first; the later modules add
what stands in brackets and behind operands.

## Main definitions

* `Expr.Faithful`: the node prints as it was read.
* `Grammar.Ends`: where an expression ends in a printed text.
* `Grammar.Reprinted`, `Grammar.ReadsBackBelow`: expressions that read back from their printed form.

## Main statements

* `Grammar.operandRule_printed_literal`: a printed literal is read back before a delimiter.
* `Grammar.reprint_marked`, `Grammar.reprint_merge`: markers and merge forms read back.
* `Grammar.ReadsItems.separated`: items between commas read back.
-/

namespace Cascade

/-- The node prints as it was read: a float literal reads back, and no merge form that a name would
continue stands before a literal that prints as a word. -/
def Expr.Faithful : Expr → Prop
  | .float x => Grammar.ReadsBack x
  | e => e.Apart

namespace Grammar

open Cascade.Parser

/-! ### Texts after printed expressions -/

/-- What follows an expression in a printed text continues it in no new way; a name could continue
a merge form at its end. -/
structure Ends (e : Expr) (rest rest' : List Char) : Prop extends Stops rest rest' where
  name : e.endsOn = true → namePart.Accepts rest' → namePart.Accepts rest

/-- The text delimits an expression and continues none. -/
structure Closed (cs : List Char) : Prop where
  delimited : Delimited cs
  closes : closes (cs.dropWhile Blank.isSpacing) = true

theorem Closed.ends {cs : List Char} (closed : Closed cs) (e : Expr) (rest : List Char) :
    Ends e rest cs where
  toStops := stops_of_closes closed.delimited closed.closes
  name _ accepts := absurd accepts (not_accepts_namePart_of_closes closed.closes)

/-- The text of an expression and its printed form start with the same operand. -/
structure SameStart (cs : List Char) (e : Expr) (text : List Char) : Prop where
  operand : ∃ o left left', full.operandRule cs = .accepted o left ∧
    full.operandRule text = .accepted o left' ∧ text = o.print ++ left' ∧
    (o = .nil → e.startsNil = true) ∧ ∀ x, o = .float x → ReadsBack x

/-- The expression reads back from its printed form before the text. -/
structure Reprinted (p : Parser Expr) (cs : List Char) (e : Expr) (rest' : List Char) : Prop where
  accepted : p (e.print ++ rest') = .accepted e rest'
  start : SameStart cs e (e.print ++ rest')

/-- Expressions that were read from texts shorter than the bound read back. -/
def ReadsBackBelow (p : Parser Expr) (bound : Nat) : Prop :=
  ∀ cs e rest, cs.length < bound → p cs = .accepted e rest → e.Everywhere Expr.Faithful →
    ∀ rest', Ends e rest rest' → Reprinted p cs e rest'

theorem SameStart.opens {cs text : List Char} {e : Expr} (same : SameStart cs e text) :
    opens text = true := by
  obtain ⟨o, left, left', -, printed, -⟩ := same.operand
  exact opens_of_accepts (accepts_of_eq printed)

theorem SameStart.unspaced {cs text : List Char} {e : Expr} (same : SameStart cs e text) :
    Unspaced text := unspaced_of_opens same.opens

theorem SameStart.of_startsNil {cs text : List Char} {e e' : Expr} (start : SameStart cs e text)
    (same : e.startsNil = true → e'.startsNil = true) : SameStart cs e' text := by
  obtain ⟨o, left, left', read, printed, shape, isNil, floats⟩ := start.operand
  exact ⟨o, left, left', read, printed, shape, fun literal => same (isNil literal), floats⟩

/-! ### Operands from their forms -/

section

variable {cs left rest : List Char} {e o : Expr}

/-- The first alternatives start with signs. -/
theorem operandRule_of_unsigned (unsigned : ∀ c left, cs = c :: left → c ∉ ['!', '*', '&'])
    (accepted : Parser.choose [mergeForm, (fun _ => .auto) <$> keyword "auto",
      (do keyword "prefer"; spaces1; Expr.prefer <$> full.operand), full.lambda,
      (do char '-'; number true), full.chain] cs = .accepted e rest) :
    full.operandRule cs = .accepted e rest := by
  refine choose_cons_eq_iff.mpr (.inr ⟨?_, choose_cons_eq_iff.mpr (.inr ⟨?_, choose_cons_eq_iff.mpr
    (.inr ⟨?_, accepted⟩)⟩)⟩)
  · intro accepts
    obtain ⟨left, rfl⟩ := head_of_accepts_char accepts
    exact unsigned _ _ rfl (by decide)
  · intro accepts
    obtain ⟨left, rfl⟩ := head_of_accepts_char accepts
    exact unsigned _ _ rfl (by decide)
  · rintro ⟨_, _, form⟩
    obtain ⟨_, _, _, _, _, read, -⟩ := marked_eq_iff.mp form
    obtain ⟨left, rfl⟩ := accepts_marker_head (accepts_of_eq read)
    exact unsigned _ _ rfl (by decide)

theorem unsigned_of_identifier {s : String} (named : identifier cs = .accepted s left) :
    ∀ c left, cs = c :: left → c ∉ ['!', '*', '&'] := by
  rintro c left rfl member
  simp only [List.mem_cons, List.not_mem_nil, or_false] at member
  rcases member with rfl | rfl | rfl <;> cases named

theorem not_accepts_keyword {α : Type} {w s : String} {f : Unit → Parser α} (isName : IsName w)
    (named : identifier cs = .accepted s left) (other : s ≠ w) : ¬(keyword w >>= f).Accepts cs := by
  intro accepts
  obtain ⟨_, left', word, -⟩ := accepts_bind_iff.mp accepts
  exact other (Parsed.accepted.inj (named.symm.trans ((keyword_eq_iff isName).mp word))).1

theorem not_accepts_mergeForm {s : String} (named : identifier cs = .accepted s left)
    (other : s ≠ "merge") : ¬mergeForm.Accepts cs := not_accepts_keyword isName_merge named other

theorem operandRule_not (solid : Unspaced left)
    (operand : full.operandRule left = .accepted o rest) :
    full.operandRule ('!' :: left) = .accepted (.not o) rest := by
  refine choose_cons_eq_iff.mpr (.inl (char_bind_eq_iff.mpr ⟨left, rfl, spaces_bind_eq_iff.mpr ?_⟩))
  rw [solid]
  exact map_eq_iff.mpr ⟨o, by rwa [full_operand], rfl⟩

theorem operandRule_substitution (operand : full.operandRule left = .accepted o rest) :
    full.operandRule ('*' :: left) = .accepted (.substitution o) rest := by
  refine choose_cons_eq_iff.mpr (.inr ⟨?_, choose_cons_eq_iff.mpr (.inl (char_bind_eq_iff.mpr
    ⟨left, rfl, map_eq_iff.mpr ⟨o, by rwa [full_operand], rfl⟩⟩))⟩)
  intro accepts
  obtain ⟨_, ⟨⟩⟩ := head_of_accepts_char accepts

theorem operandRule_marked (form : full.marked ('&' :: left) = .accepted e rest) :
    full.operandRule ('&' :: left) = .accepted e rest := by
  refine choose_cons_eq_iff.mpr (.inr ⟨?_, choose_cons_eq_iff.mpr (.inr ⟨?_, choose_cons_eq_iff.mpr
    (.inl form)⟩)⟩)
  · intro accepts
    obtain ⟨_, ⟨⟩⟩ := head_of_accepts_char accepts
  · intro accepts
    obtain ⟨_, ⟨⟩⟩ := head_of_accepts_char accepts

theorem operandRule_merge (form : mergeForm cs = .accepted e rest) :
    full.operandRule cs = .accepted e rest := by
  obtain ⟨_, _, _, _, _, _, -, word, -⟩ := mergeForm_eq_iff.mp form
  exact operandRule_of_unsigned (unsigned_of_identifier word) (choose_cons_eq_iff.mpr (.inl form))

theorem operandRule_auto (word : identifier cs = .accepted "auto" rest) :
    full.operandRule cs = .accepted .auto rest :=
  operandRule_of_unsigned (unsigned_of_identifier word) (choose_cons_eq_iff.mpr (.inr
    ⟨not_accepts_mergeForm word (by decide), choose_cons_eq_iff.mpr (.inl (map_eq_iff.mpr
      ⟨(), (keyword_eq_iff isName_auto).mpr word, rfl⟩))⟩))

theorem operandRule_prefer (word : identifier cs = .accepted "prefer" (' ' :: left))
    (solid : Unspaced left) (operand : full.operandRule left = .accepted o rest) :
    full.operandRule cs = .accepted (.prefer o) rest := by
  refine operandRule_of_unsigned (unsigned_of_identifier word) (choose_cons_eq_iff.mpr (.inr
    ⟨not_accepts_mergeForm word (by decide), choose_cons_eq_iff.mpr (.inr ⟨?_,
      choose_cons_eq_iff.mpr (.inl (bind_eq_iff.mpr ⟨(), _, (keyword_eq_iff isName_prefer).mpr word,
        bind_eq_iff.mpr ⟨(), left, spaces1_space solid, map_eq_iff.mpr
          ⟨o, by rwa [full_operand], rfl⟩⟩⟩))⟩)⟩))
  exact not_accepts_keyword isName_auto word (by decide)

/-- After the words, lambdas, signed numbers and chains are left. -/
theorem operandRule_of_unnamed (unsigned : ∀ c left, cs = c :: left → c ∉ ['!', '*', '&'])
    (unmerged : ¬mergeForm.Accepts cs) (unnamed : nameAt cs ≠ some "auto")
    (unpreferred : ∀ left, identifier cs = .accepted "prefer" left → ¬spaces1.Accepts left)
    (accepted : Parser.choose [full.lambda, (do char '-'; number true), full.chain] cs =
    .accepted e rest) :
    full.operandRule cs = .accepted e rest := by
  refine operandRule_of_unsigned unsigned (choose_cons_eq_iff.mpr (.inr ⟨unmerged,
    choose_cons_eq_iff.mpr (.inr ⟨?_, choose_cons_eq_iff.mpr (.inr ⟨?_, accepted⟩)⟩)⟩))
  · rw [accepts_map_iff, accepts_keyword_iff isName_auto]
    rintro ⟨left, word⟩
    exact unnamed (nameAt_of_identifier word)
  · rw [accepts_bind_iff]
    rintro ⟨_, left, word, accepts⟩
    obtain ⟨_, left', spacing, -⟩ := accepts_bind_iff.mp accepts
    exact unpreferred left ((keyword_eq_iff isName_prefer).mp word) (accepts_of_eq spacing)

theorem operandRule_of_sign {c : Char} (sign : c ∈ ['|', '-'])
    (accepted : Parser.choose [full.lambda, (do char '-'; number true), full.chain] (c :: left) =
      .accepted e rest) : full.operandRule (c :: left) = .accepted e rest := by
  have signs : c = '|' ∨ c = '-' := by simpa using sign
  have unnamed : ∀ {s left'}, identifier (c :: left) ≠ .accepted s left' := by
    intro s left' named
    rcases signs with rfl | rfl <;> cases named
  refine operandRule_of_unnamed ?_ ?_ ?_ ?_ accepted
  · rintro _ _ ⟨⟩ member
    rcases signs with rfl | rfl <;> exact absurd member (by decide)
  · rintro ⟨_, _, form⟩
    obtain ⟨_, _, _, _, _, _, -, word, -⟩ := mergeForm_eq_iff.mp form
    exact unnamed word
  · intro named
    obtain ⟨_, word⟩ := nameAt_eq_some_iff.mp named
    exact unnamed word
  · intro _ word
    exact absurd word unnamed

theorem operandRule_lambda {params : List Parameter} {body : Expr}
    (form : LambdaForm left params body rest) :
    full.operandRule ('|' :: left) = .accepted (.lambda ⟨params, body⟩) rest := by
  refine operandRule_of_sign (by decide) (choose_cons_eq_iff.mpr (.inl (lambda_eq_iff.mpr
    ⟨none, left, params, body, optional_eq_none_iff.mpr ⟨?_, rfl⟩, form, rfl⟩)))
  intro accepts
  obtain ⟨_, left', word, -⟩ := accepts_bind_iff.mp accepts
  cases (keyword_eq_iff isName_lambda).mp word

theorem operandRule_negative (form : number true left = .accepted e rest) :
    full.operandRule ('-' :: left) = .accepted e rest := by
  refine operandRule_of_sign (by decide) (choose_cons_eq_iff.mpr (.inr ⟨?_, choose_cons_eq_iff.mpr
    (.inl (char_bind_eq_iff.mpr ⟨left, rfl, form⟩))⟩))
  intro accepts
  rcases lambda_head accepts with ⟨_, ⟨⟩⟩ | ⟨_, _, word, -⟩
  cases word

theorem operandRule_chain (isOpen : opensPrimary cs = true) (unmerged : ¬mergeForm.Accepts cs)
    (unnamed : nameAt cs ≠ some "auto")
    (followed : ∀ s left, identifier cs = .accepted s left → s = "prefer" ∨ s = "lambda" →
      ¬spaces1.Accepts left ∧ ∀ left', left.dropWhile Blank.isSpacing ≠ '|' :: left')
    (form : full.chain cs = .accepted e rest) : full.operandRule cs = .accepted e rest := by
  have unsigned : ∀ c left, cs = c :: left → c ∉ ['!', '*', '&', '|', '-'] := by
    rintro c left rfl member
    simp only [List.mem_cons, List.not_mem_nil, or_false] at member
    rcases member with rfl | rfl | rfl | rfl | rfl <;> cases isOpen
  refine operandRule_of_unnamed (fun c left same member => unsigned c left same ?_) unmerged unnamed
    (fun left word => (followed _ _ word (.inl rfl)).1) (choose_cons_eq_iff.mpr (.inr ⟨?_,
      choose_cons_eq_iff.mpr (.inr ⟨?_, form⟩)⟩))
  · simp only [List.mem_cons, List.not_mem_nil, or_false] at member ⊢
    tauto
  · intro accepts
    rcases lambda_head accepts with ⟨_, head⟩ | ⟨_, _, word, bar⟩
    · exact unsigned _ _ head (by decide)
    · exact (followed _ _ word (.inr rfl)).2 _ bar
  · intro accepts
    obtain ⟨_, head⟩ := head_of_accepts_char accepts
    exact unsigned _ _ head (by decide)

end

/-! ### Operands without postfix forms from their forms -/

section

variable {cs left rest : List Char} {e : Expr}

theorem not_accepts_number_of_nameAt {s : String} {negative : Bool} (named : nameAt cs = some s) :
    ¬(number negative).Accepts cs := by
  intro accepts
  obtain ⟨c, left, rfl, digit⟩ := number_head accepts
  rw [nameAt_digit digit] at named
  cases named

/-- The parser starts with the character. -/
theorem not_accepts_of_head {α β : Type} {c : Char} {f : Unit → Parser α} {g : α → β}
    (other : ∀ left, cs ≠ c :: left) : ¬(g <$> (char c >>= f)).Accepts cs := by
  rw [accepts_map_iff]
  intro accepts
  obtain ⟨left, same⟩ := head_of_accepts_char accepts
  exact other left same

/-- After numbers, strings and words, signs and brackets are left. -/
theorem primary_of_unnamed (undigited : ∀ c left, cs = c :: left → c.isDigit = false)
    (unquoted : ∀ left, cs ≠ '"' :: left)
    (unnamed : nameAt cs ≠ some "true" ∧ nameAt cs ≠ some "false" ∧ nameAt cs ≠ some "nil")
    (accepted : Parser.choose [(fun _ => .undefined) <$> word "~~".toList,
      (fun _ => .nil) <$> char '~', full.listLiteral, full.mapLiteral, full.group, full.mergeCall,
      Expr.reference <$> reference] cs = .accepted e rest) :
    full.primary cs = .accepted e rest := by
  have unworded : ∀ {w : String} {f : Unit → Expr}, IsName w → nameAt cs ≠ some w →
      ¬(f <$> keyword w).Accepts cs := by
    intro w f isName other
    rw [accepts_map_iff, accepts_keyword_iff isName]
    rintro ⟨left, word⟩
    exact other (nameAt_of_identifier word)
  refine choose_cons_eq_iff.mpr (.inr ⟨?_, choose_cons_eq_iff.mpr (.inr ⟨?_, choose_cons_eq_iff.mpr
    (.inr ⟨unworded isName_true unnamed.1, choose_cons_eq_iff.mpr (.inr
      ⟨unworded isName_false unnamed.2.1, choose_cons_eq_iff.mpr (.inr
        ⟨unworded isName_nil unnamed.2.2, accepted⟩)⟩)⟩)⟩)⟩)
  · intro accepts
    obtain ⟨c, left, same, digit⟩ := number_head accepts
    rw [undigited c left same] at digit
    cases digit
  · exact not_accepts_of_head unquoted

/-- The same for texts that start with one of the signs and brackets. -/
theorem primary_of_sign {c : Char} (sign : c ∈ ['~', '[', '{', '('])
    (accepted : Parser.choose [(fun _ => .undefined) <$> word "~~".toList,
      (fun _ => .nil) <$> char '~', full.listLiteral, full.mapLiteral, full.group, full.mergeCall,
      Expr.reference <$> reference] (c :: left) = .accepted e rest) :
    full.primary (c :: left) = .accepted e rest := by
  have signs : c = '~' ∨ c = '[' ∨ c = '{' ∨ c = '(' := by simpa using sign
  have unnamed : nameAt (c :: left) = none := by
    rcases signs with rfl | rfl | rfl | rfl <;> exact nameAt_cons rfl _
  refine primary_of_unnamed ?_ ?_ ?_ accepted
  · rintro _ _ ⟨⟩
    rcases signs with rfl | rfl | rfl | rfl <;> rfl
  · rintro _ ⟨⟩
    exact absurd sign (by decide)
  · rw [unnamed]
    exact ⟨by rintro ⟨⟩, by rintro ⟨⟩, by rintro ⟨⟩⟩

theorem primary_string {s : String} (form : stringLiteral ('"' :: left) = .accepted s rest) :
    full.primary ('"' :: left) = .accepted (.string s) rest := by
  refine choose_cons_eq_iff.mpr (.inr ⟨?_, choose_cons_eq_iff.mpr (.inl (map_eq_iff.mpr
    ⟨s, form, rfl⟩))⟩)
  intro accepts
  obtain ⟨c, left, ⟨⟩, digit⟩ := number_head accepts
  cases digit

theorem not_accepts_string_of_nameAt {s : String} (named : nameAt cs = some s) {f : String → Expr} :
    ¬(f <$> stringLiteral).Accepts cs := by
  refine not_accepts_of_head ?_
  rintro left rfl
  cases named

theorem primary_bool (value : Bool)
    (word : identifier cs = .accepted (if value then "true" else "false") rest) :
    full.primary cs = .accepted (.bool value) rest := by
  have named := nameAt_of_identifier word
  refine choose_cons_eq_iff.mpr (.inr ⟨not_accepts_number_of_nameAt named, choose_cons_eq_iff.mpr
    (.inr ⟨not_accepts_string_of_nameAt named, ?_⟩)⟩)
  cases value with
  | true =>
    exact choose_cons_eq_iff.mpr
      (.inl (map_eq_iff.mpr ⟨(), (keyword_eq_iff isName_true).mpr word, rfl⟩))
  | false =>
    refine choose_cons_eq_iff.mpr (.inr ⟨?_, choose_cons_eq_iff.mpr (.inl (map_eq_iff.mpr
      ⟨(), (keyword_eq_iff isName_false).mpr word, rfl⟩))⟩)
    exact not_accepts_keyword isName_true word (by decide)

theorem primary_nil (word : identifier cs = .accepted "nil" rest) :
    full.primary cs = .accepted .nil rest := by
  have named := nameAt_of_identifier word
  refine choose_cons_eq_iff.mpr (.inr ⟨not_accepts_number_of_nameAt named, choose_cons_eq_iff.mpr
    (.inr ⟨not_accepts_string_of_nameAt named, choose_cons_eq_iff.mpr (.inr ⟨?_,
      choose_cons_eq_iff.mpr (.inr ⟨?_, choose_cons_eq_iff.mpr (.inl (map_eq_iff.mpr
        ⟨(), (keyword_eq_iff isName_nil).mpr word, rfl⟩))⟩)⟩)⟩)⟩)
  · exact not_accepts_keyword isName_true word (by decide)
  · exact not_accepts_keyword isName_false word (by decide)

theorem primary_undefined : full.primary ('~' :: '~' :: rest) = .accepted .undefined rest :=
  primary_of_sign (by decide) (choose_cons_eq_iff.mpr (.inl (map_eq_iff.mpr
    ⟨(), word_eq_iff.mpr rfl, rfl⟩)))

/-- After the two literals that start with a tilde, brackets, calls and references are left. -/
theorem choose_untilded {α : Type} {f g : Unit → α} {parsers : List (Parser α)} {value : α}
    (untilded : ∀ left, cs ≠ '~' :: left)
    (accepted : Parser.choose parsers cs = .accepted value rest) :
    Parser.choose ((f <$> word "~~".toList) :: (g <$> char '~') :: parsers) cs =
      .accepted value rest := by
  refine choose_cons_eq_iff.mpr (.inr ⟨?_, choose_cons_eq_iff.mpr (.inr ⟨?_, accepted⟩)⟩)
  · rw [accepts_map_iff]
    rintro ⟨_, left, head⟩
    exact untilded _ (word_eq_iff.mp head)
  · rw [accepts_map_iff]
    rintro ⟨_, left, head⟩
    exact untilded _ (char_eq_iff.mp head)

theorem primary_list (form : full.listLiteral ('[' :: left) = .accepted e rest) :
    full.primary ('[' :: left) = .accepted e rest :=
  primary_of_sign (by decide)
    (choose_untilded (by rintro _ ⟨⟩) (choose_cons_eq_iff.mpr (.inl form)))

theorem not_accepts_list (other : ∀ left, cs ≠ '[' :: left) : ¬full.listLiteral.Accepts cs := by
  intro accepts
  obtain ⟨left, same⟩ := head_of_accepts_char accepts
  exact other left same

theorem not_accepts_map (other : ∀ left, cs ≠ '{' :: left) : ¬full.mapLiteral.Accepts cs := by
  intro accepts
  obtain ⟨left, same⟩ := head_of_accepts_char accepts
  exact other left same

theorem not_accepts_group (other : ∀ left, cs ≠ '(' :: left) : ¬full.group.Accepts cs := by
  intro accepts
  obtain ⟨left, same⟩ := head_of_accepts_char accepts
  exact other left same

theorem primary_map (form : full.mapLiteral ('{' :: left) = .accepted e rest) :
    full.primary ('{' :: left) = .accepted e rest :=
  primary_of_sign (by decide) (choose_untilded (by rintro _ ⟨⟩) (choose_cons_eq_iff.mpr (.inr
    ⟨not_accepts_list (by rintro _ ⟨⟩), choose_cons_eq_iff.mpr (.inl form)⟩)))

theorem primary_group (form : full.group ('(' :: left) = .accepted e rest) :
    full.primary ('(' :: left) = .accepted e rest :=
  primary_of_sign (by decide) (choose_untilded (by rintro _ ⟨⟩) (choose_cons_eq_iff.mpr (.inr
    ⟨not_accepts_list (by rintro _ ⟨⟩), choose_cons_eq_iff.mpr (.inr
      ⟨not_accepts_map (by rintro _ ⟨⟩), choose_cons_eq_iff.mpr (.inl form)⟩)⟩)))

/-- Texts that start with a name or a point start with no sign or bracket. -/
theorem primary_of_name (start : identifier.Accepts cs ∨ ∃ left, cs = '.' :: left)
    (unnamed : nameAt cs ≠ some "true" ∧ nameAt cs ≠ some "false" ∧ nameAt cs ≠ some "nil")
    (accepted : Parser.choose [full.mergeCall, Expr.reference <$> reference] cs =
      .accepted e rest) : full.primary cs = .accepted e rest := by
  have head : ∀ c left, cs = c :: left → Expr.isNameStart c = true ∨ c = '.' := by
    rintro c left rfl
    rcases start with named | ⟨_, ⟨⟩⟩
    · obtain ⟨_, _, ⟨⟩, start⟩ := accepts_identifier_iff.mp named
      exact .inl start
    · exact .inr rfl
  have unsigned : ∀ {d : Char}, Expr.isNameStart d = false → d ≠ '.' → ∀ left, cs ≠ d :: left := by
    intro d other other' left same
    rcases head d left same with start | point
    · rw [other] at start
      cases start
    · exact other' point
  refine primary_of_unnamed (fun c left same => ?_) (unsigned (by decide) (by decide)) unnamed
    (choose_untilded (unsigned (by decide) (by decide)) (choose_cons_eq_iff.mpr (.inr
      ⟨not_accepts_list (unsigned (by decide) (by decide)), choose_cons_eq_iff.mpr (.inr
        ⟨not_accepts_map (unsigned (by decide) (by decide)), choose_cons_eq_iff.mpr (.inr
          ⟨not_accepts_group (unsigned (by decide) (by decide)), accepted⟩)⟩)⟩)))
  rcases head c left same with start | rfl
  · have undigited : Undigited [c] := undigited_of_isNameStart start
    refine Bool.eq_false_iff.mpr fun digit => ?_
    rw [Undigited, List.takeWhile_cons_of_pos digit] at undigited
    cases undigited
  · rfl

theorem primary_mergeCall (form : full.mergeCall cs = .accepted e rest) :
    full.primary cs = .accepted e rest := by
  obtain ⟨left, word⟩ := identifier_mergeCall (accepts_of_eq form)
  refine primary_of_name (.inl (accepts_of_eq word)) ?_ (choose_cons_eq_iff.mpr (.inl form))
  rw [nameAt_of_identifier word]
  exact ⟨by decide, by decide, by decide⟩

theorem primary_reference {r : Reference}
    (unnamed : nameAt cs ≠ some "true" ∧ nameAt cs ≠ some "false" ∧ nameAt cs ≠ some "nil")
    (uncalled : nameAt cs ≠ some "merge") (form : reference cs = .accepted r rest) :
    full.primary cs = .accepted (.reference r) rest := by
  refine primary_of_name ?_ unnamed
    (choose_cons_eq_iff.mpr (.inr ⟨?_, map_eq_iff.mpr ⟨r, form, rfl⟩⟩))
  · exact (reference_head (accepts_of_eq form)).imp id fun ⟨left, same, _⟩ => ⟨left, same⟩
  · intro accepts
    obtain ⟨left, word⟩ := identifier_mergeCall accepts
    exact uncalled (nameAt_of_identifier word)

/-- A literal operand. -/
theorem operandRule_literal (literal : e.isLiteral = true)
    (primary : full.primary cs = .accepted e rest)
    (unworded : ∀ s left, identifier cs = .accepted s left →
      s ∉ ["merge", "auto", "prefer", "lambda"]) : full.operandRule cs = .accepted e rest := by
  refine operandRule_chain (opensPrimary_of_accepts (accepts_of_eq primary)) ?_ ?_ ?_
    (chain_eq_iff.mpr ⟨e, rest, primary, .inl ⟨literal, rfl, rfl⟩⟩)
  · rintro ⟨_, _, form⟩
    obtain ⟨_, _, _, _, _, _, -, word, -⟩ := mergeForm_eq_iff.mp form
    exact unworded _ _ word (by decide)
  · intro named
    obtain ⟨left, word⟩ := nameAt_eq_some_iff.mp named
    exact unworded _ _ word (by decide)
  · rintro s left word (rfl | rfl) <;> exact absurd (unworded _ _ word) (by decide)

end

/-! ### Literals -/

section

variable {cs rest rest' : List Char} {e : Expr}

theorem isLiteral_of_number {negative : Bool} (form : number negative cs = .accepted e rest) :
    e.isLiteral = true := by
  obtain ⟨t, -, literal⟩ := number_eq_iff.mp form
  rcases literal?_cases literal with ⟨-, -, -, rfl⟩ | ⟨-, _, _, rfl⟩ <;> rfl

theorem operandRule_number (form : number false cs = .accepted e rest) :
    full.operandRule cs = .accepted e rest := by
  obtain ⟨c, left, rfl, digit⟩ := number_head (accepts_of_eq form)
  refine operandRule_literal (isLiteral_of_number form) (choose_cons_eq_iff.mpr (.inl form)) ?_
  intro s left' word
  have unnamed := nameAt_digit digit left
  rw [nameAt_of_identifier word] at unnamed
  cases unnamed

/-- A printed int is read back. -/
theorem operandRule_int (n : Int64) (delimited : Delimited rest') :
    full.operandRule (Expr.printInt n ++ rest') = .accepted (.int n) rest' := by
  have fits : FitsInt n.toInt := ⟨Int64.le_toInt n, Int64.toInt_lt n⟩
  rw [printInt_eq]
  by_cases below : n.toInt < 0
  · have value : signedInt true n.toInt.natAbs = n.toInt := by
      change -(n.toInt.natAbs : Int) = n.toInt
      omega
    rw [if_pos below]
    have read :=
      number_toDigits true (by rwa [value] : FitsInt (signedInt true n.toInt.natAbs)) delimited
    rw [value, Int64.ofInt_toInt] at read
    exact operandRule_negative read
  · have value : signedInt false n.toInt.natAbs = n.toInt := by
      change (n.toInt.natAbs : Int) = n.toInt
      omega
    rw [if_neg below]
    have read :=
      number_toDigits false (by rwa [value] : FitsInt (signedInt false n.toInt.natAbs)) delimited
    rw [value, Int64.ofInt_toInt] at read
    exact operandRule_number read

/-- A printed float that reads back is read back. -/
theorem operandRule_float {x : Float} (readsBack : ReadsBack x) (delimited : Delimited rest') :
    full.operandRule ((Notation.literal.write x).toList ++ rest') = .accepted (.float x) rest' := by
  obtain ⟨text, written, read⟩ := readsBack
  have whole := number_append read delimited
  rw [written]
  cases sign : Binary64.isNegative x with
  | true =>
    rw [sign] at whole
    exact operandRule_negative whole
  | false =>
    rw [sign] at whole
    exact operandRule_number whole

theorem operandRule_string (s : String) :
    full.operandRule (Expr.quote s ++ rest') = .accepted (.string s) rest' := by
  refine operandRule_literal rfl (primary_string (stringLiteral_quote s rest')) ?_
  intro _ _ word
  cases word

theorem operandRule_word {w : String} (literal : e.isLiteral = true)
    (unworded : w ∉ ["merge", "auto", "prefer", "lambda"])
    (word : identifier cs = .accepted w rest) (primary : full.primary cs = .accepted e rest) :
    full.operandRule cs = .accepted e rest := by
  refine operandRule_literal literal primary ?_
  intro s left word'
  cases word.symm.trans word'
  exact unworded

/-- A printed literal is read back before a delimiter. -/
theorem operandRule_printed_literal (literal : e.isLiteral = true)
    (floats : ∀ x, e = .float x → ReadsBack x) (delimited : Delimited rest') :
    full.operandRule (e.print ++ rest') = .accepted e rest' := by
  have ends := delimited.continuesName
  cases e with
  | nil =>
    have word := isName_nil.identifier_append ends
    exact operandRule_word rfl (by decide) word (primary_nil word)
  | undefined =>
    refine operandRule_literal rfl primary_undefined ?_
    intro _ _ word
    cases word
  | bool value =>
    cases value with
    | true =>
      have word := isName_true.identifier_append ends
      exact operandRule_word rfl (by decide) word (primary_bool true word)
    | false =>
      have word := isName_false.identifier_append ends
      exact operandRule_word rfl (by decide) word (primary_bool false word)
  | int n => exact operandRule_int n delimited
  | float x => exact operandRule_float (floats x rfl) delimited
  | string s => exact operandRule_string s
  | _ => cases literal

end

/-! ### Simple forms -/

theorem Ends.of_eq {e e' : Expr} {rest rest' : List Char} (ends : Ends e rest rest')
    (same : e'.endsOn = true → e.endsOn = true) : Ends e' rest rest' :=
  ⟨ends.toStops, fun on => ends.name (same on)⟩

section

variable {bound : Nat} {cs left left' rest rest' : List Char} {e o : Expr}

theorem reprint_not (nested : ReadsBackBelow full.operandRule bound)
    (short : (left.dropWhile Blank.isSpacing).length < bound)
    (operand : full.operandRule (left.dropWhile Blank.isSpacing) = .accepted o rest)
    (faithful : (Expr.not o).Everywhere Expr.Faithful) (ends : Ends (.not o) rest rest') :
    full.operandRule ((Expr.not o).print ++ rest') = .accepted (.not o) rest' := by
  have inner := nested _ _ _ short operand faithful.2 rest' (ends.of_eq id)
  exact operandRule_not inner.start.unspaced inner.accepted

theorem reprint_substitution (nested : ReadsBackBelow full.operandRule bound)
    (short : left.length < bound) (operand : full.operandRule left = .accepted o rest)
    (faithful : (Expr.substitution o).Everywhere Expr.Faithful)
    (ends : Ends (.substitution o) rest rest') :
    full.operandRule ((Expr.substitution o).print ++ rest') = .accepted (.substitution o) rest' :=
  operandRule_substitution (nested _ _ _ short operand faithful.2 rest' (ends.of_eq id)).accepted

theorem reprint_prefer (nested : ReadsBackBelow full.operandRule bound)
    (short : left.length < bound) (operand : full.operandRule left = .accepted o rest)
    (faithful : (Expr.prefer o).Everywhere Expr.Faithful) (ends : Ends (.prefer o) rest rest') :
    full.operandRule ((Expr.prefer o).print ++ rest') = .accepted (.prefer o) rest' := by
  have inner := nested _ _ _ short operand faithful.2 rest' (ends.of_eq id)
  have text : (Expr.prefer o).print ++ rest' = "prefer".toList ++ ' ' :: (o.print ++ rest') := by
    rw [Expr.print_prefer]
    rfl
  rw [text]
  exact operandRule_prefer (isName_prefer.identifier_append rfl) inner.start.unspaced inner.accepted

theorem reprint_auto (ends : Ends .auto rest rest') :
    full.operandRule (Expr.auto.print ++ rest') = .accepted .auto rest' :=
  operandRule_auto (isName_auto.identifier_append ends.delimited.continuesName)

theorem reprint_merge (form : mergeForm cs = .accepted e rest) (ends : Ends e rest rest') :
    full.operandRule (e.print ++ rest') = .accepted e rest' := by
  obtain ⟨_, _, _, _, _, _, rfl, -⟩ := mergeForm_eq_iff.mp form
  exact operandRule_merge (mergeForm_print form ends.delimited ends.path ends.name)

/-! ### Markers -/

theorem advances_expression : full.expression.Advances := alike_self.expression.advances

theorem advances_nextMarker : nextMarker.Advances :=
  shrinks_spaces.bind_advances fun _ => advances_marker

/-- Markers behind spaces. -/
def markerForms (markers : List Marker) : List Char :=
  markers.flatMap fun m => ' ' :: m.render.toList

theorem print_markers (first : Marker) (more : List Marker) (inner : Option Expr) :
    (Expr.marked (first :: more) inner).print =
      first.render.toList ++ (markerForms more ++ Expr.printMarked inner) := by
  have joined : ∀ (more : List Marker) (first : Marker),
      (" ".intercalate ((first :: more).map Marker.render)).toList =
        first.render.toList ++ markerForms more := by
    intro more
    induction more with
    | nil => simp [markerForms]
    | cons second more ih =>
      intro first
      rw [List.map_cons, List.map_cons, String.intercalate_cons_cons, String.toList_append,
        String.toList_append, ← List.map_cons, ih]
      simp [markerForms]
  rw [Expr.print_marked, joined, List.append_assoc]

theorem markerForms_cons (m : Marker) (more : List Marker) (rest : List Char) :
    markerForms (m :: more) ++ rest = ' ' :: (m.render.toList ++ (markerForms more ++ rest)) := by
  simp [markerForms]

theorem accepts_marked_of_marker (accepts : marker.Accepts cs) : full.operandRule.Accepts cs := by
  obtain ⟨m, left, accepted⟩ := accepts
  obtain ⟨left', rfl⟩ := accepts_marker_head (accepts_of_eq accepted)
  obtain ⟨more, left'', more'⟩ : (many nextMarker).Accepts left := accepts_many
  obtain ⟨inner, rest, inner'⟩ : (optional annotated).Accepts left'' := accepts_optional
  exact ⟨_, _, operandRule_marked (marked_eq_iff.mpr ⟨m, more, inner, left, left'', accepted, more',
    inner', rfl⟩)⟩

/-- Markers are read back before a text that starts with no further one. -/
theorem many_nextMarker_forms {markers : List Marker}
    (read : many nextMarker left = .accepted markers left') (ends : continuesName rest' = false)
    (stops : ¬fractionPart.Accepts rest') (last : ¬nextMarker.Accepts rest') :
    many nextMarker (markerForms markers ++ rest') = .accepted markers rest' := by
  induction markers generalizing left with
  | nil => exact many_of_not_accepts last
  | cons m markers ih =>
    obtain ⟨middle, first, later⟩ := advances_nextMarker.many_eq_cons_iff.mp read
    have first' := spaces_bind_eq_iff.mp first
    rw [markerForms_cons]
    refine advances_nextMarker.many_eq_cons_iff.mpr ⟨markerForms markers ++ rest', ?_, ih later⟩
    have follows : continuesName (markerForms markers ++ rest') = false ∧
        ¬fractionPart.Accepts (markerForms markers ++ rest') := by
      cases markers with
      | nil => exact ⟨ends, stops⟩
      | cons m markers =>
        rw [markerForms_cons]
        refine ⟨rfl, fun accepts => ?_⟩
        obtain ⟨_, ⟨⟩⟩ := head_of_accepts_char accepts
    have again := marker_append first' follows.1 follows.2
    obtain ⟨text, head⟩ := accepts_marker_head (accepts_of_eq again)
    refine spaces_bind_eq_iff.mpr ?_
    rw [head] at again ⊢
    exact again

theorem not_accepts_nextMarker_of_annotated (unopened : ¬(follow spaces).Accepts rest') :
    ¬nextMarker.Accepts rest' := by
  rintro ⟨m, left, accepted⟩
  exact unopened (accepts_follow_spaces_iff.mpr
    (accepts_marked_of_marker ⟨m, left, spaces_bind_eq_iff.mp accepted⟩))

theorem accepts_annotated_iff : annotated.Accepts cs ↔ (follow spaces).Accepts cs := by
  rw [accepts_follow_spaces_iff, ← accepts_expression_iff]
  constructor
  · rintro ⟨e, rest, accepted⟩
    exact ⟨e, rest, spaces_bind_eq_iff.mp accepted⟩
  · rintro ⟨e, rest, accepted⟩
    exact ⟨e, rest, spaces_bind_eq_iff.mpr accepted⟩

theorem reprint_marked (nested : ReadsBackBelow full.expression bound)
    (short : cs.length < bound + 1)
    (form : full.marked cs = .accepted e rest) (faithful : e.Everywhere Expr.Faithful)
    (ends : Ends e rest rest') : full.operandRule (e.print ++ rest') = .accepted e rest' := by
  obtain ⟨first, more, inner, left, left', read, read', read'', rfl⟩ := marked_eq_iff.mp form
  -- What follows the markers is read back, and no marker is taken from it.
  have last : optional annotated (Expr.printMarked inner ++ rest') = .accepted inner rest' ∧
      Delimited (Expr.printMarked inner ++ rest') ∧
      ¬nextMarker.Accepts (Expr.printMarked inner ++ rest') := by
    cases inner with
    | none =>
      obtain ⟨unannotated, rfl⟩ := optional_eq_none_iff.mp read''
      have unopened : ¬(follow spaces).Accepts rest' := fun accepts =>
        unannotated (accepts_annotated_iff.mpr (ends.annotated accepts))
      exact ⟨optional_eq_none_iff.mpr
        ⟨fun accepts => unopened (accepts_annotated_iff.mp accepts), rfl⟩,
        ends.delimited, not_accepts_nextMarker_of_annotated unopened⟩
    | some inner =>
      have source := spaces_bind_eq_iff.mp (optional_eq_some_iff.mp read'')
      have shorter : (left'.dropWhile Blank.isSpacing).length < bound := by
        have step := (advances_marker _ _ _ read).2
        have steps := (advances_nextMarker.shrinks.many _ _ _ read').length_le
        have skip := (List.dropWhile_suffix Blank.isSpacing (l := left')).length_le
        omega
      have again := nested _ _ _ shorter source faithful.2 rest' (ends.of_eq id)
      have solid := again.start.unspaced
      refine ⟨optional_eq_some_iff.mpr (spaces_bind_eq_iff.mpr ?_),
        by simp [Expr.printMarked, Delimited],
        ?_⟩
      · change full.expression ((' ' :: (inner.print ++ rest')).dropWhile Blank.isSpacing) = _
        rw [List.dropWhile_cons_of_pos rfl, solid]
        exact again.accepted
      · rintro ⟨m, text, accepted⟩
        have marked := spaces_bind_eq_iff.mp accepted
        change marker ((' ' :: (inner.print ++ rest')).dropWhile Blank.isSpacing) = _ at marked
        rw [List.dropWhile_cons_of_pos rfl, solid] at marked
        obtain ⟨o, _, _, source', printed, -⟩ := again.start.operand
        obtain ⟨text', head⟩ := accepts_marker_head (accepts_of_eq marked)
        rw [head] at printed
        cases signForm_of_eq (by decide) printed with
        | marked form' =>
          obtain ⟨_, _, _, _, _, -, -, -, rfl⟩ := marked_eq_iff.mp form'
          obtain ⟨m', after, accepted'⟩ := marked_source source'
          exact advances_nextMarker.many_stops read' ⟨m', after, spaces_bind_eq_iff.mpr accepted'⟩
  obtain ⟨lastRead, delimited, unmarked⟩ := last
  have stops := not_accepts_fraction_of_fieldStep delimited.not_accepts_fieldStep
  have markers := many_nextMarker_forms read' delimited.continuesName stops unmarked
  have follows : continuesName (markerForms more ++ (Expr.printMarked inner ++ rest')) = false ∧
      ¬fractionPart.Accepts (markerForms more ++ (Expr.printMarked inner ++ rest')) := by
    cases more with
    | nil => exact ⟨delimited.continuesName, stops⟩
    | cons m more =>
      rw [markerForms_cons]
      refine ⟨rfl, fun accepts => ?_⟩
      obtain ⟨_, ⟨⟩⟩ := head_of_accepts_char accepts
  have again := marker_append read follows.1 follows.2
  obtain ⟨text, head⟩ := accepts_marker_head (accepts_of_eq again)
  rw [print_markers, List.append_assoc, List.append_assoc]
  rw [head] at again ⊢
  exact operandRule_marked
    (marked_eq_iff.mpr ⟨first, more, inner, _, _, again, markers, lastRead, rfl⟩)

end

/-! ### Items between commas -/

/-- Items behind the first one, each behind a comma. -/
def commaTail {α : Type} (print : α → List Char) (xs : List α) : List Char :=
  xs.flatMap fun x => ',' :: ' ' :: print x

theorem commaTail_cons {α : Type} (print : α → List Char) (x : α) (xs : List α) (rest : List Char) :
    commaTail print (x :: xs) ++ rest = ',' :: ' ' ::
    (print x ++ (commaTail print xs ++ rest)) := by
  simp [commaTail]

/-- What may follow an item: a comma, a closing bracket or a bar. -/
structure ItemEnd (cs : List Char) : Prop extends Closed cs where
  unpointed : ∀ left, cs ≠ '.' :: left

theorem closed_of_head {c : Char} (solid : Blank.isSpacing c = false)
    (delimits : Delimited (c :: cs))
    (closing : closes (c :: cs) = true) : Closed (c :: cs) :=
  ⟨delimits, by rwa [unspaced_cons solid]⟩

theorem itemEnd_of_head {c : Char} (member : c ∈ [',', ']', ')', '}']) (cs : List Char) :
    ItemEnd (c :: cs) := by
  simp only [List.mem_cons, List.not_mem_nil, or_false] at member
  rcases member with rfl | rfl | rfl | rfl <;>
    exact ⟨closed_of_head rfl (by simp [Delimited]) rfl, by rintro _ ⟨⟩⟩

theorem itemEnd_bar (cs : List Char) : ItemEnd ('|' :: '-' :: cs) :=
  ⟨closed_of_head rfl (by simp [Delimited]) rfl, by rintro _ ⟨⟩⟩

theorem itemEnd_brace (cs : List Char) : ItemEnd (' ' :: '}' :: cs) :=
  ⟨⟨by simp [Delimited], rfl⟩, by rintro _ ⟨⟩⟩

theorem closed_points (cs : List Char) : Closed ('.' :: '.' :: cs) := closed_of_head rfl rfl rfl

/-- The parser of items reads back those that stood before the bound. -/
def ReadsItems {α : Type} (p : Parser α) (print : α → List Char) (good : α → Prop) (bound : Nat) :
    Prop :=
  ∀ cs x rest, cs.length < bound → p cs = .accepted x rest → good x → ∀ rest', ItemEnd rest' →
    p (print x ++ rest') = .accepted x rest' ∧ Unspaced (print x ++ rest')

section

variable {α : Type} {p : Parser α} {print : α → List Char} {good : α → Prop} {bound : Nat}

theorem comma_cons {rest : List Char} (solid : Unspaced rest) :
    comma (',' :: ' ' :: rest) = .accepted () rest := by
  refine spaced_eq_iff.mpr ⟨' ' :: rest, char_eq_iff.mpr rfl, ?_⟩
  rw [List.dropWhile_cons_of_pos rfl, solid]

theorem not_accepts_comma {rest : List Char}
    (other : ∀ left, rest.dropWhile Blank.isSpacing ≠ ',' :: left) :
    ¬comma.Accepts rest := by
  rintro ⟨_, left, accepted⟩
  obtain ⟨left', head, -⟩ := spaced_eq_iff.mp accepted
  exact other left' (char_eq_iff.mp head)

theorem itemEnd_commaTail {xs : List α} {rest : List Char} (ends : ItemEnd rest) :
    ItemEnd (commaTail print xs ++ rest) := by
  cases xs with
  | nil => exact ends
  | cons x xs =>
    rw [commaTail_cons]
    exact itemEnd_of_head (by decide) _

/-- Items behind commas are read back. -/
theorem ReadsItems.many (items : ReadsItems p print good bound) (advances : p.Advances)
    {xs : List α}
    {cs rest rest' : List Char} (short : cs.length < bound)
    (read : many (do let _ ← comma; p) cs = .accepted xs rest) (each : ∀ x ∈ xs, good x)
    (ends : ItemEnd rest') (last : ∀ left, rest'.dropWhile Blank.isSpacing ≠ ',' :: left) :
    Parser.many (do let _ ← comma; p) (commaTail print xs ++ rest') = .accepted xs rest' := by
  have next : Advances (do let _ ← comma; p) := advances_comma.bind fun _ => advances.shrinks
  induction xs generalizing cs with
  | nil =>
    refine many_of_not_accepts fun accepts => ?_
    obtain ⟨_, left, accepted, -⟩ := accepts_bind_iff.mp accepts
    exact not_accepts_comma last (accepts_of_eq accepted)
  | cons x xs ih =>
    obtain ⟨middle, first, later⟩ := next.many_eq_cons_iff.mp read
    obtain ⟨good', each'⟩ := List.forall_mem_cons.mp each
    obtain ⟨_, left, separator, item⟩ := bind_eq_iff.mp first
    have shorter := (advances_comma _ _ _ separator).2
    have shorter' := (next _ _ _ first).2
    have follows : ItemEnd (commaTail print xs ++ rest') := itemEnd_commaTail ends
    obtain ⟨again, solid⟩ := items _ _ _ (by omega) item good' _ follows
    rw [commaTail_cons]
    exact next.many_eq_cons_iff.mpr ⟨commaTail print xs ++ rest',
      bind_eq_iff.mpr ⟨(), _, comma_cons solid, again⟩, ih (by omega) later each'⟩

/-- The text of items between commas. -/
def commaText (print : α → List Char) : List α → List Char
  | [] => []
  | x :: xs => print x ++ commaTail print xs

/-- Items between commas are read back. -/
theorem ReadsItems.separated (items : ReadsItems p print good bound) (advances : p.Advances)
    {xs : List α} {cs rest rest' : List Char} (short : cs.length < bound)
    (read : separated p comma cs = .accepted xs rest) (each : ∀ x ∈ xs, good x)
    (ends : ItemEnd rest')
    (last : ∀ left, rest'.dropWhile Blank.isSpacing ≠ ',' :: left) (refuses : ¬p.Accepts rest') :
    Parser.separated p comma (commaText print xs ++ rest') = .accepted xs rest' ∧
      (xs ≠ [] → Unspaced (commaText print xs ++ rest')) := by
  rcases separated_eq_iff.mp read with ⟨-, rfl, -⟩ | ⟨x, xs, left, first, more, rfl⟩
  · exact ⟨separated_eq_iff.mpr (.inl ⟨refuses, rfl, rfl⟩), fun some => absurd rfl some⟩
  · obtain ⟨good', each'⟩ := List.forall_mem_cons.mp each
    have shorter := (advances _ _ _ first).2
    have follows : ItemEnd (commaTail print xs ++ rest') := itemEnd_commaTail ends
    obtain ⟨again, solid⟩ := items _ _ _ short first good' _ follows
    have text : commaText print (x :: xs) ++ rest' = print x ++ (commaTail print xs ++ rest') :=
      List.append_assoc ..
    rw [text]
    exact ⟨separated_eq_iff.mpr (.inr ⟨x, xs, _, again,
      items.many advances (by omega) more each' ends last, rfl⟩), fun _ => solid⟩

end

theorem printItems_eq (items : List Expr) : Expr.printItems items = commaText Expr.print items := by
  cases items with
  | nil => rfl
  | cons e items =>
    induction items generalizing e with
    | nil => exact (List.append_nil _).symm
    | cons e' items ih =>
      change e.print ++ ',' :: ' ' :: Expr.printItems (e' :: items) = _
      rw [ih]
      rfl

theorem printEntries_eq (entries : List (String × Expr)) : Expr.printEntries entries =
    commaText (fun entry => Expr.printKey entry.1 ++ " = ".toList ++ entry.2.print) entries := by
  cases entries with
  | nil => rfl
  | cons entry entries =>
    induction entries generalizing entry with
    | nil => exact (List.append_nil _).symm
    | cons entry' entries ih =>
      change Expr.printKey entry.1 ++ " = ".toList ++ entry.2.print ++ ',' :: ' ' ::
        Expr.printEntries (entry' :: entries) = _
      rw [ih]
      rfl

theorem printArguments_eq (args : List Argument) :
    Expr.printArguments args = commaText Expr.printArgument args := by
  cases args with
  | nil => rfl
  | cons a args =>
    induction args generalizing a with
    | nil => exact (List.append_nil _).symm
    | cons a' args ih =>
      change Expr.printArgument a ++ ',' :: ' ' :: Expr.printArguments (a' :: args) = _
      rw [ih]
      rfl

theorem printParameters_eq (params : List Parameter) :
    Expr.printParameters params = commaText Expr.printParameter params := by
  cases params with
  | nil => rfl
  | cons p params =>
    induction params generalizing p with
    | nil => exact (List.append_nil _).symm
    | cons p' params ih =>
      change Expr.printParameter p ++ ',' :: ' ' :: Expr.printParameters (p' :: params) = _
      rw [ih]
      rfl

theorem closing_bracket {b : Char} (other : b ≠ ',') {cs rest : List Char}
    (bracket : cs.dropWhile Blank.isSpacing = b :: rest) :
    closing b cs = .accepted () rest := by
  refine spaces_bind_eq_iff.mpr (bind_eq_iff.mpr ⟨none, b :: rest, ?_, char_eq_iff.mpr rfl⟩)
  rw [bracket]
  refine optional_eq_none_iff.mpr ⟨fun accepts => ?_, rfl⟩
  obtain ⟨left, same⟩ := head_of_accepts_char accepts
  exact other (List.cons.inj same).1

end Grammar

end Cascade
