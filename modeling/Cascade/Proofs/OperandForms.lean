import Cascade.Proofs.Tokens

/-!
# The forms of operands

How an operand starts decides which form it has. The name at the start of an operand can be told
from its tree, unless the operand is a lambda or the literal that has two spellings.

## Main definitions

* `Grammar.OperandForm`, `Grammar.PrimaryForm`: what an accepted operand looks like.
* `Grammar.opens`: how an operand may start.
* `Expr.leading`: the name that an operand starts with.

## Main statements

* `Grammar.operandForm_of_eq`, `Grammar.primaryForm_of_eq`.
* `Grammar.opens_of_accepts`: an accepted operand starts so.
* `Grammar.nameAt_operand`: the name at the start of an operand.
-/

namespace Cascade

namespace Grammar

open Cascade.Parser

/-! ### Forms -/

/-- What an accepted operand looks like. -/
inductive OperandForm (cs : List Char) : Expr → List Char → Prop
  | not {left rest o} (head : cs = '!' :: left)
      (operand : full.operandRule (left.dropWhile Blank.isSpacing) = .accepted o rest) :
      OperandForm cs (.not o) rest
  | substitution {left rest o} (head : cs = '*' :: left)
      (operand : full.operandRule left = .accepted o rest) : OperandForm cs (.substitution o) rest
  | marked {e rest} (form : full.marked cs = .accepted e rest) : OperandForm cs e rest
  | merge {e rest} (form : mergeForm cs = .accepted e rest) : OperandForm cs e rest
  | auto {rest} (word : identifier cs = .accepted "auto" rest) : OperandForm cs .auto rest
  | prefer {left left' rest o} (word : identifier cs = .accepted "prefer" left)
      (spacing : spaces1 left = .accepted () left')
      (operand : full.operandRule left' = .accepted o rest) : OperandForm cs (.prefer o) rest
  | lambda {e rest} (form : full.lambda cs = .accepted e rest) : OperandForm cs e rest
  | negative {left e rest} (head : cs = '-' :: left) (form : number true left = .accepted e rest) :
      OperandForm cs e rest
  | chain {e rest} (unmerged : ¬mergeForm.Accepts cs) (named : nameAt cs ≠ some "auto")
      (form : full.chain cs = .accepted e rest) : OperandForm cs e rest

theorem operandForm_of_eq {cs rest : List Char} {e : Expr}
    (accepted : full.operandRule cs = .accepted e rest) : OperandForm cs e rest := by
  rcases choose_cons_eq_iff.mp accepted with found | ⟨-, accepted⟩
  · obtain ⟨_, left, head, later⟩ := bind_eq_iff.mp found
    obtain ⟨_, _, ⟨⟩, last⟩ := bind_eq_iff.mp later
    obtain ⟨o, operand, rfl⟩ := map_eq_iff.mp last
    exact .not (char_eq_iff.mp head) (by rwa [full_operand] at operand)
  rcases choose_cons_eq_iff.mp accepted with found | ⟨-, accepted⟩
  · obtain ⟨_, left, head, later⟩ := bind_eq_iff.mp found
    obtain ⟨o, operand, rfl⟩ := map_eq_iff.mp later
    exact .substitution (char_eq_iff.mp head) (by rwa [full_operand] at operand)
  rcases choose_cons_eq_iff.mp accepted with found | ⟨-, accepted⟩
  · exact .marked found
  rcases choose_cons_eq_iff.mp accepted with found | ⟨unmerged, accepted⟩
  · exact .merge found
  rcases choose_cons_eq_iff.mp accepted with found | ⟨unnamed, accepted⟩
  · obtain ⟨_, word, rfl⟩ := map_eq_iff.mp found
    exact .auto ((keyword_eq_iff isName_auto).mp word)
  rcases choose_cons_eq_iff.mp accepted with found | ⟨-, accepted⟩
  · obtain ⟨_, left, word, later⟩ := bind_eq_iff.mp found
    obtain ⟨_, left', spacing, last⟩ := bind_eq_iff.mp later
    obtain ⟨o, operand, rfl⟩ := map_eq_iff.mp last
    exact .prefer ((keyword_eq_iff isName_prefer).mp word) spacing
      (by rwa [full_operand] at operand)
  rcases choose_cons_eq_iff.mp accepted with found | ⟨-, accepted⟩
  · exact .lambda found
  rcases choose_cons_eq_iff.mp accepted with found | ⟨-, accepted⟩
  · obtain ⟨_, left, head, form⟩ := bind_eq_iff.mp found
    exact .negative (char_eq_iff.mp head) form
  · refine .chain unmerged ?_ accepted
    intro named
    obtain ⟨left, word⟩ := nameAt_eq_some_iff.mp named
    exact unnamed (accepts_map_iff.mpr ⟨(), left, (keyword_eq_iff isName_auto).mpr word⟩)

/-- What an accepted operand without postfix forms looks like. -/
inductive PrimaryForm (cs : List Char) : Expr → List Char → Prop
  | number {e rest} (form : number false cs = .accepted e rest) : PrimaryForm cs e rest
  | string {s rest} (form : stringLiteral cs = .accepted s rest) : PrimaryForm cs (.string s) rest
  | bool {rest} (value : Bool)
      (word : identifier cs = .accepted (if value then "true" else "false") rest) :
      PrimaryForm cs (.bool value) rest
  | nil {rest} (word : identifier cs = .accepted "nil" rest) : PrimaryForm cs .nil rest
  | undefined {rest} (text : cs = '~' :: '~' :: rest) : PrimaryForm cs .undefined rest
  | tilde {rest} (head : cs = '~' :: rest) : PrimaryForm cs .nil rest
  | list {e rest} (form : full.listLiteral cs = .accepted e rest) : PrimaryForm cs e rest
  | map {e rest} (form : full.mapLiteral cs = .accepted e rest) : PrimaryForm cs e rest
  | group {e rest} (form : full.group cs = .accepted e rest) : PrimaryForm cs e rest
  | mergeCall {e rest} (form : full.mergeCall cs = .accepted e rest) : PrimaryForm cs e rest
  | reference {r rest} (word : nameAt cs ≠ some "true" ∧ nameAt cs ≠ some "false" ∧
      nameAt cs ≠ some "nil") (form : reference cs = .accepted r rest) :
      PrimaryForm cs (.reference r) rest

theorem primaryForm_of_eq {cs rest : List Char} {e : Expr}
    (accepted : full.primary cs = .accepted e rest) : PrimaryForm cs e rest := by
  have unnamed : ∀ {w : String} {f : Unit → Expr}, IsName w → ¬(f <$> keyword w).Accepts cs →
      nameAt cs ≠ some w := by
    intro w f isName refused named
    obtain ⟨left, word⟩ := nameAt_eq_some_iff.mp named
    exact refused (accepts_map_iff.mpr ⟨(), left, (keyword_eq_iff isName).mpr word⟩)
  rcases choose_cons_eq_iff.mp accepted with found | ⟨-, accepted⟩
  · exact .number found
  rcases choose_cons_eq_iff.mp accepted with found | ⟨-, accepted⟩
  · obtain ⟨s, form, rfl⟩ := map_eq_iff.mp found
    exact .string form
  rcases choose_cons_eq_iff.mp accepted with found | ⟨notTrue, accepted⟩
  · obtain ⟨_, word, rfl⟩ := map_eq_iff.mp found
    exact .bool true ((keyword_eq_iff isName_true).mp word)
  rcases choose_cons_eq_iff.mp accepted with found | ⟨notFalse, accepted⟩
  · obtain ⟨_, word, rfl⟩ := map_eq_iff.mp found
    exact .bool false ((keyword_eq_iff isName_false).mp word)
  rcases choose_cons_eq_iff.mp accepted with found | ⟨notNil, accepted⟩
  · obtain ⟨_, word, rfl⟩ := map_eq_iff.mp found
    exact .nil ((keyword_eq_iff isName_nil).mp word)
  rcases choose_cons_eq_iff.mp accepted with found | ⟨-, accepted⟩
  · obtain ⟨_, text, rfl⟩ := map_eq_iff.mp found
    exact .undefined (word_eq_iff.mp text)
  rcases choose_cons_eq_iff.mp accepted with found | ⟨-, accepted⟩
  · obtain ⟨_, head, rfl⟩ := map_eq_iff.mp found
    exact .tilde (char_eq_iff.mp head)
  rcases choose_cons_eq_iff.mp accepted with found | ⟨-, accepted⟩
  · exact .list found
  rcases choose_cons_eq_iff.mp accepted with found | ⟨-, accepted⟩
  · exact .map found
  rcases choose_cons_eq_iff.mp accepted with found | ⟨-, accepted⟩
  · exact .group found
  rcases choose_cons_eq_iff.mp accepted with found | ⟨-, accepted⟩
  · exact .mergeCall found
  · obtain ⟨r, form, rfl⟩ := map_eq_iff.mp accepted
    exact .reference ⟨unnamed rfl notTrue, unnamed rfl notFalse, unnamed rfl notNil⟩ form

/-! ### How operands start -/

/-- An operand without postfix forms may start so. -/
def opensPrimary : List Char → Bool
  | [] => false
  | '.' :: rest => rest.head?.any Expr.isNameStart
  | c :: _ => ['"', '~', '[', '{', '('].contains c || Expr.isNameStart c || c.isDigit

/-- An operand may start so. -/
def opens : List Char → Bool
  | [] => false
  | '-' :: rest => rest.head?.any Char.isDigit
  | c :: rest => ['!', '*', '&', '|'].contains c || opensPrimary (c :: rest)

theorem opens_of_opensPrimary {cs : List Char} (isOpen : opensPrimary cs = true) :
    opens cs = true := by
  unfold opens
  split
  · cases isOpen
  · cases isOpen
  · rw [isOpen, Bool.or_true]

theorem opensPrimary_of_identifier {cs : List Char} (accepts : identifier.Accepts cs) :
    opensPrimary cs = true := by
  obtain ⟨c, rest, rfl, start⟩ := accepts_identifier_iff.mp accepts
  unfold opensPrimary
  split
  · next same => cases same
  · next same =>
    cases same
    exact absurd start (by decide)
  · next same =>
    cases same
    rw [start, Bool.or_true, Bool.true_or]

theorem opens_of_identifier {cs : List Char} (accepts : identifier.Accepts cs) : opens cs = true :=
  opens_of_opensPrimary (opensPrimary_of_identifier accepts)

theorem number_head {negative : Bool} {cs : List Char} (accepts : (number negative).Accepts cs) :
    ∃ c rest, cs = c :: rest ∧ c.isDigit = true := by
  obtain ⟨e, rest, accepted⟩ := accepts
  obtain ⟨t, read, -⟩ := number_eq_iff.mp accepted
  obtain ⟨left, -, digits, -⟩ := numberText_eq_iff.mp read
  obtain ⟨nonempty, digital, rfl, -⟩ := digits1_eq_iff.mp digits
  cases whole : t.whole with
  | nil => exact absurd whole nonempty
  | cons c cs => exact ⟨c, cs ++ left, rfl, digital c (by rw [whole]; exact List.mem_cons_self ..)⟩

theorem opensPrimary_of_digit {c : Char} {rest : List Char} (digit : c.isDigit = true) :
    opensPrimary (c :: rest) = true := by
  unfold opensPrimary
  split
  · next same => cases same
  · next same =>
    cases same
    exact absurd digit (by decide)
  · next same =>
    cases same
    rw [digit, Bool.or_true]

theorem reference_head {cs : List Char} (accepts : reference.Accepts cs) :
    identifier.Accepts cs ∨ ∃ rest, cs = '.' :: rest ∧ identifier.Accepts rest := by
  obtain ⟨tag, left, tagged, accepts⟩ := accepts_bind_iff.mp accepts
  obtain ⟨point, left', pointed, accepts⟩ := accepts_bind_iff.mp accepts
  obtain ⟨first, left'', named, -⟩ := accepts_bind_iff.mp accepts
  cases tag with
  | some tag =>
    obtain ⟨_, _, read, -⟩ := bind_eq_iff.mp (optional_eq_some_iff.mp tagged)
    obtain ⟨name, _, named, -⟩ := bind_eq_iff.mp read
    exact .inl ⟨_, _, named⟩
  | none =>
    obtain ⟨-, rfl⟩ := optional_eq_none_iff.mp tagged
    cases point with
    | none =>
      obtain ⟨-, rfl⟩ := optional_eq_none_iff.mp pointed
      exact .inl ⟨_, _, named⟩
    | some point =>
      obtain rfl := char_eq_iff.mp (optional_eq_some_iff.mp pointed)
      exact .inr ⟨_, rfl, ⟨_, _, named⟩⟩

/-- The text starts with the character. -/
theorem head_of_accepts_char {α : Type} {c : Char} {f : Unit → Parser α} {cs : List Char}
    (accepts : (char c >>= f).Accepts cs) : ∃ rest, cs = c :: rest := by
  obtain ⟨_, rest, head, -⟩ := accepts_bind_iff.mp accepts
  exact ⟨rest, char_eq_iff.mp head⟩

theorem lambda_head {cs : List Char} (accepts : full.lambda.Accepts cs) :
    (∃ rest, cs = '|' :: rest) ∨
      ∃ left rest, identifier cs = .accepted "lambda" left ∧
        left.dropWhile Blank.isSpacing = '|' :: rest := by
  obtain ⟨word, left, optional, accepts⟩ := accepts_bind_iff.mp accepts
  obtain ⟨rest, bar⟩ := head_of_accepts_char accepts
  cases word with
  | none =>
    obtain ⟨-, rfl⟩ := optional_eq_none_iff.mp optional
    exact .inl ⟨rest, bar⟩
  | some word =>
    obtain ⟨_, middle, word, ⟨⟩⟩ := bind_eq_iff.mp (optional_eq_some_iff.mp optional)
    exact .inr ⟨middle, rest, (keyword_eq_iff isName_lambda).mp word, bar⟩

theorem mergeCall_head {cs : List Char} (accepts : full.mergeCall.Accepts cs) :
    ∃ rest, cs = "merge".toList ++ '(' :: rest := by
  obtain ⟨_, left, word, accepts⟩ := accepts_bind_iff.mp accepts
  obtain ⟨_, left', followed, -⟩ := accepts_bind_iff.mp accepts
  obtain ⟨⟨_, rest, opened⟩, -⟩ := followedBy_eq_iff.mp followed
  rw [word_eq_iff.mp word, char_eq_iff.mp opened]
  exact ⟨rest, rfl⟩

theorem identifier_mergeCall {cs : List Char} (accepts : full.mergeCall.Accepts cs) :
    ∃ rest, identifier cs = .accepted "merge" ('(' :: rest) := by
  obtain ⟨rest, rfl⟩ := mergeCall_head accepts
  exact ⟨rest, isName_merge.identifier_append rfl⟩

theorem chain_eq_iff {cs rest : List Char} {e : Expr} : full.chain cs = .accepted e rest ↔
    ∃ p left, full.primary cs = .accepted p left ∧
      (p.isLiteral = true ∧ e = p ∧ rest = left ∨
        p.isLiteral = false ∧ ∃ forms, many full.postfixForm left = .accepted forms rest ∧
          e = forms.foldl applyPostfix p) := by
  refine Iff.trans bind_eq_iff ?_
  refine exists_congr fun p => exists_congr fun left => and_congr_right fun _ => ?_
  cases literal : p.isLiteral with
  | true =>
    simp only [if_true, true_and, Bool.true_eq_false, false_and, or_false]
    refine pure_eq_iff.trans ?_
    constructor
    · rintro ⟨rfl, rfl⟩
      exact ⟨rfl, rfl⟩
    · rintro ⟨rfl, rfl⟩
      exact ⟨rfl, rfl⟩
  | false =>
    simp only [Bool.false_eq_true, if_false, false_and, false_or, true_and]
    refine Iff.trans bind_eq_iff ⟨?_, ?_⟩
    · rintro ⟨forms, middle, read, same⟩
      cases same
      exact ⟨forms, read, rfl⟩
    · rintro ⟨forms, read, rfl⟩
      exact ⟨forms, rest, read, rfl⟩

theorem opensPrimary_of_accepts {cs : List Char} (accepts : full.primary.Accepts cs) :
    opensPrimary cs = true := by
  obtain ⟨e, rest, accepted⟩ := accepts
  cases primaryForm_of_eq accepted with
  | number form =>
    obtain ⟨c, rest, rfl, digit⟩ := number_head (accepts_of_eq form)
    exact opensPrimary_of_digit digit
  | string form =>
    obtain ⟨rest, rfl⟩ := head_of_accepts_char (accepts_of_eq form)
    rfl
  | bool value word => exact opensPrimary_of_identifier (accepts_of_eq word)
  | nil word => exact opensPrimary_of_identifier (accepts_of_eq word)
  | undefined text =>
    rw [text]
    rfl
  | tilde head =>
    rw [head]
    rfl
  | list form =>
    obtain ⟨rest, rfl⟩ := head_of_accepts_char (accepts_of_eq form)
    rfl
  | map form =>
    obtain ⟨rest, rfl⟩ := head_of_accepts_char (accepts_of_eq form)
    rfl
  | group form =>
    obtain ⟨rest, rfl⟩ := head_of_accepts_char (accepts_of_eq form)
    rfl
  | mergeCall form =>
    obtain ⟨rest, word⟩ := identifier_mergeCall (accepts_of_eq form)
    exact opensPrimary_of_identifier (accepts_of_eq word)
  | reference _ form =>
    rcases reference_head (accepts_of_eq form) with named | ⟨rest, rfl, named⟩
    · exact opensPrimary_of_identifier named
    · obtain ⟨c, rest, rfl, start⟩ := accepts_identifier_iff.mp named
      exact start

/-- What an operand may start with. -/
theorem opens_of_accepts {cs : List Char} (accepts : full.operandRule.Accepts cs) :
    opens cs = true := by
  obtain ⟨e, rest, accepted⟩ := accepts
  cases operandForm_of_eq accepted with
  | not head _ =>
    rw [head]
    rfl
  | substitution head _ =>
    rw [head]
    rfl
  | marked form =>
    obtain ⟨_, _, first, _⟩ := bind_eq_iff.mp form
    obtain ⟨rest, rfl⟩ := accepts_marker_head (accepts_of_eq first)
    rfl
  | merge form =>
    obtain ⟨_, _, _, _, _, _, _, word, _⟩ := mergeForm_eq_iff.mp form
    exact opens_of_identifier (accepts_of_eq word)
  | auto word => exact opens_of_identifier (accepts_of_eq word)
  | prefer word _ _ => exact opens_of_identifier (accepts_of_eq word)
  | lambda form =>
    rcases lambda_head (accepts_of_eq form) with ⟨rest, rfl⟩ | ⟨_, _, word, -⟩
    · rfl
    · exact opens_of_identifier (accepts_of_eq word)
  | negative head form =>
    obtain ⟨c, rest, rfl, digit⟩ := number_head (accepts_of_eq form)
    rw [head]
    exact digit
  | chain _ _ form =>
    obtain ⟨p, left, primary, -⟩ := chain_eq_iff.mp form
    exact opens_of_opensPrimary (opensPrimary_of_accepts (accepts_of_eq primary))

theorem unspaced_of_opens {cs : List Char} (isOpen : opens cs = true) : Unspaced cs := by
  cases cs with
  | nil => cases isOpen
  | cons c cs =>
    refine unspaced_cons (Bool.eq_false_iff.mpr fun spacing => ?_) cs
    simp only [Blank.isSpacing, Bool.or_eq_true, beq_iff_eq] at spacing
    rcases spacing with ((rfl | rfl) | rfl) | rfl <;> cases isOpen

end Grammar

/-- The name that an operand starts with. -/
def Expr.leading : Expr → Option String
  | .bool b => some (if b then "true" else "false")
  | .reference r => r.leading
  | .merge _ => some "merge"
  | .auto => some "auto"
  | .prefer _ => some "prefer"
  | .intrinsic id _ => some id.name
  | .call callee _ => callee.leading
  | .curry callee _ => callee.leading
  | .dynamic base _ => base.leading
  | .slice base _ _ => base.leading
  | .projection base _ => base.leading
  | .qualified base _ => base.leading
  | _ => none

/-- References in the tree's first place have a path. -/
def Expr.HasPath (e : Expr) : Prop := ∀ r, e = .reference r → r.path ≠ []

theorem Intrinsic.name_of_ofName? {name : String} {id : Intrinsic}
    (found : ofName? name = some id) :
    id.name = name := by
  unfold ofName? at found
  split at found <;> cases found <;> rfl

namespace Grammar

open Cascade.Parser

/-! ### Names at the start of operands -/

theorem Reference.simpleName?_eq_some {r : Reference} {name : String}
    (simple : r.simpleName? = some name) : r = ⟨none, false, [name]⟩ := by
  unfold Reference.simpleName? at simple
  split at simple
  · cases simple
    rfl
  · cases simple

theorem applyPostfix_call (e : Expr) (args : List Argument) :
    (∃ id : Intrinsic, e = .reference ⟨none, false, [id.name]⟩ ∧
      applyPostfix e (.call args) = .intrinsic id args) ∨
    applyPostfix e (.call args) = .call e args := by
  cases e with
  | reference r =>
    cases found : r.simpleName?.bind Intrinsic.ofName? with
    | some id =>
      obtain ⟨name, simple, named⟩ := Option.bind_eq_some_iff.mp found
      obtain rfl := Reference.simpleName?_eq_some simple
      obtain rfl := Intrinsic.name_of_ofName? named
      exact .inl ⟨id, rfl, by simp only [applyPostfix, found]⟩
    | none => exact .inr (by simp only [applyPostfix, found])
  | _ => exact .inr rfl

theorem applyPostfix_field (e : Expr) (name : String) :
    (∃ r, e = .reference r ∧
      applyPostfix e (.field name) = .reference { r with path := r.path ++ [name] }) ∨
    (∃ base path, e = .projection base path ∧
      applyPostfix e (.field name) = .projection base (path ++ [name])) ∨
    (∃ base path, e = .qualified base path ∧
      applyPostfix e (.field name) = .qualified base (path ++ [name])) ∨
    (∀ r, e ≠ .reference r) ∧ applyPostfix e (.field name) = .qualified e [name] := by
  cases e with
  | reference r => exact .inl ⟨r, rfl, rfl⟩
  | projection base path => exact .inr (.inl ⟨base, path, rfl, rfl⟩)
  | qualified base path => exact .inr (.inr (.inl ⟨base, path, rfl, rfl⟩))
  | _ => exact .inr (.inr (.inr ⟨by rintro _ ⟨⟩, rfl⟩))

theorem applyPostfix_index (e index : Expr) :
    (∃ r n, e = .reference r ∧ index = .int n ∧
      applyPostfix e (.index index) = .reference { r with path := r.path ++ [indexSegment n] }) ∨
    applyPostfix e (.index index) = .dynamic e index := by
  cases e with
  | reference r =>
    cases index with
    | int n => exact .inl ⟨r, n, rfl, rfl, rfl⟩
    | _ => exact .inr rfl
  | _ => exact .inr rfl

theorem leading_applyPostfix {e : Expr} (hasPath : e.HasPath) (form : Postfix) :
    (applyPostfix e form).leading = e.leading ∧ (applyPostfix e form).HasPath := by
  have longer : ∀ {r : Reference} (s : String), e = .reference r →
      (Expr.reference { r with path := r.path ++ [s] }).leading = e.leading ∧
        (Expr.reference { r with path := r.path ++ [s] }).HasPath := by
    rintro r s rfl
    constructor
    · unfold Expr.leading Reference.leading
      cases path : r.path with
      | nil => exact absurd path (hasPath r rfl)
      | cons first rest => rfl
    · rintro _ ⟨⟩ none
      exact List.append_ne_nil_of_right_ne_nil _ (List.cons_ne_nil _ _) none
  cases form with
  | call args =>
    rcases applyPostfix_call e args with ⟨id, rfl, same⟩ | same
    · rw [same]
      exact ⟨rfl, by rintro _ ⟨⟩⟩
    · rw [same]
      exact ⟨rfl, by rintro _ ⟨⟩⟩
  | curry args => exact ⟨rfl, by rintro _ ⟨⟩⟩
  | field name =>
    rcases applyPostfix_field e name with ⟨r, reference, same⟩ | ⟨base, path, rfl, same⟩ |
      ⟨base, path, rfl, same⟩ | ⟨-, same⟩
    · rw [same]
      exact longer name reference
    · exact ⟨rfl, by rintro _ ⟨⟩⟩
    · exact ⟨rfl, by rintro _ ⟨⟩⟩
    · rw [same]
      exact ⟨rfl, by rintro _ ⟨⟩⟩
  | project => exact ⟨rfl, by rintro _ ⟨⟩⟩
  | slice start stop => exact ⟨rfl, by rintro _ ⟨⟩⟩
  | index index =>
    rcases applyPostfix_index e index with ⟨r, n, reference, -, same⟩ | same
    · rw [same]
      exact longer _ reference
    · rw [same]
      exact ⟨rfl, by rintro _ ⟨⟩⟩

theorem leading_foldl {e : Expr} (hasPath : e.HasPath) (forms : List Postfix) :
    (forms.foldl applyPostfix e).leading = e.leading := by
  induction forms generalizing e with
  | nil => rfl
  | cons form forms ih =>
    obtain ⟨same, hasPath'⟩ := leading_applyPostfix hasPath form
    exact (ih hasPath').trans same

theorem nameAt_cons {c : Char} (other : Expr.isNameStart c = false) (cs : List Char) :
    nameAt (c :: cs) = none := by
  refine nameAt_eq_none_iff.mpr fun accepts => ?_
  obtain ⟨_, _, ⟨⟩, start⟩ := accepts_identifier_iff.mp accepts
  rw [other] at start
  cases start

theorem nameAt_digit {c : Char} (digit : c.isDigit = true) (cs : List Char) :
    nameAt (c :: cs) = none := by
  refine nameAt_cons (Bool.eq_false_iff.mpr fun start => ?_) cs
  have undigited : Undigited [c] := undigited_of_isNameStart start
  rw [Undigited, List.takeWhile_cons_of_pos digit] at undigited
  cases undigited

theorem nameAt_of_identifier {cs rest : List Char} {s : String}
    (named : identifier cs = .accepted s rest) : nameAt cs = some s :=
  nameAt_eq_some_iff.mpr ⟨rest, named⟩

/-! ### Bracketed forms -/

theorem spaces_bind_eq_iff {α : Type} {f : Unit → Parser α} {cs rest : List Char} {value : α} :
    (spaces >>= f) cs = .accepted value rest ↔
      f () (cs.dropWhile Blank.isSpacing) = .accepted value rest := by
  refine Iff.trans bind_eq_iff ⟨?_, fun later => ⟨(), _, rfl, later⟩⟩
  rintro ⟨_, _, ⟨⟩, later⟩
  exact later

theorem char_bind_eq_iff {α : Type} {c : Char} {f : Unit → Parser α} {cs rest : List Char}
    {value : α} :
    (char c >>= f) cs = .accepted value rest ↔
      ∃ left, cs = c :: left ∧ f () left = .accepted value rest := by
  refine Iff.trans bind_eq_iff ⟨?_, fun ⟨left, head, later⟩ =>
    ⟨(), left, char_eq_iff.mpr head, later⟩⟩
  rintro ⟨_, left, head, later⟩
  exact ⟨left, char_eq_iff.mp head, later⟩

theorem group_eq_iff {cs rest : List Char} {e : Expr} : full.group cs = .accepted e rest ↔
    ∃ left o left', cs = '(' :: left ∧
      full.expression (left.dropWhile Blank.isSpacing) = .accepted o left' ∧
      left'.dropWhile Blank.isSpacing = ')' :: rest ∧ e = .grouped o := by
  refine Iff.trans char_bind_eq_iff ?_
  constructor
  · rintro ⟨left, rfl, later⟩
    obtain ⟨o, left', inner, afterInner⟩ := bind_eq_iff.mp (spaces_bind_eq_iff.mp later)
    obtain ⟨last, closed, same⟩ := char_bind_eq_iff.mp (spaces_bind_eq_iff.mp afterInner)
    cases same
    exact ⟨left, o, left', rfl, inner, closed, rfl⟩
  · rintro ⟨left, o, left', rfl, inner, closed, rfl⟩
    exact ⟨left, rfl, spaces_bind_eq_iff.mpr (bind_eq_iff.mpr ⟨o, left', inner,
      spaces_bind_eq_iff.mpr (char_bind_eq_iff.mpr ⟨rest, closed, rfl⟩)⟩)⟩

theorem arguments_eq_iff {cs rest : List Char} {args : List Argument} :
    full.arguments cs = .accepted args rest ↔ ∃ left left', cs = '(' :: left ∧
      separated full.argument comma (left.dropWhile Blank.isSpacing) = .accepted args left' ∧
      closing ')' left' = .accepted () rest := by
  refine Iff.trans char_bind_eq_iff ?_
  constructor
  · rintro ⟨left, rfl, later⟩
    obtain ⟨args', left', items, afterItems⟩ := bind_eq_iff.mp (spaces_bind_eq_iff.mp later)
    obtain ⟨_, last, closed, same⟩ := bind_eq_iff.mp afterItems
    cases same
    exact ⟨left, left', rfl, items, closed⟩
  · rintro ⟨left, left', rfl, items, closed⟩
    exact ⟨left, rfl, spaces_bind_eq_iff.mpr (bind_eq_iff.mpr ⟨args, left', items,
      bind_eq_iff.mpr ⟨(), rest, closed, rfl⟩⟩)⟩

theorem mapLiteral_eq_iff {cs rest : List Char} {e : Expr} : full.mapLiteral cs = .accepted e rest ↔
    ∃ left entries left', cs = '{' :: left ∧
      separated full.mapEntry comma (left.dropWhile Blank.isSpacing) = .accepted entries left' ∧
      closing '}' left' = .accepted () rest ∧ e = .map entries := by
  refine Iff.trans char_bind_eq_iff ?_
  constructor
  · rintro ⟨left, rfl, later⟩
    obtain ⟨entries, left', items, afterItems⟩ := bind_eq_iff.mp (spaces_bind_eq_iff.mp later)
    obtain ⟨_, last, closed, same⟩ := bind_eq_iff.mp afterItems
    cases same
    exact ⟨left, entries, left', rfl, items, closed, rfl⟩
  · rintro ⟨left, entries, left', rfl, items, closed, rfl⟩
    exact ⟨left, rfl, spaces_bind_eq_iff.mpr (bind_eq_iff.mpr ⟨entries, left', items,
      bind_eq_iff.mpr ⟨(), rest, closed, rfl⟩⟩)⟩

theorem mergeCall_eq_iff {cs rest : List Char} {e : Expr} : full.mergeCall cs = .accepted e rest ↔
    ∃ left args, cs = "merge".toList ++ left ∧ full.arguments left = .accepted args rest ∧
      e = .intrinsic .merge args := by
  refine Iff.trans bind_eq_iff ?_
  constructor
  · rintro ⟨_, left, word, later⟩
    obtain ⟨_, left', followed, afterOpening⟩ := bind_eq_iff.mp later
    obtain ⟨-, rfl⟩ := followedBy_eq_iff.mp followed
    obtain ⟨args, last, read, same⟩ := bind_eq_iff.mp afterOpening
    cases same
    exact ⟨left, args, word_eq_iff.mp word, read, rfl⟩
  · rintro ⟨left, args, rfl, read, rfl⟩
    obtain ⟨left', _, rfl, -⟩ := arguments_eq_iff.mp read
    exact ⟨(), _, word_eq_iff.mpr rfl, bind_eq_iff.mpr ⟨(), _,
      followedBy_eq_iff.mpr ⟨⟨(), left', char_eq_iff.mpr rfl⟩, rfl⟩,
      bind_eq_iff.mpr ⟨args, rest, read, rfl⟩⟩⟩

/-- The second bound of a range. -/
def rangePart : Parser Expr := do
  spaced (word "..".toList)
  let stop ← full.expression
  spaces
  char ']'
  return stop

/-- An item behind a comma. -/
def nextItem : Parser Expr := do
  comma
  full.expression

/-- The forms of a list in square brackets. -/
inductive ListForm (left : List Char) : Expr → List Char → Prop
  | empty {rest} (none : ¬full.expression.Accepts left)
    (closed : closing ']' left = .accepted () rest) :
      ListForm left (.list []) rest
  | range {first stop left' rest} (read : full.expression left = .accepted first left')
      (bound : rangePart left' = .accepted stop rest) : ListForm left (.range first stop) rest
  | items {first items left' left'' rest} (read : full.expression left = .accepted first left')
      (unbounded : ¬rangePart.Accepts left') (more : many nextItem left' = .accepted items left'')
      (closed : closing ']' left'' = .accepted () rest) :
        ListForm left (.list (first :: items)) rest

theorem listLiteral_eq_iff {cs rest : List Char} {e : Expr} :
    full.listLiteral cs = .accepted e rest ↔
    ∃ left, cs = '[' :: left ∧ ListForm (left.dropWhile Blank.isSpacing) e rest := by
  refine Iff.trans char_bind_eq_iff (exists_congr fun left => and_congr_right fun _ =>
    Iff.trans spaces_bind_eq_iff (Iff.trans bind_eq_iff ?_))
  constructor
  · rintro ⟨first, left', read, later⟩
    cases first with
    | none =>
      obtain ⟨none, rfl⟩ := optional_eq_none_iff.mp read
      obtain ⟨_, last, closed, same⟩ := bind_eq_iff.mp later
      cases same
      exact .empty none closed
    | some first =>
      obtain ⟨range, left'', bound, afterBound⟩ := bind_eq_iff.mp later
      cases range with
      | some stop =>
        cases afterBound
        exact .range (optional_eq_some_iff.mp read) (optional_eq_some_iff.mp bound)
      | none =>
        obtain ⟨unbounded, rfl⟩ := optional_eq_none_iff.mp bound
        obtain ⟨items, left''', more, afterItems⟩ := bind_eq_iff.mp afterBound
        obtain ⟨_, last, closed, same⟩ := bind_eq_iff.mp afterItems
        cases same
        exact .items (optional_eq_some_iff.mp read) unbounded more closed
  · intro form
    cases form with
    | empty absent closed =>
      exact ⟨none, _, optional_eq_none_iff.mpr ⟨absent, rfl⟩, bind_eq_iff.mpr
        ⟨(), rest, closed, rfl⟩⟩
    | @range first stop left' _ read bound =>
      exact ⟨some first, left', optional_eq_some_iff.mpr read, bind_eq_iff.mpr
        ⟨some stop, rest, optional_eq_some_iff.mpr bound, rfl⟩⟩
    | @items first items left' left'' _ read unbounded more closed =>
      exact ⟨some first, left', optional_eq_some_iff.mpr read, bind_eq_iff.mpr
        ⟨none, left', optional_eq_none_iff.mpr ⟨unbounded, rfl⟩, bind_eq_iff.mpr
          ⟨items, left'', more, bind_eq_iff.mpr ⟨(), rest, closed, rfl⟩⟩⟩⟩

/-- A marker behind spacing. -/
def nextMarker : Parser Marker := do
  spaces
  marker

/-- An expression behind spacing. -/
def annotated : Parser Expr := do
  spaces
  full.expression

theorem marked_eq_iff {cs rest : List Char} {e : Expr} : full.marked cs = .accepted e rest ↔
    ∃ first more inner left left', marker cs = .accepted first left ∧
      many nextMarker left = .accepted more left' ∧ optional annotated left' = .accepted
        inner rest ∧
      e = .marked (first :: more) inner := by
  refine Iff.trans bind_eq_iff ?_
  constructor
  · rintro ⟨first, left, read, later⟩
    obtain ⟨more, left', read', afterMarkers⟩ := bind_eq_iff.mp later
    obtain ⟨inner, last, read'', same⟩ := bind_eq_iff.mp afterMarkers
    cases same
    exact ⟨first, more, inner, left, left', read, read', read'', rfl⟩
  · rintro ⟨first, more, inner, left, left', read, read', read'', rfl⟩
    exact ⟨first, left, read, bind_eq_iff.mpr ⟨more, left', read', bind_eq_iff.mpr
      ⟨inner, rest, read'', rfl⟩⟩⟩

/-- The word before the parameters of a lambda. -/
def lambdaWord : Parser Unit := do
  keyword "lambda"
  spaces

/-- A lambda from its first bar on. -/
def LambdaForm (left : List Char) (params : List Parameter) (body : Expr) (rest : List Char) :
    Prop :=
  ∃ left₁ left₂ left₃, separated full.parameter comma (left.dropWhile Blank.isSpacing) =
      .accepted params left₁ ∧
    left₁.dropWhile Blank.isSpacing = '|' :: left₂ ∧
    left₂.dropWhile Blank.isSpacing = '-' :: '>' :: left₃ ∧
    full.expression (left₃.dropWhile Blank.isSpacing) = .accepted body rest

theorem lambda_eq_iff {cs rest : List Char} {e : Expr} : full.lambda cs = .accepted e rest ↔
    ∃ word left params body, optional lambdaWord cs = .accepted word ('|' :: left) ∧
      LambdaForm left params body rest ∧ e = .lambda ⟨params, body⟩ := by
  refine Iff.trans bind_eq_iff ?_
  constructor
  · rintro ⟨word, left, read, later⟩
    obtain ⟨left', rfl, afterBar⟩ := char_bind_eq_iff.mp later
    obtain ⟨params, left₁, read', afterParams⟩ := bind_eq_iff.mp (spaces_bind_eq_iff.mp afterBar)
    obtain ⟨left₂, bar, afterSecond⟩ := char_bind_eq_iff.mp (spaces_bind_eq_iff.mp afterParams)
    obtain ⟨_, left₃, arrow, afterArrow⟩ := bind_eq_iff.mp (spaces_bind_eq_iff.mp afterSecond)
    obtain ⟨body, last, inner, same⟩ := bind_eq_iff.mp (spaces_bind_eq_iff.mp afterArrow)
    cases same
    exact ⟨word, left', params, body, read, ⟨left₁, left₂, left₃, read', bar, word_eq_iff.mp arrow,
      inner⟩, rfl⟩
  · rintro ⟨word, left, params, body, read, ⟨left₁, left₂, left₃, read', bar, arrow, inner⟩, rfl⟩
    exact ⟨word, _, read, char_bind_eq_iff.mpr ⟨left, rfl, spaces_bind_eq_iff.mpr (bind_eq_iff.mpr
      ⟨params, left₁, read', spaces_bind_eq_iff.mpr (char_bind_eq_iff.mpr ⟨left₂, bar,
        spaces_bind_eq_iff.mpr (bind_eq_iff.mpr ⟨(), left₃, word_eq_iff.mpr arrow,
          spaces_bind_eq_iff.mpr (bind_eq_iff.mpr ⟨body, rest, inner, rfl⟩)⟩)⟩)⟩)⟩⟩

theorem nameAt_primary {cs rest : List Char} {e : Expr}
    (accepted : full.primary cs = .accepted e rest)
    (spelled : e ≠ .nil) : nameAt cs = e.leading ∧ e.HasPath := by
  cases primaryForm_of_eq accepted with
  | number form =>
    obtain ⟨c, cs, rfl, digit⟩ := number_head (accepts_of_eq form)
    rw [nameAt_digit digit]
    obtain ⟨t, -, literal⟩ := number_eq_iff.mp form
    rcases literal?_cases literal with ⟨-, -, -, rfl⟩ | ⟨-, _, _, rfl⟩ <;>
      exact ⟨rfl, by rintro _ ⟨⟩⟩
  | string form =>
    obtain ⟨rest, rfl⟩ := head_of_accepts_char (accepts_of_eq form)
    exact ⟨rfl, by rintro _ ⟨⟩⟩
  | bool value word => exact ⟨nameAt_of_identifier word, by rintro _ ⟨⟩⟩
  | nil word => exact absurd rfl spelled
  | undefined text =>
    rw [text]
    exact ⟨rfl, by rintro _ ⟨⟩⟩
  | tilde head => exact absurd rfl spelled
  | list form =>
    obtain ⟨left, rfl, listed⟩ := listLiteral_eq_iff.mp form
    cases listed <;> exact ⟨rfl, by rintro _ ⟨⟩⟩
  | map form =>
    obtain ⟨left, entries, _, rfl, -, -, rfl⟩ := mapLiteral_eq_iff.mp form
    exact ⟨rfl, by rintro _ ⟨⟩⟩
  | group form =>
    obtain ⟨left, o, _, rfl, -, -, rfl⟩ := group_eq_iff.mp form
    exact ⟨rfl, by rintro _ ⟨⟩⟩
  | mergeCall form =>
    obtain ⟨rest, word⟩ := identifier_mergeCall (accepts_of_eq form)
    obtain ⟨_, args, -, -, rfl⟩ := mergeCall_eq_iff.mp form
    exact ⟨nameAt_of_identifier word, by rintro _ ⟨⟩⟩
  | reference _ form =>
    obtain ⟨plain, -, -, same, -⟩ := reference_eq form
    refine ⟨same, ?_⟩
    rintro r ⟨⟩ none
    obtain ⟨first, path, some, -⟩ := plain.path
    rw [some] at none
    cases none

/-- The name that an operand starts with can be told from its tree. -/
theorem nameAt_operand {cs rest : List Char} {e : Expr}
    (accepted : full.operandRule cs = .accepted e rest) :
    nameAt cs = e.leading ∨ e = .nil ∨ ∃ l, e = .lambda l := by
  cases operandForm_of_eq accepted with
  | not head _ =>
    rw [head]
    exact .inl (nameAt_cons rfl _)
  | substitution head _ =>
    rw [head]
    exact .inl (nameAt_cons rfl _)
  | marked form =>
    obtain ⟨first, more, inner, _, _, read, -, -, rfl⟩ := marked_eq_iff.mp form
    obtain ⟨left, rfl⟩ := accepts_marker_head (accepts_of_eq read)
    exact .inl (nameAt_cons rfl _)
  | merge form =>
    obtain ⟨_, _, _, _, _, _, rfl, word, -⟩ := mergeForm_eq_iff.mp form
    exact .inl (nameAt_of_identifier word)
  | auto word => exact .inl (nameAt_of_identifier word)
  | prefer word _ _ => exact .inl (nameAt_of_identifier word)
  | lambda form =>
    obtain ⟨_, _, params, body, -, -, rfl⟩ := lambda_eq_iff.mp form
    exact .inr (.inr ⟨_, rfl⟩)
  | negative head form =>
    rw [head]
    obtain ⟨t, -, literal⟩ := number_eq_iff.mp form
    rcases literal?_cases literal with ⟨-, -, -, rfl⟩ | ⟨-, _, _, rfl⟩ <;>
      exact .inl (nameAt_cons rfl _)
  | chain _ _ form =>
    obtain ⟨p, left, primary, ⟨-, rfl, rfl⟩ | ⟨solid, forms, -, rfl⟩⟩ := chain_eq_iff.mp form
    · by_cases isNil : e = .nil
      · exact .inr (.inl isNil)
      · exact .inl (nameAt_primary primary isNil).1
    · have notNil : p ≠ .nil := by
        rintro rfl
        cases solid
      obtain ⟨same, hasPath⟩ := nameAt_primary primary notNil
      exact .inl (same.trans (leading_foldl hasPath forms).symm)

end Grammar

end Cascade
