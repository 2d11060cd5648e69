import Cascade.Proofs.PrintedArguments

/-!
# Reading printed chains

A postfix form prints behind its operand, whatever the operand is, so that a chain is printed as its
first operand followed by its postfix forms. A reference ends before the first of them as it did in
the text that it was read from.

## Main definitions

* `Grammar.Postfix.print`: the printed form of a postfix form.

## Main statements

* `Grammar.print_foldl`: the printed form of a chain.
* `Grammar.reprint_chain`: a chain reads back from its printed form.
-/

namespace Cascade

namespace Grammar

open Cascade.Parser

variable {bound : Nat} {cs left rest rest' : List Char} {e : Expr}

/-! ### Printed postfix forms -/

/-- The characters of a postfix form. -/
def Postfix.print : Postfix → List Char
  | .call args => '(' :: (Expr.printArguments args ++ [')'])
  | .curry args => '*' :: '(' :: (Expr.printArguments args ++ [')'])
  | .field name => '.' :: name.toList
  | .project => ".[*]".toList
  | .slice start stop =>
    '.' :: '[' :: (Expr.printOption start ++ '.' :: '.' :: (Expr.printOption stop ++ [']']))
  | .index i => '.' :: '[' :: (i.print ++ [']'])

theorem printPath_append (path : List String) (s : String) :
    Expr.printPath (path ++ [s]) = Expr.printPath path ++ '.' :: s.toList := by
  simp [Expr.printPath]

theorem print_longer {r : Reference} (some : r.path ≠ []) (s : String) :
    Reference.print { r with path := r.path ++ [s] } = r.print ++ '.' :: s.toList := by
  obtain ⟨tag, absolute, path⟩ := r
  cases path with
  | nil => exact absurd rfl some
  | cons first path =>
    simp only [Reference.print, List.cons_append, printDotted_cons, printPath_append,
      List.append_assoc]

/-- A postfix form prints behind its operand. -/
theorem print_applyPostfix (hasPath : e.HasPath) (form : Postfix) :
    (applyPostfix e form).print = e.print ++ form.print := by
  cases form with
  | call args =>
    rcases applyPostfix_call e args with ⟨id, rfl, same⟩ | same
    · rw [same, Expr.print_intrinsic, Expr.print_reference]
      simp [Reference.print, Expr.printDotted, Postfix.print]
    · rw [same, Expr.print_call]
      rfl
  | curry args => exact Expr.print_curry e args
  | field name =>
    rcases applyPostfix_field e name with ⟨r, rfl, same⟩ | ⟨base, path, rfl, same⟩ |
      ⟨base, path, rfl, same⟩ | ⟨-, same⟩
    · rw [same, Expr.print_reference, Expr.print_reference]
      exact print_longer (hasPath r rfl) name
    · rw [same, Expr.print_projection, Expr.print_projection, printPath_append, List.append_assoc,
        List.append_assoc, List.append_assoc]
      rfl
    · rw [same, Expr.print_qualified, Expr.print_qualified, printPath_append, List.append_assoc]
      rfl
    · rw [same, Expr.print_qualified]
      simp [Expr.printPath, Postfix.print]
  | project =>
    rw [applyPostfix, Expr.print_projection]
    simp [Expr.printPath, Postfix.print]
  | slice start stop => exact Expr.print_slice e start stop
  | index index =>
    rcases applyPostfix_index e index with ⟨r, n, rfl, rfl, same⟩ | same
    · rw [same, Expr.print_reference, Expr.print_reference, print_longer (hasPath r rfl)]
      simp [indexSegment, Postfix.print, Expr.print_int, Expr.printInt]
    · rw [same, Expr.print_dynamic]
      rfl

/-- Postfix forms one behind the other. -/
def postfixText (forms : List Postfix) : List Char := forms.flatMap Postfix.print

theorem print_foldl (hasPath : e.HasPath) (forms : List Postfix) :
    (forms.foldl applyPostfix e).print = e.print ++ postfixText forms := by
  induction forms generalizing e with
  | nil => exact (List.append_nil _).symm
  | cons form forms ih =>
    have longer := (leading_applyPostfix hasPath form).2
    rw [List.foldl_cons, ih longer, print_applyPostfix hasPath, List.append_assoc]
    rfl

/-- The expressions in a postfix form print as they were read. -/
def Postfix.Faithful : Postfix → Prop
  | .call args => Expr.EverywhereInArguments Expr.Faithful args
  | .curry args => Expr.EverywhereInArguments Expr.Faithful args
  | .field _ => True
  | .project => True
  | .slice start stop =>
    Expr.EverywhereInOption Expr.Faithful start ∧ Expr.EverywhereInOption Expr.Faithful stop
  | .index i => i.Everywhere Expr.Faithful

theorem faithful_of_applyPostfix {form : Postfix}
    (faithful : (applyPostfix e form).Everywhere Expr.Faithful) :
    e.Everywhere Expr.Faithful ∧ form.Faithful := by
  cases form with
  | call args =>
    rcases applyPostfix_call e args with ⟨id, rfl, same⟩ | same
    · rw [same] at faithful
      exact ⟨trivial, faithful.2⟩
    · rw [same] at faithful
      exact faithful.2
  | curry args => exact faithful.2
  | field name =>
    refine ⟨?_, trivial⟩
    rcases applyPostfix_field e name with ⟨r, rfl, same⟩ | ⟨base, path, rfl, same⟩ |
      ⟨base, path, rfl, same⟩ | ⟨-, same⟩
    · exact trivial
    · rw [same] at faithful
      exact ⟨trivial, faithful.2⟩
    · rw [same] at faithful
      exact ⟨trivial, faithful.2⟩
    · rw [same] at faithful
      exact faithful.2
  | project => exact ⟨faithful.2, trivial⟩
  | slice start stop => exact ⟨faithful.2.1, faithful.2.2⟩
  | index index =>
    rcases applyPostfix_index e index with ⟨r, n, rfl, rfl, same⟩ | same
    · exact ⟨trivial, trivial⟩
    · rw [same] at faithful
      exact ⟨faithful.2.1, faithful.2.2⟩

theorem faithful_of_foldl {forms : List Postfix}
    (faithful : (forms.foldl applyPostfix e).Everywhere Expr.Faithful) :
    e.Everywhere Expr.Faithful ∧ ∀ form ∈ forms, form.Faithful := by
  induction forms generalizing e with
  | nil => exact ⟨faithful, by simp⟩
  | cons form forms ih =>
    obtain ⟨applied, each⟩ := ih faithful
    obtain ⟨first, here⟩ := faithful_of_applyPostfix applied
    exact ⟨first, List.forall_mem_cons.mpr ⟨here, each⟩⟩

/-! ### Indices -/

/-- The star of a projection. -/
def starPart : Parser Unit := do
  char '*'
  followedBy (do spaces; char ']')

theorem starPart_eq_iff {u : Unit} : starPart cs = .accepted u rest ↔
    cs = '*' :: rest ∧ ∃ left, rest.dropWhile Blank.isSpacing = ']' :: left := by
  have bracket : (spaces >>= fun _ => char ']').Accepts rest ↔
      ∃ left, rest.dropWhile Blank.isSpacing = ']' :: left := by
    refine exists_comm.trans (exists_congr fun left => ?_)
    constructor
    · rintro ⟨_, accepted⟩
      exact char_eq_iff.mp (spaces_bind_eq_iff.mp accepted)
    · intro head
      exact ⟨(), spaces_bind_eq_iff.mpr (char_eq_iff.mpr head)⟩
  refine Iff.trans char_bind_eq_iff ?_
  constructor
  · rintro ⟨left, rfl, followed⟩
    obtain ⟨accepts, rfl⟩ := followedBy_eq_iff.mp followed
    exact ⟨rfl, bracket.mp accepts⟩
  · rintro ⟨rfl, head⟩
    exact ⟨rest, rfl, followedBy_eq_iff.mpr ⟨bracket.mpr head, rfl⟩⟩

/-- The points of a slice. -/
def points : Parser Unit := spaced (word "..".toList)

/-- The forms of an index. -/
inductive IndexForm (cs : List Char) : Postfix → List Char → Prop
  | project {rest : List Char} (star : starPart cs = .accepted () rest) : IndexForm cs .project rest
  | slice {start stop : Option Expr} {left left' rest : List Char}
    (unstarred : ¬starPart.Accepts cs)
      (first : optional full.expression cs = .accepted start left)
      (between : points left = .accepted () left')
      (second : optional full.expression left' = .accepted stop rest) :
      IndexForm cs (.slice start stop) rest
  | index {i : Expr} {rest : List Char} (unstarred : ¬starPart.Accepts cs)
      (read : full.expression cs = .accepted i rest) (single : ¬points.Accepts rest) :
      IndexForm cs (.index i) rest

theorem indexBody_eq_iff {form : Postfix} :
    full.indexBody cs = .accepted form rest ↔ IndexForm cs form rest := by
  refine Iff.trans bind_eq_iff ?_
  constructor
  · rintro ⟨star, middle, starred, later⟩
    cases star with
    | some star =>
      cases later
      exact .project (optional_eq_some_iff.mp starred)
    | none =>
      obtain ⟨unstarred, rfl⟩ := optional_eq_none_iff.mp starred
      obtain ⟨start, left, first, afterStart⟩ := bind_eq_iff.mp later
      obtain ⟨between, left', pointed, afterPoints⟩ := bind_eq_iff.mp afterStart
      cases between with
      | some between =>
        obtain ⟨stop, last, second, same⟩ := bind_eq_iff.mp afterPoints
        cases same
        exact .slice unstarred first (optional_eq_some_iff.mp pointed) second
      | none =>
        obtain ⟨single, rfl⟩ := optional_eq_none_iff.mp pointed
        cases start with
        | none => cases afterPoints
        | some i =>
          cases afterPoints
          exact .index unstarred (optional_eq_some_iff.mp first) single
  · intro form
    cases form with
    | project star => exact ⟨some (), rest, optional_eq_some_iff.mpr star, rfl⟩
    | @slice start stop left left' _ unstarred first between second =>
      exact ⟨none, cs, optional_eq_none_iff.mpr ⟨unstarred, rfl⟩, bind_eq_iff.mpr
        ⟨start, left, first, bind_eq_iff.mpr ⟨some (), left', optional_eq_some_iff.mpr between,
          bind_eq_iff.mpr ⟨stop, rest, second, rfl⟩⟩⟩⟩
    | @index i _ unstarred read single =>
      exact ⟨none, cs, optional_eq_none_iff.mpr ⟨unstarred, rfl⟩, bind_eq_iff.mpr
        ⟨some i, rest, optional_eq_some_iff.mpr read, bind_eq_iff.mpr
          ⟨none, rest, optional_eq_none_iff.mpr ⟨single, rfl⟩, rfl⟩⟩⟩

theorem indexSuffix_eq_iff {form : Postfix} : full.indexSuffix cs = .accepted form rest ↔
    ∃ left left', cs = '[' :: left ∧ IndexForm (left.dropWhile Blank.isSpacing) form left' ∧
      left'.dropWhile Blank.isSpacing = ']' :: rest := by
  refine Iff.trans char_bind_eq_iff ?_
  constructor
  · rintro ⟨left, rfl, later⟩
    obtain ⟨form', left', body, afterBody⟩ := bind_eq_iff.mp (spaces_bind_eq_iff.mp later)
    obtain ⟨last, bracket, same⟩ := char_bind_eq_iff.mp (spaces_bind_eq_iff.mp afterBody)
    cases same
    exact ⟨left, left', rfl, indexBody_eq_iff.mp body, bracket⟩
  · rintro ⟨left, left', rfl, body, bracket⟩
    exact ⟨left, rfl, spaces_bind_eq_iff.mpr
      (bind_eq_iff.mpr ⟨form, left', indexBody_eq_iff.mpr body,
      spaces_bind_eq_iff.mpr (char_bind_eq_iff.mpr ⟨rest, bracket, rfl⟩)⟩)⟩

/-- No expression starts as a projection does. -/
theorem not_accepts_starPart (accepts : full.operandRule.Accepts cs) : ¬starPart.Accepts cs := by
  rintro ⟨_, rest, accepted⟩
  obtain ⟨rfl, left, bracket⟩ := starPart_eq_iff.mp accepted
  obtain ⟨o, rest', operand⟩ := accepts
  cases signForm_of_eq (by decide) operand with
  | substitution operand' =>
    have isOpen := opens_of_accepts (accepts_of_eq operand')
    have solid : Unspaced rest := unspaced_of_opens isOpen
    rw [solid] at bracket
    rw [bracket] at isOpen
    cases isOpen

theorem points_cons (solid : Unspaced rest) : points ('.' :: '.' :: rest) = .accepted () rest :=
  spaced_eq_iff.mpr ⟨rest, word_eq_iff.mpr rfl, solid.symm⟩

/-- An operand that may be absent reads back before a text that closes it. -/
theorem reprint_option {value : Option Expr} (nested : ReadsBackBelow full.expression bound)
    (short : cs.length < bound) (read : optional full.expression cs = .accepted value rest)
    (faithful : Expr.EverywhereInOption Expr.Faithful value) (closed : Closed rest')
    (solid : Unspaced rest') :
    optional full.expression (Expr.printOption value ++ rest') = .accepted value rest' ∧
      Unspaced (Expr.printOption value ++ rest') := by
  cases value with
  | none => exact ⟨optional_eq_none_iff.mpr ⟨not_accepts_expression closed solid, rfl⟩, solid⟩
  | some e =>
    have again := nested _ _ _ short (optional_eq_some_iff.mp read) faithful _ (closed.ends e rest)
    exact ⟨optional_eq_some_iff.mpr again.accepted, again.start.unspaced⟩

theorem shrinks_points : points.Shrinks :=
  (advances_word (by decide)).spaced.shrinks

theorem shrinks_optional_expression : (optional full.expression).Shrinks :=
  advances_expression.shrinks.optional

/-- An index in square brackets reads back from its printed form. -/
theorem reprint_index {form : Postfix} (nested : ReadsBackBelow full.expression bound)
    (short : cs.length < bound + 1) (read : full.indexSuffix cs = .accepted form rest)
    (faithful : form.Faithful) (rest' : List Char) :
    ∃ text, form.print ++ rest' = '.' :: text ∧ full.indexSuffix text = .accepted form rest' := by
  obtain ⟨left, left', rfl, body, -⟩ := indexSuffix_eq_iff.mp read
  have shorter := length_dropWhile_lt short
  have bracket : Closed (']' :: rest') := closed_of_head rfl (by simp [Delimited]) rfl
  have solid : Unspaced (']' :: rest') := unspaced_cons rfl _
  cases body with
  | project _ =>
    refine ⟨'[' :: '*' :: ']' :: rest', rfl, indexSuffix_eq_iff.mpr
      ⟨'*' :: ']' :: rest', ']' :: rest', rfl,
      .project ?_, rfl⟩⟩
    exact starPart_eq_iff.mpr ⟨rfl, rest', rfl⟩
  | @slice start stop middle middle' _ _ first between second =>
    have shorter' : middle'.length < bound := by
      have step := shrinks_optional_expression.length_le first
      have step' := shrinks_points.length_le between
      omega
    obtain ⟨again', solid'⟩ := reprint_option nested shorter' second faithful.2 bracket solid
    have text : (Postfix.slice start stop).print ++ rest' = '.' :: '[' ::
        (Expr.printOption start ++ '.' :: '.' :: (Expr.printOption stop ++ ']' :: rest')) := by
      simp [Postfix.print]
    obtain ⟨again, solid''⟩ := reprint_option nested shorter first faithful.1
      (closed_points (Expr.printOption stop ++ ']' :: rest')) (unspaced_cons rfl _)
    refine ⟨_, text, indexSuffix_eq_iff.mpr ⟨_, ']' :: rest', rfl, ?_, solid⟩⟩
    rw [solid'']
    refine .slice ?_ again (points_cons solid') again'
    cases start with
    | none =>
      rintro ⟨_, _, accepted⟩
      cases (starPart_eq_iff.mp accepted).1
    | some start =>
      exact not_accepts_starPart
        (accepts_expression_iff.mp (accepts_of_eq (optional_eq_some_iff.mp again)))
  | @index i _ _ inner _ =>
    have again := nested _ _ _ shorter inner faithful _ (bracket.ends i left')
    have text : (Postfix.index i).print ++ rest' = '.' :: '[' :: (i.print ++ ']' :: rest') := by
      simp [Postfix.print]
    refine ⟨_, text, indexSuffix_eq_iff.mpr ⟨_, ']' :: rest', rfl, ?_, solid⟩⟩
    rw [again.start.unspaced]
    refine .index (not_accepts_starPart (accepts_expression_iff.mp (accepts_of_eq again.accepted)))
      again.accepted ?_
    rintro ⟨_, _, accepted⟩
    obtain ⟨_, head, -⟩ := spaced_eq_iff.mp accepted
    cases word_eq_iff.mp head

/-! ### Postfix forms -/

/-- What an accepted postfix form looks like. -/
inductive PostfixForm (cs : List Char) : Postfix → List Char → Prop
  | call {args : List Argument} {rest : List Char}
    (read : full.arguments cs = .accepted args rest) :
      PostfixForm cs (.call args) rest
  | curry {args : List Argument} {left rest : List Char} (head : cs = '*' :: left)
      (read : full.arguments left = .accepted args rest) : PostfixForm cs (.curry args) rest
  | index {form : Postfix} {left rest : List Char} (short : left.length ≤ cs.length)
      (read : full.indexSuffix left = .accepted form rest) : PostfixForm cs form rest
  | field {name : String} {rest : List Char} (read : fieldStep cs = .accepted name rest) :
      PostfixForm cs (.field name) rest

theorem postfixForm_of_eq {form : Postfix} (accepted : full.postfixForm cs = .accepted form rest) :
    PostfixForm cs form rest := by
  rcases choose_cons_eq_iff.mp accepted with found | ⟨-, accepted⟩
  · obtain ⟨args, read, rfl⟩ := map_eq_iff.mp found
    exact .call read
  rcases choose_cons_eq_iff.mp accepted with found | ⟨-, accepted⟩
  · obtain ⟨left, head, later⟩ := char_bind_eq_iff.mp found
    obtain ⟨args, read, rfl⟩ := map_eq_iff.mp later
    exact .curry head read
  rcases choose_cons_eq_iff.mp accepted with found | ⟨-, accepted⟩
  · obtain ⟨point, left, read, later⟩ := bind_eq_iff.mp found
    exact .index ((advances_char '.').shrinks.optional.length_le read) later
  · obtain ⟨name, read, rfl⟩ := map_eq_iff.mp accepted
    exact .field read

theorem postfixForm_call {args : List Argument} (read : full.arguments cs = .accepted args rest) :
    full.postfixForm cs = .accepted (.call args) rest :=
  choose_cons_eq_iff.mpr (.inl (map_eq_iff.mpr ⟨args, read, rfl⟩))

theorem not_accepts_arguments (other : ∀ left, cs ≠ '(' :: left) {α : Type}
    {f : List Argument → α} :
    ¬(f <$> full.arguments).Accepts cs := not_accepts_of_head other

theorem postfixForm_curry {args : List Argument}
    (read : full.arguments left = .accepted args rest) :
    full.postfixForm ('*' :: left) = .accepted (.curry args) rest :=
  choose_cons_eq_iff.mpr (.inr ⟨not_accepts_arguments (by rintro _ ⟨⟩), choose_cons_eq_iff.mpr
    (.inl (char_bind_eq_iff.mpr ⟨left, rfl, map_eq_iff.mpr ⟨args, read, rfl⟩⟩))⟩)

/-- Indices and fields start with a point. -/
theorem postfixForm_of_point {form : Postfix}
    (accepted : Parser.choose [(do let _ ← optional (char '.'); full.indexSuffix), Postfix.field <$>
    fieldStep]
      ('.' :: left) = .accepted form rest) : full.postfixForm ('.' :: left) = .accepted form
        rest := by
  refine choose_cons_eq_iff.mpr
    (.inr ⟨not_accepts_arguments (by rintro _ ⟨⟩), choose_cons_eq_iff.mpr
    (.inr ⟨fun accepts => ?_, accepted⟩)⟩)
  obtain ⟨_, ⟨⟩⟩ := head_of_accepts_char accepts

theorem postfixForm_index {form : Postfix} (read : full.indexSuffix left = .accepted form rest) :
    full.postfixForm ('.' :: left) = .accepted form rest :=
  postfixForm_of_point (choose_cons_eq_iff.mpr (.inl (bind_eq_iff.mpr
    ⟨some (), left, optional_eq_some_iff.mpr (char_eq_iff.mpr rfl), read⟩)))

theorem postfixForm_field {name : String} (read : fieldStep ('.' :: left) = .accepted name rest) :
    full.postfixForm ('.' :: left) = .accepted (.field name) rest := by
  refine postfixForm_of_point (choose_cons_eq_iff.mpr (.inr ⟨?_, map_eq_iff.mpr ⟨name, read, rfl⟩⟩))
  intro accepts
  obtain ⟨point, middle, pointed, accepts⟩ := accepts_bind_iff.mp accepts
  obtain ⟨left', rfl⟩ := head_of_accepts_char accepts
  -- No step of a path starts with a bracket.
  obtain ⟨isSegment, same⟩ := fieldStep_eq read
  have chars := (List.cons.inj same).2
  cases point with
  | none => cases (optional_eq_none_iff.mp pointed).2
  | some point =>
    cases char_eq_iff.mp (optional_eq_some_iff.mp pointed)
    rcases isSegment with isName | ⟨nonempty, digital⟩
    · obtain ⟨c, cs, chars', start⟩ := isName.exists_cons
      rw [chars'] at chars
      cases chars
      exact absurd start (by decide)
    · cases chars' : name.toList with
      | nil => exact nonempty chars'
      | cons c cs =>
        rw [chars'] at chars
        cases chars
        exact absurd (digital _ (by rw [chars']; exact List.mem_cons_self ..)) (by decide)

/-- A postfix form reads back from its printed form. -/
theorem reprint_postfix {form : Postfix} (nested : ReadsBackBelow full.expression bound)
    (short : cs.length < bound + 1) (read : full.postfixForm cs = .accepted form rest)
    (faithful : form.Faithful) (ends : continuesName rest' = false) :
    full.postfixForm (form.print ++ rest') = .accepted form rest' := by
  cases postfixForm_of_eq read with
  | @call args _ read =>
    have text : (Postfix.call args).print ++ rest' =
        '(' :: (Expr.printArguments args ++ ')' :: rest') := by
      simp [Postfix.print]
    rw [text]
    exact postfixForm_call (reprint_arguments nested short read faithful rest')
  | @curry args left _ head read =>
    have text : (Postfix.curry args).print ++ rest' =
        '*' :: '(' :: (Expr.printArguments args ++ ')' :: rest') := by
      simp [Postfix.print]
    have shorter : left.length < bound + 1 := by
      rw [head, List.length_cons] at short
      omega
    rw [text]
    exact postfixForm_curry (reprint_arguments nested shorter read faithful rest')
  | index le read =>
    obtain ⟨text, same, again⟩ := reprint_index nested (Nat.lt_of_le_of_lt le short) read
      faithful rest'
    rw [same]
    exact postfixForm_index again
  | field read => exact postfixForm_field ((fieldStep_eq read).1.fieldStep_append ends)

theorem Delimited.not_accepts_postfixForm (delimited : Delimited cs) :
    ¬full.postfixForm.Accepts cs := by
  have heads : ∀ {c : Char} {left : List Char}, c ∈ ['(', '*', '['] → cs ≠ c :: left := by
    rintro c left member rfl
    simp only [List.mem_cons, List.not_mem_nil, or_false] at member
    rcases member with rfl | rfl | rfl <;> simp [Delimited] at delimited
  refine Grammar.not_accepts_postfixForm (fun left => heads (by decide))
    (fun left => heads (by decide))
    (fun left => heads (by decide)) ?_ delimited.not_accepts_fieldStep
  rintro left rfl
  cases delimited

theorem advances_postfixForm : full.postfixForm.Advances := alike_self.postfixForm.advances

theorem continuesName_postfixText (ends : continuesName rest = false) (forms : List Postfix) :
    continuesName (postfixText forms ++ rest) = false := by
  cases forms with
  | nil => exact ends
  | cons form forms => cases form <;> rfl

theorem postfixText_cons (form : Postfix) (forms : List Postfix) (rest : List Char) :
    postfixText (form :: forms) ++ rest = form.print ++ (postfixText forms ++ rest) :=
  List.append_assoc ..

/-- Postfix forms read back from their printed form. -/
theorem reprint_forms {forms : List Postfix} (nested : ReadsBackBelow full.expression bound)
    (short : cs.length < bound + 1) (read : many full.postfixForm cs = .accepted forms rest)
    (faithful : ∀ form ∈ forms, form.Faithful) (delimited : Delimited rest') :
    many full.postfixForm (postfixText forms ++ rest') = .accepted forms rest' := by
  induction forms generalizing cs with
  | nil => exact many_of_not_accepts delimited.not_accepts_postfixForm
  | cons form forms ih =>
    obtain ⟨middle, first, later⟩ := advances_postfixForm.many_eq_cons_iff.mp read
    obtain ⟨here, each⟩ := List.forall_mem_cons.mp faithful
    have shorter := (advances_postfixForm _ _ _ first).2
    rw [postfixText_cons]
    exact advances_postfixForm.many_eq_cons_iff.mpr ⟨_,
      reprint_postfix nested short first here
        (continuesName_postfixText delimited.continuesName forms),
      ih (by omega) later each⟩

/-- A reference ends before a postfix form that is no field. -/
theorem sealed_postfixText {forms : List Postfix} (delimited : Delimited rest)
    (unfielded : ∀ name more, forms ≠ .field name :: more) :
    Sealed (postfixText forms ++ rest) := by
  cases forms with
  | nil => exact delimited.sealed
  | cons form forms =>
    have bracketed : ∀ left, Sealed ('.' :: '[' :: left) := by
      refine fun left => ⟨rfl, ?_, by rintro _ ⟨⟩⟩
      rintro ⟨s, rest, accepted⟩
      obtain ⟨_, ⟨⟩, segment⟩ := char_bind_eq_iff.mp accepted
      obtain ⟨isSegment, chars⟩ := pathSegment_eq segment
      rcases choose_cons_eq_iff.mp segment with named | ⟨-, digital⟩
      · cases named
      · obtain ⟨_, read, -⟩ := map_eq_iff.mp digital
        exact accepts_digits1_iff.mp (accepts_of_eq read) (undigited_cons (by decide) _)
    have signed : ∀ {c : Char} {left : List Char}, c ∈ ['(', '*'] → Sealed (c :: left) := by
      intro c left member
      simp only [List.mem_cons, List.not_mem_nil, or_false] at member
      refine ⟨by rcases member with rfl | rfl <;> rfl, fun accepts => ?_, ?_⟩
      · obtain ⟨_, same⟩ := head_of_accepts_char accepts
        rcases member with rfl | rfl <;> cases same
      · rintro _ ⟨⟩
        rcases member with member | member <;> cases member
    rw [postfixText_cons]
    cases form with
    | call args => exact signed (by decide)
    | curry args => exact signed (by decide)
    | field name => exact absurd rfl (unfielded name forms)
    | project => exact bracketed _
    | slice start stop => exact bracketed _
    | index i => exact bracketed _

/-! ### Chains -/

theorem accepts_mergeForm_iff : mergeForm.Accepts cs ↔
    ∃ left, identifier cs = .accepted "merge" left ∧ ∀ rest, left ≠ '(' :: rest := by
  constructor
  · rintro ⟨_, _, form⟩
    obtain ⟨_, _, _, left, _, _, -, word, unopened, -⟩ := mergeForm_eq_iff.mp form
    exact ⟨left, word, unopened⟩
  · rintro ⟨left, word, unopened⟩
    obtain ⟨flags, left', flagged⟩ : (many mergeFlag).Accepts left := accepts_many
    obtain ⟨key, left'', keyed⟩ : (optional keyPart).Accepts left' := accepts_optional
    obtain ⟨path, rest, pathed⟩ : (optional pathPart).Accepts left'' := accepts_optional
    exact ⟨_, rest, mergeForm_eq_iff.mpr ⟨flags, path, key, left, left', left'', rfl,
      word, unopened,
      flagged, keyed, pathed⟩⟩

/-- A keyword starts an operand without sign as a tag, a path or the name of a call. -/
theorem keyword_primary {p : Expr} {s : String} (form : full.primary cs = .accepted p left)
    (solid : p.isLiteral = false) (named : identifier cs = .accepted s rest)
    (keyword : isKeyword s = true) : (∃ c left', rest = c :: left' ∧ (c = ':' ∨ c = '.')) ∨
      s = "merge" ∧ (∃ args, p = .intrinsic .merge args) ∧ ∃ left', rest = '(' :: left' := by
  cases primaryForm_of_eq form with
  | number form =>
    rw [isLiteral_of_number form] at solid
    cases solid
  | string _ => cases solid
  | bool _ _ => cases solid
  | nil _ => cases solid
  | undefined _ => cases solid
  | tilde _ => cases solid
  | list form =>
    obtain ⟨_, head⟩ := head_of_accepts_char (accepts_of_eq form)
    exact absurd head (ne_of_identifier named (by decide) _)
  | map form =>
    obtain ⟨_, head⟩ := head_of_accepts_char (accepts_of_eq form)
    exact absurd head (ne_of_identifier named (by decide) _)
  | group form =>
    obtain ⟨_, head⟩ := head_of_accepts_char (accepts_of_eq form)
    exact absurd head (ne_of_identifier named (by decide) _)
  | mergeCall form =>
    obtain ⟨left', word⟩ := identifier_mergeCall (accepts_of_eq form)
    obtain ⟨_, args, -, -, rfl⟩ := mergeCall_eq_iff.mp form
    obtain ⟨rfl, rfl⟩ := Parsed.accepted.inj (named.symm.trans word)
    exact .inr ⟨rfl, ⟨args, rfl⟩, left', rfl⟩
  | reference _ form => exact .inl ((reference_eq form).2.2.2.2 s rest named keyword)

/-- An operand without sign and postfix forms reads back from its printed form. -/
theorem reprint_primary {p : Expr} (nested : ReadsBackBelow full.expression bound)
    (short : cs.length < bound + 1) (unmerged : ¬mergeForm.Accepts cs)
    (form : full.primary cs = .accepted p left) (solid : p.isLiteral = false)
    (faithful : p.Everywhere Expr.Faithful) (ends : ∀ r, p = .reference r → Sealed rest') :
    full.primary (p.print ++ rest') = .accepted p rest' := by
  cases primaryForm_of_eq form with
  | number form =>
    rw [isLiteral_of_number form] at solid
    cases solid
  | string _ => cases solid
  | bool _ _ => cases solid
  | nil _ => cases solid
  | undefined _ => cases solid
  | tilde _ => cases solid
  | list form => exact reprint_list nested short form faithful
  | map form => exact reprint_map nested short form faithful
  | group form => exact reprint_group nested short form faithful
  | mergeCall form =>
    obtain ⟨left', args, rfl, read, rfl⟩ := mergeCall_eq_iff.mp form
    have shorter : left'.length < bound + 1 := by
      rw [List.length_append] at short
      omega
    have text : (Expr.intrinsic .merge args).print ++ rest' =
        "merge".toList ++ '(' :: (Expr.printArguments args ++ ')' :: rest') := by
      rw [Expr.print_intrinsic]
      simp [Intrinsic.name]
    rw [text]
    exact primary_mergeCall (mergeCall_eq_iff.mpr
      ⟨_, args, rfl, reprint_arguments nested shorter read faithful.2 rest', rfl⟩)
  | @reference r _ unnamed form =>
    obtain ⟨plain, -, -, named, keyword⟩ := reference_eq form
    have again := plain.reference_append (ends r rfl)
    obtain ⟨-, -, -, named', -⟩ := reference_eq again
    have same : nameAt ((Expr.reference r).print ++ rest') = nameAt cs := named'.trans named.symm
    refine primary_reference (by rwa [same]) ?_ again
    rw [same]
    intro merge
    obtain ⟨left', word⟩ := nameAt_eq_some_iff.mp merge
    refine unmerged (accepts_mergeForm_iff.mpr ⟨left', word, ?_⟩)
    obtain ⟨c, _, rfl, colon⟩ := keyword _ _ word rfl
    rintro _ ⟨⟩
    rcases colon with colon | colon <;> cases colon

/-- A chain reads back from its printed form. -/
theorem reprint_chain (nested : ReadsBackBelow full.expression bound)
    (short : cs.length < bound + 1)
    (unmerged : ¬mergeForm.Accepts cs) (named : nameAt cs ≠ some "auto")
    (form : full.chain cs = .accepted e rest) (faithful : e.Everywhere Expr.Faithful)
    (delimited : Delimited rest') : full.operandRule (e.print ++ rest') = .accepted e rest' := by
  obtain ⟨p, left, primary, ⟨literal, rfl, rfl⟩ | ⟨solid, forms, read, rfl⟩⟩ := chain_eq_iff.mp form
  · refine operandRule_printed_literal literal ?_ delimited
    rintro x rfl
    exact faithful
  have notNil : p ≠ .nil := by
    rintro rfl
    cases solid
  obtain ⟨leading, hasPath⟩ := nameAt_primary primary notNil
  obtain ⟨first, each⟩ := faithful_of_foldl faithful
  have shorter : left.length < bound + 1 := by
    have step := (alike_self.primary.advances _ _ _ primary).2
    omega
  -- A reference is not followed by a field, which it would have taken.
  have ends : ∀ r, p = .reference r → Sealed (postfixText forms ++ rest') := by
    rintro r rfl
    refine sealed_postfixText delimited ?_
    rintro name more rfl
    obtain ⟨middle, field, -⟩ := advances_postfixForm.many_eq_cons_iff.mp read
    have stops : ¬fieldStep.Accepts left := by
      cases primaryForm_of_eq primary with
      | reference _ form => exact (reference_eq form).2.2.1
      | number form =>
        rw [isLiteral_of_number form] at solid
        cases solid
      | list form =>
        obtain ⟨_, -, listed⟩ := listLiteral_eq_iff.mp form
        cases listed
      | map form =>
        obtain ⟨_, _, _, -, -, -, ⟨⟩⟩ := mapLiteral_eq_iff.mp form
      | group form =>
        obtain ⟨_, _, _, -, -, -, ⟨⟩⟩ := group_eq_iff.mp form
      | mergeCall form =>
        obtain ⟨_, _, -, -, ⟨⟩⟩ := mergeCall_eq_iff.mp form
    cases postfixForm_of_eq field with
    | index _ suffix =>
      obtain ⟨_, _, -, body, -⟩ := indexSuffix_eq_iff.mp suffix
      cases body
    | field step => exact stops (accepts_of_eq step)
  have again := reprint_primary nested short unmerged primary solid first ends
  have forms' := reprint_forms nested shorter read each delimited
  have same : nameAt (p.print ++ (postfixText forms ++ rest')) = nameAt cs :=
    (nameAt_primary again notNil).1.trans leading.symm
  have text : (forms.foldl applyPostfix p).print ++ rest' =
      p.print ++ (postfixText forms ++ rest') := by
    rw [print_foldl hasPath, List.append_assoc]
  rw [text]
  refine operandRule_chain (opensPrimary_of_accepts (accepts_of_eq again)) ?_ (by rwa [same]) ?_
    (chain_eq_iff.mpr ⟨p, _, again, .inr ⟨solid, forms, forms', rfl⟩⟩)
  · intro accepts
    obtain ⟨left', word, unopened⟩ := accepts_mergeForm_iff.mp accepts
    rcases keyword_primary again solid word rfl with ⟨c, _, rfl, colon⟩ | ⟨-, -, _, rfl⟩
    · have merge := nameAt_of_identifier word
      rw [same] at merge
      obtain ⟨left'', word'⟩ := nameAt_eq_some_iff.mp merge
      rcases keyword_primary primary solid word' rfl with ⟨c', _, rfl, colon'⟩ | ⟨-, ⟨args, rfl⟩, -⟩
      · refine unmerged (accepts_mergeForm_iff.mpr ⟨_, word', ?_⟩)
        rintro _ ⟨⟩
        rcases colon' with colon' | colon' <;> cases colon'
      · have call :
          identifier ((Expr.intrinsic .merge args).print ++ (postfixText forms ++ rest')) =
            .accepted "merge"
              ('(' :: (Expr.printArguments args ++ ')' :: (postfixText forms ++ rest'))) := by
          have text' :
            (Expr.intrinsic .merge args).print ++ (postfixText forms ++ rest') = "merge".toList ++
              '(' :: (Expr.printArguments args ++ ')' :: (postfixText forms ++ rest')) := by
            rw [Expr.print_intrinsic]
            simp [Intrinsic.name]
          rw [text']
          exact isName_merge.identifier_append rfl
        exact unopened _ (Parsed.accepted.inj (word.symm.trans call)).2
    · exact unopened _ rfl
  · intro s left' word spelled
    have keyword : isKeyword s = true := by rcases spelled with rfl | rfl <;> rfl
    rcases keyword_primary again solid word keyword with ⟨c, left'', rfl, colon⟩ | ⟨rfl, -⟩
    · have unspaced : Blank.isSpacing c = false := by rcases colon with rfl | rfl <;> rfl
      constructor
      · rintro ⟨_, _, accepted⟩
        obtain ⟨_, _, ⟨⟩, spacing, -⟩ := spaces1_eq_iff.mp accepted
        rw [unspaced] at spacing
        cases spacing
      · intro _ same'
        rw [unspaced_cons unspaced] at same'
        cases same'
        rcases colon with colon | colon <;> cases colon
    · rcases spelled with spelled | spelled <;> exact absurd spelled (by decide)

end Grammar

end Cascade
