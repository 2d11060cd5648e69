import Cascade.Proofs.Reprinting

/-!
# Reading printed brackets

Lambdas, lists, maps and groups read back from their printed form if the expressions in them do.

## Main statements

* `Grammar.reprint_lambda`, `Grammar.reprint_list`, `Grammar.reprint_map`, `Grammar.reprint_group`.
-/

namespace Cascade

namespace Grammar

open Cascade.Parser

variable {bound : Nat} {cs rest rest' : List Char}

/-! ### Items -/

theorem everywhereInItems_iff {P : Expr → Prop} {items : List Expr} :
    Expr.EverywhereInItems P items ↔ ∀ e ∈ items, e.Everywhere P := by
  induction items with
  | nil => exact ⟨fun _ => by simp, fun _ => trivial⟩
  | cons e items ih =>
    rw [List.forall_mem_cons, ← ih]
    exact Iff.rfl

theorem everywhereInEntries_iff {P : Expr → Prop} {entries : List (String × Expr)} :
    Expr.EverywhereInEntries P entries ↔ ∀ entry ∈ entries, entry.2.Everywhere P := by
  induction entries with
  | nil => exact ⟨fun _ => by simp, fun _ => trivial⟩
  | cons entry entries ih =>
    rw [List.forall_mem_cons, ← ih]
    exact Iff.rfl

theorem everywhereInArguments_iff {P : Expr → Prop} {args : List Argument} :
    Expr.EverywhereInArguments P args ↔ ∀ a ∈ args, a.expr.Everywhere P := by
  induction args with
  | nil => exact ⟨fun _ => by simp, fun _ => trivial⟩
  | cons a args ih =>
    rw [List.forall_mem_cons, ← ih]
    cases a <;> exact Iff.rfl

theorem everywhereInParameters_iff {P : Expr → Prop} {params : List Parameter} :
    Expr.EverywhereInParameters P params ↔ ∀ p ∈ params, Expr.EverywhereInOption P p.default := by
  induction params with
  | nil => exact ⟨fun _ => by simp, fun _ => trivial⟩
  | cons p params ih =>
    obtain ⟨name, default, variadic⟩ := p
    rw [List.forall_mem_cons, ← ih]
    exact Iff.rfl

theorem readsItems_expression (nested : ReadsBackBelow full.expression bound) :
    ReadsItems full.expression Expr.print (fun e => e.Everywhere Expr.Faithful) bound := by
  intro cs e rest short read faithful rest' ends
  have again := nested cs e rest short read faithful rest' (ends.toClosed.ends e rest)
  exact ⟨again.accepted, again.start.unspaced⟩

theorem not_accepts_expression (closed : Closed cs) (solid : Unspaced cs) :
    ¬full.expression.Accepts cs := by
  rw [accepts_expression_iff]
  have closes := closed.closes
  rw [solid] at closes
  exact (closes_facts closes).2.1

theorem not_accepts_word_points (unpointed : ∀ left, cs ≠ '.' :: left) :
    ¬(word "...".toList).Accepts cs := by
  rintro ⟨_, left, accepted⟩
  exact unpointed _ (word_eq_iff.mp accepted)

theorem accepts_equals_head {α : Type} {f : Unit → Parser α}
    (accepts : (spaced (char '=') >>= f).Accepts cs) :
    ∃ left, cs.dropWhile Blank.isSpacing = '=' :: left := by
  obtain ⟨_, _, accepted, -⟩ := accepts_bind_iff.mp accepts
  obtain ⟨left, head, -⟩ := spaced_eq_iff.mp accepted
  exact ⟨left, char_eq_iff.mp head⟩

theorem closes_ne_equals {left : List Char}
    (closed : closes (cs.dropWhile Blank.isSpacing) = true) :
    cs.dropWhile Blank.isSpacing ≠ '=' :: left := by
  intro same
  rw [same] at closed
  cases closed

theorem shrinks_separated {α β : Type} {p : Parser α} {separator : Parser β} (item : p.Advances)
    (between : separator.Advances) : (separated p separator).Shrinks :=
  ((item.alike : Parser.Alike true 0 p p).separated between).suffix

/-! ### Parameters -/

/-- A default value behind its equals sign. -/
def defaultPart : Parser Expr := do
  spaced (char '=')
  full.expression

/-- The forms of parameters. -/
inductive ParameterForm (left : List Char) (name : String) : Parameter → List Char → Prop
  | variadic {rest : List Char} (points : left = "...".toList ++ rest) :
    ParameterForm left name ⟨name, none, true⟩ rest
  | plain (unpointed : ¬(word "...".toList).Accepts left) (absent : ¬defaultPart.Accepts left) :
      ParameterForm left name ⟨name, none, false⟩ left
  | default {e : Expr} {rest : List Char} (unpointed : ¬(word "...".toList).Accepts left)
      (value : defaultPart left = .accepted e rest) :
        ParameterForm left name ⟨name, some e, false⟩ rest

theorem parameter_eq_iff {p : Parameter} : full.parameter cs = .accepted p rest ↔
    ∃ name left, identifier cs = .accepted name left ∧ ParameterForm left name p rest := by
  refine Iff.trans bind_eq_iff (exists_congr fun name => exists_congr fun left => and_congr_right
    fun _ => Iff.trans bind_eq_iff ?_)
  constructor
  · rintro ⟨points, middle, read, later⟩
    cases points with
    | some points =>
      cases later
      exact .variadic (word_eq_iff.mp (optional_eq_some_iff.mp read))
    | none =>
      obtain ⟨unpointed, rfl⟩ := optional_eq_none_iff.mp read
      obtain ⟨value, last, read', same⟩ := bind_eq_iff.mp later
      cases same
      cases value with
      | none =>
        obtain ⟨absent, rfl⟩ := optional_eq_none_iff.mp read'
        exact .plain unpointed absent
      | some value => exact .default unpointed (optional_eq_some_iff.mp read')
  · intro form
    cases form with
    | variadic points =>
      exact ⟨some (), rest, optional_eq_some_iff.mpr (word_eq_iff.mpr points), rfl⟩
    | plain unpointed absent =>
      exact ⟨none, _, optional_eq_none_iff.mpr ⟨unpointed, rfl⟩, bind_eq_iff.mpr
        ⟨none, _, optional_eq_none_iff.mpr ⟨absent, rfl⟩, rfl⟩⟩
    | @default e _ unpointed value =>
      exact ⟨none, _, optional_eq_none_iff.mpr ⟨unpointed, rfl⟩, bind_eq_iff.mpr
        ⟨some e, rest, optional_eq_some_iff.mpr value, rfl⟩⟩

theorem readsItems_parameter (nested : ReadsBackBelow full.expression bound) :
    ReadsItems full.parameter Expr.printParameter
      (fun p => Expr.EverywhereInOption Expr.Faithful p.default) bound := by
  intro cs p rest short read faithful rest' ends
  obtain ⟨name, left, named, form⟩ := parameter_eq_iff.mp read
  obtain ⟨isName, -, -⟩ := identifier_eq_iff.mp named
  have unpointed := not_accepts_word_points ends.unpointed
  cases form with
  | variadic points =>
    have text : Expr.printParameter ⟨name, none, true⟩ ++ rest' =
        name.toList ++ ("...".toList ++ rest') := by
      simp [Expr.printParameter, Expr.printDefault]
    rw [text]
    exact ⟨parameter_eq_iff.mpr ⟨name, _, isName.identifier_append rfl, .variadic rfl⟩,
      isName.unspaced _⟩
  | plain _ _ =>
    have text : Expr.printParameter ⟨name, none, false⟩ ++ rest' = name.toList ++ rest' := by
      simp [Expr.printParameter, Expr.printDefault]
    rw [text]
    refine ⟨parameter_eq_iff.mpr ⟨name, _, isName.identifier_append ends.delimited.continuesName,
      .plain unpointed fun accepts => ?_⟩, isName.unspaced _⟩
    obtain ⟨left', same⟩ := accepts_equals_head accepts
    exact closes_ne_equals ends.closes same
  | @default e _ _ value =>
    obtain ⟨_, middle, equals, inner⟩ := bind_eq_iff.mp value
    have shorter : middle.length < bound := by
      have step := (advances_identifier _ _ _ named).2
      have skip := ((advances_char '=').spaced _ _ _ equals).2
      omega
    have again := nested _ _ _ shorter inner faithful rest' (ends.toClosed.ends e rest)
    have text : Expr.printParameter ⟨name, some e, false⟩ ++ rest' =
        name.toList ++ '=' :: (e.print ++ rest') := by
      simp [Expr.printParameter, Expr.printDefault]
    rw [text]
    refine ⟨parameter_eq_iff.mpr ⟨name, _, isName.identifier_append rfl, .default
      (not_accepts_word_points (by rintro _ ⟨⟩)) (bind_eq_iff.mpr ⟨(), e.print ++ rest',
        spaced_eq_iff.mpr ⟨e.print ++ rest', char_eq_iff.mpr rfl, again.start.unspaced.symm⟩,
        again.accepted⟩)⟩, isName.unspaced _⟩

theorem not_accepts_parameter (unnamed : nameAt cs = none) : ¬full.parameter.Accepts cs := by
  rintro ⟨p, rest, accepted⟩
  obtain ⟨name, left, named, -⟩ := parameter_eq_iff.mp accepted
  rw [nameAt_of_identifier named] at unnamed
  cases unnamed

theorem advances_parameter : full.parameter.Advances := alike_self.parameter.advances

/-- A lambda reads back from its printed form. -/
theorem reprint_lambda {params : List Parameter} {body : Expr} {left : List Char}
    (nested : ReadsBackBelow full.expression bound) (short : left.length < bound)
    (form : LambdaForm left params body rest)
    (faithful : (Expr.lambda ⟨params, body⟩).Everywhere Expr.Faithful)
    (ends : Ends (.lambda ⟨params, body⟩) rest rest') :
    full.operandRule ((Expr.lambda ⟨params, body⟩).print ++ rest') =
      .accepted (.lambda ⟨params, body⟩) rest' := by
  obtain ⟨left₁, left₂, left₃, read, bar, arrow, inner⟩ := form
  obtain ⟨-, inParams, inBody⟩ := faithful
  have skip : ∀ cs : List Char, (cs.dropWhile Blank.isSpacing).length ≤ cs.length := fun cs =>
    (List.dropWhile_suffix _).length_le
  have shorter : (left₃.dropWhile Blank.isSpacing).length < bound := by
    have first := (shrinks_separated advances_parameter advances_comma).length_le read
    have second := congrArg List.length bar
    have third := congrArg List.length arrow
    simp only [List.length_cons] at second third
    have := skip left
    have := skip left₁
    have := skip left₂
    have := skip left₃
    omega
  have again := nested _ _ _ shorter inner inBody rest' (ends.of_eq id)
  have text : (Expr.lambda ⟨params, body⟩).print ++ rest' = '|' ::
      (commaText Expr.printParameter params ++ '|' :: '-' :: '>' :: (body.print ++ rest')) := by
    rw [Expr.print_lambda, printParameters_eq]
    simp
  obtain ⟨parameters, solid⟩ := (readsItems_parameter nested).separated advances_parameter
    (Nat.lt_of_le_of_lt (skip left) short) read (everywhereInParameters_iff.mp inParams)
    (itemEnd_bar ('>' :: (body.print ++ rest'))) (by rintro _ ⟨⟩)
      (not_accepts_parameter (nameAt_cons rfl _))
  have unspaced : Unspaced (commaText Expr.printParameter params ++
      '|' :: '-' :: '>' :: (body.print ++ rest')) := by
    cases params with
    | nil => exact unspaced_cons rfl _
    | cons p params => exact solid (List.cons_ne_nil _ _)
  rw [text]
  refine operandRule_lambda ⟨'|' :: '-' :: '>' :: (body.print ++ rest'),
    '-' :: '>' :: (body.print ++ rest'), body.print ++ rest', ?_, rfl, rfl, ?_⟩
  · rw [unspaced]
    exact parameters
  · rw [again.start.unspaced]
    exact again.accepted

/-! ### Lists -/

/-- What follows the opening bracket is shorter than the bracketed text. -/
theorem length_dropWhile_lt {b : Char} {left : List Char} (short : (b :: left).length < bound + 1) :
    (left.dropWhile Blank.isSpacing).length < bound := by
  have skip := (List.dropWhile_suffix Blank.isSpacing (l := left)).length_le
  rw [List.length_cons] at short
  omega

theorem rangePart_eq_iff {stop : Expr} : rangePart cs = .accepted stop rest ↔ ∃ left left',
    cs.dropWhile Blank.isSpacing = '.' :: '.' :: left ∧
      full.expression (left.dropWhile Blank.isSpacing) = .accepted stop left' ∧
      left'.dropWhile Blank.isSpacing = ']' :: rest := by
  refine Iff.trans bind_eq_iff ?_
  constructor
  · rintro ⟨_, middle, points, later⟩
    obtain ⟨left, head, rfl⟩ := spaced_eq_iff.mp points
    obtain ⟨stop', left', inner, last⟩ := bind_eq_iff.mp later
    obtain ⟨rest', bracket, same⟩ := char_bind_eq_iff.mp (spaces_bind_eq_iff.mp last)
    cases same
    exact ⟨left, left', word_eq_iff.mp head, inner, bracket⟩
  · rintro ⟨left, left', head, inner, bracket⟩
    exact ⟨(), _, spaced_eq_iff.mpr ⟨left, word_eq_iff.mpr head, rfl⟩, bind_eq_iff.mpr
      ⟨stop, left', inner, spaces_bind_eq_iff.mpr (char_bind_eq_iff.mpr ⟨rest, bracket, rfl⟩)⟩⟩

theorem not_accepts_rangePart (other : ∀ left, cs.dropWhile Blank.isSpacing ≠ '.' :: left) :
    ¬rangePart.Accepts cs := by
  rintro ⟨stop, rest, accepted⟩
  obtain ⟨left, -, head, -⟩ := rangePart_eq_iff.mp accepted
  exact other _ head

/-- A list or a range reads back from its printed form. -/
theorem reprint_list {e : Expr} (nested : ReadsBackBelow full.expression bound)
    (short : cs.length < bound + 1) (form : full.listLiteral cs = .accepted e rest)
    (faithful : e.Everywhere Expr.Faithful) :
    full.primary (e.print ++ rest') = .accepted e rest' := by
  obtain ⟨left, rfl, listed⟩ := listLiteral_eq_iff.mp form
  have shorter := length_dropWhile_lt short
  cases listed with
  | empty _ _ =>
    refine primary_list
      (listLiteral_eq_iff.mpr ⟨']' :: rest', rfl, .empty ?_ (closing_bracket (by decide) rfl)⟩)
    exact not_accepts_expression (closed_of_head rfl (by simp [Delimited]) rfl)
      (unspaced_cons rfl _)
  | @range first stop left' _ read limit =>
    obtain ⟨middle, left'', head, inner, -⟩ := rangePart_eq_iff.mp limit
    have shorter' : (middle.dropWhile Blank.isSpacing).length < bound := by
      have step := (advances_expression _ _ _ read).2
      have points := congrArg List.length head
      simp only [List.length_cons] at points
      have skip := (List.dropWhile_suffix Blank.isSpacing (l := left')).length_le
      have skip' := (List.dropWhile_suffix Blank.isSpacing (l := middle)).length_le
      omega
    have bracket : Closed (']' :: rest') := closed_of_head rfl (by simp [Delimited]) rfl
    have second := nested _ _ _ shorter' inner faithful.2.2 _ (bracket.ends stop left'')
    have first' := nested _ _ _ shorter read faithful.2.1
      ('.' :: '.' :: (stop.print ++ ']' :: rest'))
      ((closed_points _).ends first left')
    have text : (Expr.range first stop).print ++ rest' =
        '[' :: (first.print ++ '.' :: '.' :: (stop.print ++ ']' :: rest')) := by
      rw [Expr.print_range]
      simp
    rw [text]
    refine primary_list (listLiteral_eq_iff.mpr ⟨_, rfl, ?_⟩)
    rw [first'.start.unspaced]
    refine .range first'.accepted
      (rangePart_eq_iff.mpr ⟨stop.print ++ ']' :: rest', ']' :: rest', rfl, ?_, rfl⟩)
    rw [second.start.unspaced]
    exact second.accepted
  | @items first items left' left'' _ read _ more _ =>
    obtain ⟨faithful', each⟩ := List.forall_mem_cons.mp (everywhereInItems_iff.mp faithful.2)
    have shorter' : left'.length < bound := by
      have step := (advances_expression _ _ _ read).2
      omega
    have ends : ItemEnd (']' :: rest') := itemEnd_of_head (by decide) _
    have last : ∀ left, (']' :: rest').dropWhile Blank.isSpacing ≠ ',' :: left := by rintro _ ⟨⟩
    have more' := (readsItems_expression nested).many advances_expression shorter' more
      each ends last
    have follows : ItemEnd (commaTail Expr.print items ++ ']' :: rest') :=
      itemEnd_commaTail ends
    have first' := nested _ _ _ shorter read faithful' _ (follows.toClosed.ends first left')
    have text : (Expr.list (first :: items)).print ++ rest' =
        '[' :: (first.print ++ (commaTail Expr.print items ++ ']' :: rest')) := by
      rw [Expr.print_list, printItems_eq, commaText]
      simp
    rw [text]
    refine primary_list (listLiteral_eq_iff.mpr ⟨_, rfl, ?_⟩)
    rw [first'.start.unspaced]
    refine .items first'.accepted (not_accepts_rangePart ?_) more' (closing_bracket (by decide) rfl)
    cases items with
    | nil => rintro _ ⟨⟩
    | cons second items =>
      rw [commaTail_cons]
      rintro _ ⟨⟩

/-! ### Maps -/

theorem isName_of_isPlainKey {key : String} (plain : Expr.isPlainKey key = true) : IsName key := by
  have parts : ∀ {cs : List Char}, cs.all Expr.isNamePart = true → nameRest cs = (cs, []) := by
    intro cs all
    induction cs with
    | nil => rfl
    | cons c cs ih =>
      rw [List.all_cons, Bool.and_eq_true] at all
      obtain ⟨part, all'⟩ := all
      have other : c ≠ '-' := by
        rintro rfl
        cases part
      rw [nameRest, if_pos (by rw [continuesName_of_ne other]; exact part), ih all']
  unfold Expr.isPlainKey at plain
  split at plain
  · next c cs chars =>
    obtain ⟨start, all⟩ := Bool.and_eq_true_iff.mp plain
    rw [IsName, chars, identifier_cons, if_pos start, parts all, ← chars, String.ofList_toList]
  · cases plain

/-- A key of a map reads back from its printed form. -/
theorem key_append {key : String} {c : Char} (other : continuesName (c :: rest) = false) :
    Parser.choose [stringLiteral, identifier] (Expr.printKey key ++ c :: rest) = .accepted key
    (c :: rest) := by
  unfold Expr.printKey
  by_cases plain : Expr.isPlainKey key = true
  · rw [if_pos plain]
    have word := (isName_of_isPlainKey plain).identifier_append other
    refine choose_cons_eq_iff.mpr (.inr ⟨fun accepts => ?_, word⟩)
    obtain ⟨left, head⟩ := head_of_accepts_char accepts
    rw [head] at word
    cases word
  · rw [if_neg plain]
    exact choose_cons_eq_iff.mpr (.inl (stringLiteral_quote key _))

/-- The sign between a key and its value. -/
def keySign : Parser Char := spaced (satisfy fun c => c == '=' || c == ':')

theorem mapEntry_eq_iff {entry : String × Expr} : full.mapEntry cs = .accepted entry rest ↔
    ∃ left c left', Parser.choose [stringLiteral, identifier] cs = .accepted entry.1 left ∧
      keySign left = .accepted c left' ∧ full.expression left' = .accepted entry.2 rest := by
  refine Iff.trans bind_eq_iff ?_
  constructor
  · rintro ⟨key, left, read, later⟩
    obtain ⟨c, left', sign, later'⟩ := bind_eq_iff.mp later
    obtain ⟨e, last, inner, same⟩ := bind_eq_iff.mp later'
    cases same
    exact ⟨left, c, left', read, sign, inner⟩
  · rintro ⟨left, c, left', read, sign, inner⟩
    exact ⟨entry.1, left, read, bind_eq_iff.mpr ⟨c, left', sign, bind_eq_iff.mpr
      ⟨entry.2, rest, inner, rfl⟩⟩⟩

theorem advances_mapEntry : full.mapEntry.Advances := alike_self.mapEntry.advances

theorem unspaced_printKey (key : String) (rest : List Char) :
    Unspaced (Expr.printKey key ++ rest) := by
  unfold Expr.printKey
  by_cases plain : Expr.isPlainKey key = true
  · rw [if_pos plain]
    exact (isName_of_isPlainKey plain).unspaced rest
  · rw [if_neg plain]
    exact unspaced_cons rfl _

theorem readsItems_mapEntry (nested : ReadsBackBelow full.expression bound) :
    ReadsItems full.mapEntry (fun entry => Expr.printKey entry.1 ++ " = ".toList ++ entry.2.print)
      (fun entry => entry.2.Everywhere Expr.Faithful) bound := by
  intro cs entry rest short read faithful rest' ends
  obtain ⟨left, c, left', keyed, sign, inner⟩ := mapEntry_eq_iff.mp read
  have shorter : left'.length < bound := by
    have key : (Parser.choose [stringLiteral, identifier]).Advances :=
      Advances.choose (by simp [advances_stringLiteral, advances_identifier])
    have first := (key _ _ _ keyed).2
    have second := ((advances_satisfy _).spaced _ _ _ sign).2
    omega
  have again := nested _ _ _ shorter inner faithful rest' (ends.toClosed.ends entry.2 rest)
  have text : Expr.printKey entry.1 ++ " = ".toList ++ entry.2.print ++ rest' =
      Expr.printKey entry.1 ++ ' ' :: '=' :: ' ' :: (entry.2.print ++ rest') := by
    simp
  change full.mapEntry (Expr.printKey entry.1 ++ " = ".toList ++ entry.2.print ++ rest') = _ ∧
    Unspaced (Expr.printKey entry.1 ++ " = ".toList ++ entry.2.print ++ rest')
  rw [text]
  refine ⟨mapEntry_eq_iff.mpr ⟨_, '=', entry.2.print ++ rest', key_append rfl, ?_, again.accepted⟩,
    unspaced_printKey _ _⟩
  refine spaced_eq_iff.mpr ⟨' ' :: (entry.2.print ++ rest'), satisfy_eq_iff.mpr ⟨rfl, rfl⟩, ?_⟩
  rw [List.dropWhile_cons_of_pos rfl, again.start.unspaced]

/-- A map reads back from its printed form. -/
theorem reprint_map {e : Expr} (nested : ReadsBackBelow full.expression bound)
    (short : cs.length < bound + 1) (form : full.mapLiteral cs = .accepted e rest)
    (faithful : e.Everywhere Expr.Faithful) :
    full.primary (e.print ++ rest') = .accepted e rest' := by
  obtain ⟨left, entries, left', rfl, read, -, rfl⟩ := mapLiteral_eq_iff.mp form
  have shorter := length_dropWhile_lt short
  have refuses : ∀ cs, ¬full.mapEntry.Accepts ('}' :: cs) := by
    rintro cs ⟨_, _, accepted⟩
    obtain ⟨_, _, _, keyed, -⟩ := mapEntry_eq_iff.mp accepted
    cases keyed
  cases entries with
  | nil =>
    exact primary_map (mapLiteral_eq_iff.mpr ⟨'}' :: rest', [], '}' :: rest', rfl,
      separated_eq_iff.mpr (.inl ⟨refuses _, rfl, rfl⟩), closing_bracket (by decide) rfl, rfl⟩)
  | cons entry entries =>
    have refuses' : ¬full.mapEntry.Accepts (' ' :: '}' :: rest') := by
      rintro ⟨_, _, accepted⟩
      obtain ⟨_, _, _, keyed, -⟩ := mapEntry_eq_iff.mp accepted
      cases keyed
    obtain ⟨again, solid⟩ := (readsItems_mapEntry nested).separated advances_mapEntry shorter read
      (everywhereInEntries_iff.mp faithful.2) (itemEnd_brace rest') (by rintro _ ⟨⟩) refuses'
    have text : (Expr.map (entry :: entries)).print ++ rest' = '{' :: ' ' ::
        (commaText (fun entry => Expr.printKey entry.1 ++ " = ".toList ++ entry.2.print)
          (entry :: entries) ++ ' ' :: '}' :: rest') := by
      rw [Expr.print_map_cons, printEntries_eq]
      simp
    rw [text]
    refine primary_map (mapLiteral_eq_iff.mpr ⟨_, entry :: entries, ' ' :: '}' :: rest', rfl, ?_,
      closing_bracket (by decide) rfl, rfl⟩)
    rw [List.dropWhile_cons_of_pos rfl, solid (List.cons_ne_nil _ _)]
    exact again

/-! ### Groups -/

/-- A group reads back from its printed form. -/
theorem reprint_group {e : Expr} (nested : ReadsBackBelow full.expression bound)
    (short : cs.length < bound + 1) (form : full.group cs = .accepted e rest)
    (faithful : e.Everywhere Expr.Faithful) :
    full.primary (e.print ++ rest') = .accepted e rest' := by
  obtain ⟨left, o, left', rfl, inner, -, rfl⟩ := group_eq_iff.mp form
  have bracket : Closed (')' :: rest') := closed_of_head rfl (by simp [Delimited]) rfl
  have again := nested _ _ _ (length_dropWhile_lt short) inner faithful.2 _ (bracket.ends o left')
  have text : (Expr.grouped o).print ++ rest' = '(' :: (o.print ++ ')' :: rest') := by
    rw [Expr.print_grouped]
    simp
  rw [text]
  refine primary_group
    (group_eq_iff.mpr ⟨o.print ++ ')' :: rest', o, ')' :: rest', rfl, ?_, rfl, rfl⟩)
  rw [again.start.unspaced]
  exact again.accepted

end Grammar

end Cascade
