import Cascade.Proofs.FloatSigns
import Cascade.Proofs.GrammarDepth
import Cascade.Proofs.PrintedForms

/-!
# Tokens

What the smallest rules of the grammar accept, and that they accept their own printed form before
any text that does not continue it.

## Main definitions

* `Grammar.IsName`, `Grammar.IsSegment`, `Grammar.IsTag`: texts that are read whole.
* `Grammar.Delimited`: what may follow a whole expression in a printed text.

## Main statements

* `Grammar.identifier_eq_iff`, `Grammar.keyword_eq_iff`, `Grammar.digits1_eq_iff`.
-/

namespace Cascade

namespace Grammar

open Cascade.Parser

/-! ### Names -/

/-- The text is a name. -/
def IsName (s : String) : Prop := identifier s.toList = .accepted s []

theorem nameRest_eq {cs name rest : List Char} (split : nameRest cs = (name, rest)) :
    cs = name ++ rest ∧ continuesName rest = false := by
  induction cs generalizing name with
  | nil =>
    cases split
    exact ⟨rfl, rfl⟩
  | cons c cs ih =>
    rw [nameRest] at split
    split at split
    · cases split
      obtain ⟨whole, ends⟩ := ih rfl
      exact ⟨congrArg (c :: ·) whole, ends⟩
    · next ends =>
      cases split
      exact ⟨rfl, Bool.eq_false_iff.mpr ends⟩

theorem continuesName_of_ne {c : Char} {rest : List Char} (other : c ≠ '-') :
    continuesName (c :: rest) = Expr.isNamePart c := by
  unfold continuesName
  split
  · next same =>
    cases same
    exact absurd rfl other
  · next same =>
    cases same
    rfl
  · next same => cases same

theorem continuesName_of_isNameStart {c : Char} {rest : List Char} (start : Expr.isNameStart c) :
    continuesName (c :: rest) = true := by
  have part : Expr.isNamePart c = true := by
    simp only [Expr.isNameStart, Expr.isNamePart, Char.isAlphanum, Bool.or_eq_true] at start ⊢
    tauto
  rw [continuesName_of_ne]
  · exact part
  · rintro rfl
    exact absurd start (by decide)

theorem nameRest_append {cs name rest rest' : List Char} (split : nameRest cs = (name, rest))
    (ends : continuesName rest' = false) : nameRest (name ++ rest') = (name, rest') := by
  induction cs generalizing name with
  | nil =>
    cases split
    cases rest' with
    | nil => rfl
    | cons c rest' =>
        rw [List.nil_append, nameRest, if_neg (by rw [ends]; exact Bool.false_ne_true)]
  | cons c cs ih =>
    rw [nameRest] at split
    split at split
    · next continues =>
      cases split
      have more : continuesName (c :: ((nameRest cs).1 ++ rest')) = true := by
        by_cases hyphen : c = '-'
        · subst hyphen
          cases cs with
          | nil => cases continues
          | cons d cs =>
            have start : Expr.isNameStart d = true := continues
            rw [nameRest, if_pos (continuesName_of_isNameStart start)]
            exact start
        · rwa [continuesName_of_ne hyphen] at continues ⊢
      rw [List.cons_append, nameRest, if_pos more, ih rfl]
    · cases split
      cases rest' with
      | nil => rfl
      | cons c rest' =>
          rw [List.nil_append, nameRest, if_neg (by rw [ends]; exact Bool.false_ne_true)]

theorem identifier_cons (c : Char) (cs : List Char) : identifier (c :: cs) =
    if Expr.isNameStart c then .accepted (String.ofList (c :: (nameRest cs).1)) (nameRest cs).2
    else .failed (c :: cs) := by
  refine (bind_apply (satisfy Expr.isNameStart) _ (c :: cs)).trans ?_
  rw [satisfy]
  by_cases start : Expr.isNameStart c
  · rw [if_pos start, if_pos start]
  · rw [if_neg start, if_neg start]

/-- A name ends where no more of it can be read. -/
theorem identifier_eq_iff {cs rest : List Char} {s : String} :
    identifier cs = .accepted s rest ↔
      IsName s ∧ cs = s.toList ++ rest ∧ continuesName rest = false := by
  have reads : ∀ {cs rest : List Char} {s : String}, identifier cs = .accepted s rest →
      ∀ rest', continuesName rest' = false →
      cs = s.toList ++ rest ∧ continuesName rest = false ∧
        identifier (s.toList ++ rest') = .accepted s rest' := by
    intro cs rest s accepted rest' ends
    cases cs with
    | nil => cases accepted
    | cons c cs =>
      rw [identifier_cons] at accepted
      split at accepted
      · next start =>
        cases accepted
        obtain ⟨whole, stops⟩ :=
          nameRest_eq (rfl : nameRest cs = ((nameRest cs).1, (nameRest cs).2))
        rw [String.toList_ofList, List.cons_append, List.cons_append, identifier_cons, if_pos start,
          nameRest_append rfl ends, ← whole]
        exact ⟨rfl, stops, rfl⟩
      · cases accepted
  constructor
  · intro accepted
    obtain ⟨whole, ends, -⟩ := reads accepted [] rfl
    obtain ⟨-, -, alone⟩ := reads accepted [] rfl
    rw [List.append_nil] at alone
    exact ⟨alone, whole, ends⟩
  · rintro ⟨isName, rfl, ends⟩
    exact (reads isName rest ends).2.2

theorem IsName.identifier_append {s : String} (isName : IsName s) {rest : List Char}
    (ends : continuesName rest = false) : identifier (s.toList ++ rest) = .accepted s rest :=
  identifier_eq_iff.mpr ⟨isName, rfl, ends⟩

theorem IsName.exists_cons {s : String} (isName : IsName s) :
    ∃ c cs, s.toList = c :: cs ∧ Expr.isNameStart c = true := by
  unfold IsName at isName
  cases whole : s.toList with
  | nil =>
    rw [whole] at isName
    cases isName
  | cons c cs =>
    rw [whole, identifier_cons] at isName
    split at isName
    · next start => exact ⟨c, cs, rfl, start⟩
    · cases isName

theorem accepts_identifier_iff {cs : List Char} :
    identifier.Accepts cs ↔ ∃ c rest, cs = c :: rest ∧ Expr.isNameStart c = true := by
  cases cs with
  | nil => exact ⟨fun ⟨_, _, h⟩ => (by cases h), fun ⟨_, _, h, _⟩ => (by cases h)⟩
  | cons c cs =>
    unfold Accepts
    rw [identifier_cons]
    split
    · next start => exact ⟨fun _ => ⟨c, cs, rfl, start⟩, fun _ => ⟨_, _, rfl⟩⟩
    · next start => exact ⟨fun ⟨_, _, h⟩ => (by cases h), fun ⟨_, _, h, s⟩ =>
        (by cases h; contradiction)⟩

/-! The words of the grammar are names. -/

theorem isName_true : IsName "true" := rfl

theorem isName_false : IsName "false" := rfl

theorem isName_nil : IsName "nil" := rfl

theorem isName_merge : IsName "merge" := rfl

theorem isName_auto : IsName "auto" := rfl

theorem isName_prefer : IsName "prefer" := rfl

theorem isName_lambda : IsName "lambda" := rfl

theorem isName_on : IsName "on" := rfl

theorem isName_replace : IsName "replace" := rfl

theorem isName_required : IsName "required" := rfl

theorem isName_tag : IsName "tag" := rfl

theorem isName_or : IsName "or" := rfl

theorem isName_and : IsName "and" := rfl

/-- A keyword is read where the name is that keyword. -/
theorem keyword_eq_iff {w : String} (isName : IsName w) {cs rest : List Char} {u : Unit} :
    keyword w cs = .accepted u rest ↔ identifier cs = .accepted w rest := by
  rw [identifier_eq_iff]
  refine Iff.trans bind_eq_iff ⟨?_, ?_⟩
  · rintro ⟨_, middle, here, later⟩
    obtain rfl := word_eq_iff.mp here
    split at later
    · cases later
    · next ends =>
      cases later
      exact ⟨isName, rfl, Bool.eq_false_iff.mpr ends⟩
  · rintro ⟨-, rfl, ends⟩
    refine ⟨(), rest, word_eq_iff.mpr rfl, ?_⟩
    rw [if_neg (by rw [ends]; exact Bool.false_ne_true)]

theorem accepts_keyword_iff {w : String} (isName : IsName w) {cs : List Char} :
    (keyword w).Accepts cs ↔ ∃ rest, identifier cs = .accepted w rest :=
  ⟨fun ⟨_, rest, accepted⟩ => ⟨rest, (keyword_eq_iff isName).mp accepted⟩,
    fun ⟨rest, accepted⟩ => ⟨(), rest, (keyword_eq_iff isName).mpr accepted⟩⟩

/-! ### Spacing and digits -/

/-- The text does not start with spacing. -/
def Unspaced (cs : List Char) : Prop := cs.dropWhile Blank.isSpacing = cs

theorem unspaced_cons {c : Char} (solid : Blank.isSpacing c = false) (cs : List Char) :
    Unspaced (c :: cs) := by
  unfold Unspaced
  rw [List.dropWhile_cons_of_neg (by rw [solid]; exact Bool.false_ne_true)]

theorem spaces_apply (cs : List Char) :
    spaces cs = .accepted () (cs.dropWhile Blank.isSpacing) := rfl

theorem Unspaced.spaces {cs : List Char} (solid : Unspaced cs) :
    Parser.spaces cs = .accepted () cs := by
  rw [spaces_apply, solid]

theorem spaces1_eq_iff {cs rest : List Char} {u : Unit} : spaces1 cs = .accepted u rest ↔
    ∃ c cs', cs = c :: cs' ∧ Blank.isSpacing c = true ∧ rest = cs'.dropWhile Blank.isSpacing := by
  have split : spaces1 cs = .accepted u rest ↔
      cs.takeWhile Blank.isSpacing ≠ [] ∧ rest = cs.dropWhile Blank.isSpacing := by
    refine Iff.trans bind_eq_iff ?_
    unfold takeWhile1
    cases cs.takeWhile Blank.isSpacing with
    | nil => simp
    | cons c taken =>
      constructor
      · rintro ⟨_, _, ⟨⟩, ⟨⟩⟩
        exact ⟨List.cons_ne_nil _ _, rfl⟩
      · rintro ⟨-, rfl⟩
        exact ⟨_, _, rfl, rfl⟩
  rw [split]
  cases cs with
  | nil => simp
  | cons c cs =>
    by_cases spacing : Blank.isSpacing c <;> simp [spacing]

/-- The text does not start with a digit. -/
def Undigited (cs : List Char) : Prop := cs.takeWhile Char.isDigit = []

theorem undigited_cons {c : Char} (other : c.isDigit = false) (cs : List Char) :
    Undigited (c :: cs) :=
  List.takeWhile_cons_of_neg (by rw [other]; exact Bool.false_ne_true)

/-- Digits end where no more of them can be read. -/
theorem digits1_eq_iff {cs digits rest : List Char} : digits1 cs = .accepted digits rest ↔
    digits ≠ [] ∧ (∀ c ∈ digits, c.isDigit = true) ∧ cs = digits ++ rest ∧ Undigited rest := by
  unfold digits1 takeWhile1
  constructor
  · intro accepted
    split at accepted
    · cases accepted
    · next nonempty =>
      cases accepted
      refine ⟨nonempty, fun c member => List.mem_takeWhile_imp member,
        List.takeWhile_append_dropWhile.symm, ?_⟩
      unfold Undigited
      cases left : cs.dropWhile Char.isDigit with
      | nil => rfl
      | cons c rest =>
        have other := List.head_dropWhile_not Char.isDigit
          (by rw [left]; exact List.cons_ne_nil _ _)
        simp only [left, List.head_cons] at other
        exact undigited_cons other rest
  · rintro ⟨nonempty, digital, rfl, stops⟩
    have taken : (digits ++ rest).takeWhile Char.isDigit = digits := by
      rw [List.takeWhile_append_of_pos digital, stops, List.append_nil]
    have left : (digits ++ rest).dropWhile Char.isDigit = rest := by
      rw [List.dropWhile_append_of_pos digital]
      cases rest with
      | nil => rfl
      | cons c rest =>
        unfold Undigited at stops
        by_cases digit : c.isDigit
        · rw [List.takeWhile_cons_of_pos digit] at stops
          cases stops
        · rw [List.dropWhile_cons_of_neg digit]
    rw [taken, left]
    cases digits with
    | nil => exact absurd rfl nonempty
    | cons c digits => rfl

theorem accepts_digits1_iff {cs : List Char} : digits1.Accepts cs ↔ ¬Undigited cs := by
  unfold Accepts digits1 takeWhile1 Undigited
  cases cs.takeWhile Char.isDigit <;> simp

/-! ### What may follow an expression -/

/-- What follows a whole expression in a printed text: nothing, a space, two points, a comma, a bar
or a closing bracket. -/
def Delimited : List Char → Prop
  | [] => True
  | '.' :: rest => ['.'].isPrefixOf rest = true
  | c :: _ => c ∈ [' ', ',', ']', ')', '}', '|']

/-- The characters that may follow an expression. -/
theorem delimited_iff {cs : List Char} :
    Delimited cs ↔ cs = [] ∨ (∃ rest, cs = '.' :: '.' :: rest) ∨
    ∃ c rest, cs = c :: rest ∧ c ∈ [' ', ',', ']', ')', '}', '|'] := by
  constructor
  · intro delimited
    unfold Delimited at delimited
    split at delimited
    · exact .inl rfl
    · obtain ⟨rest, rfl⟩ := List.isPrefixOf_iff_prefix.mp delimited
      exact .inr (.inl ⟨rest, rfl⟩)
    · exact .inr (.inr ⟨_, _, rfl, delimited⟩)
  · rintro (rfl | ⟨rest, rfl⟩ | ⟨c, rest, rfl, member⟩)
    · trivial
    · rfl
    · simp only [List.mem_cons, List.not_mem_nil, or_false] at member
      rcases member with rfl | rfl | rfl | rfl | rfl | rfl <;> simp [Delimited]

namespace Delimited

variable {cs : List Char} (delimited : Delimited cs)

include delimited

theorem continuesName : continuesName cs = false := by
  rcases delimited_iff.mp delimited with rfl | ⟨rest, rfl⟩ | ⟨c, rest, rfl, member⟩
  · rfl
  · rfl
  simp only [List.mem_cons, List.not_mem_nil, or_false] at member
  rcases member with rfl | rfl | rfl | rfl | rfl | rfl <;> rfl

theorem undigited : Undigited cs := by
  rcases delimited_iff.mp delimited with rfl | ⟨rest, rfl⟩ | ⟨c, rest, rfl, member⟩
  · rfl
  · rfl
  simp only [List.mem_cons, List.not_mem_nil, or_false] at member
  rcases member with rfl | rfl | rfl | rfl | rfl | rfl <;> rfl

theorem not_accepts_fraction : ¬(char '.' >>= fun _ => digits1).Accepts cs := by
  rw [accepts_bind_iff]
  rintro ⟨_, middle, point, accepts⟩
  obtain rfl := char_eq_iff.mp point
  obtain ⟨rest, rfl⟩ := List.isPrefixOf_iff_prefix.mp delimited
  exact accepts_digits1_iff.mp accepts (undigited_cons (by decide) _)

theorem not_accepts_fieldStep : ¬fieldStep.Accepts cs := by
  unfold fieldStep
  rw [accepts_bind_iff]
  rintro ⟨_, middle, point, accepts⟩
  obtain rfl := char_eq_iff.mp point
  obtain ⟨rest, rfl⟩ := List.isPrefixOf_iff_prefix.mp delimited
  rw [pathSegment, accepts_choose_iff] at accepts
  simp only [List.mem_cons, List.not_mem_nil, or_false, exists_eq_or_imp, exists_eq_left,
    accepts_map_iff] at accepts
  rcases accepts with named | digital
  · obtain ⟨c, rest, same, start⟩ := accepts_identifier_iff.mp named
    cases same
    exact absurd start (by decide)
  · exact accepts_digits1_iff.mp digital (undigited_cons (by decide) _)

end Delimited

/-! ### Literals -/

theorem stringChar_quoteChar (c : Char) (rest : List Char) :
    stringChar (Expr.quoteChar c ++ rest) = .accepted c rest := by
  unfold Expr.quoteChar
  split
  all_goals first | rfl | skip
  next quote backslash _ _ _ =>
    refine choose_cons_eq_iff.mpr (.inr ⟨?_, ?_⟩)
    · rw [accepts_bind_iff]
      rintro ⟨_, middle, first, -⟩
      cases char_eq_iff.mp first
      exact backslash rfl
    · change satisfy _ (c :: rest) = _
      rw [satisfy, if_pos]
      simpa using ⟨quote, backslash⟩

/-- A string literal is read back from its quoted form. -/
theorem stringLiteral_quote (s : String) (rest : List Char) :
    stringLiteral (Expr.quote s ++ rest) = .accepted s rest := by
  have stops : ¬stringChar.Accepts ('"' :: rest) := by
    rintro ⟨_, _, accepted⟩
    cases accepted
  have each : ∀ cs : List Char, many stringChar (cs.flatMap Expr.quoteChar ++ '"' :: rest) =
      .accepted cs ('"' :: rest) := by
    intro cs
    induction cs with
    | nil => exact many_of_not_accepts stops
    | cons c cs ih =>
      rw [List.flatMap_cons, List.append_assoc]
      exact advances_stringChar.many_eq_cons_iff.mpr ⟨_, stringChar_quoteChar c _, ih⟩
  have whole : Expr.quote s ++ rest = '"' :: (s.toList.flatMap Expr.quoteChar ++ '"' :: rest) := by
    rw [Expr.quote, List.cons_append, List.append_assoc]
    rfl
  rw [whole]
  refine bind_eq_iff.mpr ⟨(), _, char_eq_iff.mpr rfl, bind_eq_iff.mpr ⟨s.toList, '"' :: rest,
    each s.toList, bind_eq_iff.mpr ⟨(), rest, char_eq_iff.mpr rfl, ?_⟩⟩⟩
  rw [String.ofList_toList]
  rfl

/-- A fraction behind its point. -/
def fractionPart : Parser (List Char) := do
  char '.'
  digits1

/-- An exponent behind its letter. -/
def exponentPart : Parser (Bool × List Char) := do
  let _ ← satisfy fun c => c == 'e' || c == 'E'
  let negative ← exponentSign
  return (negative, ← digits1)

theorem numberText_eq_iff {cs rest : List Char} {t : NumberText} :
    numberText cs = .accepted t rest ↔
      ∃ left left', digits1 cs = .accepted t.whole left ∧
        optional fractionPart left = .accepted t.fraction left' ∧
        optional exponentPart left' = .accepted t.exponent rest := by
  refine Iff.trans bind_eq_iff ?_
  constructor
  · rintro ⟨whole, left, first, later⟩
    obtain ⟨fraction, left', second, later⟩ := bind_eq_iff.mp later
    obtain ⟨exponent, last, third, later⟩ := bind_eq_iff.mp later
    cases later
    exact ⟨left, left', first, second, third⟩
  · rintro ⟨left, left', first, second, third⟩
    exact ⟨_, _, first, bind_eq_iff.mpr ⟨_, _, second, bind_eq_iff.mpr ⟨_, _, third, rfl⟩⟩⟩

theorem number_eq_iff {negative : Bool} {cs rest : List Char} {e : Expr} :
    number negative cs = .accepted e rest ↔
      ∃ t, numberText cs = .accepted t rest ∧ t.literal? negative = some e := by
  refine Iff.trans bind_eq_iff ?_
  constructor
  · rintro ⟨t, middle, here, later⟩
    cases same : t.literal? negative with
    | none =>
      simp only [same] at later
      cases later
    | some literal =>
      simp only [same] at later
      cases later
      exact ⟨t, here, same⟩
  · rintro ⟨t, here, same⟩
    refine ⟨t, rest, here, ?_⟩
    simp only [same]
    rfl

theorem satisfy_eq_iff {test : Char → Bool} {cs rest : List Char} {c : Char} :
    satisfy test cs = .accepted c rest ↔ cs = c :: rest ∧ test c = true := by
  cases cs with
  | nil => simp [satisfy]
  | cons d cs =>
    rw [satisfy]
    by_cases holds : test d
    · rw [if_pos holds]
      constructor
      · rintro ⟨⟩
        exact ⟨rfl, holds⟩
      · rintro ⟨⟨⟩, -⟩
        rfl
    · rw [if_neg holds]
      constructor
      · rintro ⟨⟩
      · rintro ⟨⟨⟩, holds'⟩
        exact absurd holds' holds

theorem Delimited.not_accepts_exponentPart {cs : List Char} (delimited : Delimited cs) :
    ¬exponentPart.Accepts cs := by
  unfold exponentPart
  rw [accepts_bind_iff]
  rintro ⟨c, rest, first, -⟩
  obtain ⟨rfl, letter⟩ := satisfy_eq_iff.mp first
  rcases delimited_iff.mp delimited with ⟨⟨⟩⟩ | ⟨rest, ⟨⟩⟩ | ⟨c, rest, ⟨⟩, member⟩
  · exact absurd letter (by decide)
  · simp only [List.mem_cons, List.not_mem_nil, or_false] at member
    rcases member with rfl | rfl | rfl | rfl | rfl | rfl <;> exact absurd letter (by decide)

/-- The sign of an exponent before its digits. -/
theorem exponentSign_append {cs digits : List Char} {negative : Bool}
    (accepted : exponentSign cs = .accepted negative digits)
    (digital : ∀ c ∈ digits, c.isDigit = true)
    (nonempty : digits ≠ []) (rest : List Char) :
    exponentSign (cs ++ rest) = .accepted negative (digits ++ rest) := by
  have unsigned : ∀ c, c.isDigit = false → ∀ {α} {f : Unit → α},
      ¬(f <$> char c).Accepts (digits ++ rest) := by
    intro c other α f
    rw [accepts_map_iff]
    rintro ⟨_, rest', first⟩
    have same := char_eq_iff.mp first
    cases digits with
    | nil => exact nonempty rfl
    | cons d digits =>
      cases same
      rw [digital _ (List.mem_cons_self ..)] at other
      cases other
  rcases choose_cons_eq_iff.mp accepted with plus | ⟨-, accepted⟩
  · obtain ⟨_, first, rfl⟩ := map_eq_iff.mp plus
    obtain rfl := char_eq_iff.mp first
    rfl
  · rcases choose_cons_eq_iff.mp accepted with minus | ⟨-, accepted⟩
    · obtain ⟨_, first, rfl⟩ := map_eq_iff.mp minus
      obtain rfl := char_eq_iff.mp first
      rfl
    · cases accepted
      exact choose_cons_eq_iff.mpr (.inr ⟨unsigned '+' (by decide), choose_cons_eq_iff.mpr
        (.inr ⟨unsigned '-' (by decide), rfl⟩)⟩)

/-- A number that is read whole is read before any delimiter. -/
theorem number_append {negative : Bool} {text rest : List Char} {e : Expr}
    (accepted : number negative text = .accepted e []) (delimited : Delimited rest) :
    number negative (text ++ rest) = .accepted e rest := by
  obtain ⟨t, read, literal⟩ := number_eq_iff.mp accepted
  refine number_eq_iff.mpr ⟨t, ?_, literal⟩
  obtain ⟨left, left', first, second, third⟩ := numberText_eq_iff.mp read
  obtain ⟨nonempty, digital, rfl, -⟩ := digits1_eq_iff.mp first
  -- What is left after the fraction is an exponent or nothing.
  have last : optional exponentPart (left' ++ rest) = .accepted t.exponent rest ∧
      Undigited (left' ++ rest) ∧ (¬fractionPart.Accepts (left' ++ rest)) := by
    cases exponent : t.exponent with
    | none =>
      rw [exponent] at third
      obtain ⟨-, rfl⟩ := optional_eq_none_iff.mp third
      exact ⟨optional_eq_none_iff.mpr ⟨delimited.not_accepts_exponentPart, rfl⟩,
        delimited.undigited,
        delimited.not_accepts_fraction⟩
    | some exponent' =>
      rw [exponent] at third
      have part := optional_eq_some_iff.mp third
      obtain ⟨c, after, letter, later⟩ := bind_eq_iff.mp part
      obtain ⟨rfl, isLetter⟩ := satisfy_eq_iff.mp letter
      obtain ⟨sign, digits, signed, later⟩ := bind_eq_iff.mp later
      obtain ⟨digits', none, read, rest'⟩ := bind_eq_iff.mp later
      obtain ⟨nonempty', digital', rfl, -⟩ := digits1_eq_iff.mp read
      cases rest'
      rw [List.append_nil] at signed
      have same : c = 'e' ∨ c = 'E' := by simpa using isLetter
      refine ⟨optional_eq_some_iff.mpr (bind_eq_iff.mpr ⟨c, _, satisfy_eq_iff.mpr ⟨rfl, isLetter⟩,
        bind_eq_iff.mpr ⟨sign, _, exponentSign_append signed digital' nonempty' rest,
          bind_eq_iff.mpr ⟨digits', rest, digits1_eq_iff.mpr
            ⟨nonempty', digital', rfl, delimited.undigited⟩, rfl⟩⟩⟩), ?_, ?_⟩
      · rcases same with rfl | rfl <;> exact undigited_cons (by decide) _
      · unfold fractionPart
        rw [accepts_bind_iff]
        rintro ⟨_, _, point, -⟩
        rcases same with rfl | rfl <;> cases char_eq_iff.mp point
  obtain ⟨exponent, undigited, unpointed⟩ := last
  cases fraction : t.fraction with
  | none =>
    rw [fraction] at second
    obtain ⟨-, rfl⟩ := optional_eq_none_iff.mp second
    refine numberText_eq_iff.mpr ⟨left ++ rest, left ++ rest, digits1_eq_iff.mpr
      ⟨nonempty, digital, List.append_assoc .., undigited⟩, ?_, exponent⟩
    rw [fraction]
    exact optional_eq_none_iff.mpr ⟨unpointed, rfl⟩
  | some digits =>
    rw [fraction] at second
    obtain ⟨_, after, point, read'⟩ := bind_eq_iff.mp (optional_eq_some_iff.mp second)
    obtain rfl := char_eq_iff.mp point
    obtain ⟨nonempty', digital', rfl, -⟩ := digits1_eq_iff.mp read'
    refine numberText_eq_iff.mpr ⟨'.' :: (digits ++ left' ++ rest), left' ++ rest,
      digits1_eq_iff.mpr
      ⟨nonempty, digital, by simp, undigited_cons (by decide) _⟩, ?_, exponent⟩
    rw [fraction]
    exact optional_eq_some_iff.mpr (bind_eq_iff.mpr ⟨(), _, char_eq_iff.mpr rfl,
      digits1_eq_iff.mpr ⟨nonempty', digital', List.append_assoc .., undigited⟩⟩)

/-- The int of digits under a sign. -/
def signedInt (negative : Bool) (n : Nat) : Int := if negative then -(n : Int) else n

theorem isDigit_of_mem_toDigits {n : Nat} {c : Char} (member : c ∈ Nat.toDigits 10 n) :
    c.isDigit = true :=
  Nat.isDigit_of_mem_toDigits (by decide) (by decide) member

theorem toDigits_ne_nil (n : Nat) : Nat.toDigits 10 n ≠ [] := by
  intro none
  have length := Nat.length_toDigits_pos (b := 10) (n := n)
  rw [none] at length
  exact absurd length (by decide)

/-- The digits of a number that fits are read back. -/
theorem number_toDigits (negative : Bool) {n : Nat} {rest : List Char}
    (fits : FitsInt (signedInt negative n)) (delimited : Delimited rest) :
    number negative (Nat.toDigits 10 n ++ rest) =
      .accepted (.int (Int64.ofInt (signedInt negative n))) rest := by
  refine number_eq_iff.mpr ⟨⟨Nat.toDigits 10 n, none, none⟩, numberText_eq_iff.mpr ⟨rest, rest,
    digits1_eq_iff.mpr ⟨toDigits_ne_nil n, fun c member => isDigit_of_mem_toDigits member, rfl,
      delimited.undigited⟩, optional_eq_none_iff.mpr ⟨delimited.not_accepts_fraction, rfl⟩,
    optional_eq_none_iff.mpr ⟨delimited.not_accepts_exponentPart, rfl⟩⟩, ?_⟩
  simp only [NumberText.literal?, naturalOfDigits_toDigits]
  exact if_pos fits

/-- The literals of numbers: an int that fits, or a float that a decimal rounds to. -/
theorem literal?_cases {t : NumberText} {negative : Bool} {e : Expr}
    (same : t.literal? negative = some e) :
    (t.fraction = none ∧ t.exponent = none ∧
    FitsInt (signedInt negative (naturalOfDigits t.whole)) ∧
      e = .int (Int64.ofInt (signedInt negative (naturalOfDigits t.whole)))) ∨
    ((t.fraction ≠ none ∨ t.exponent ≠ none) ∧
      ∃ digits scale, e = .float (Binary64.ofDecimal negative digits scale)) := by
  unfold NumberText.literal? at same
  split at same
  · next none none' =>
    simp only [Option.ite_none_right_eq_some, Option.some.injEq] at same
    obtain ⟨fits, rfl⟩ := same
    exact .inl ⟨none, none', fits, rfl⟩
  · next some =>
    simp only [Option.some.injEq] at same
    refine .inr ⟨?_, _, _, same.symm⟩
    by_contra neither
    simp only [ne_eq, not_or, not_not] at neither
    exact some neither.1 neither.2

/-- A float literal prints, behind its sign, as a number that reads back as the float. This is what
printing digits with a fraction or an exponent promises for finite numbers. -/
def ReadsBack (x : Float) : Prop :=
  ∃ text, (Notation.literal.write x).toList =
      (if Binary64.isNegative x then ['-'] else []) ++ text ∧
    number (Binary64.isNegative x) text = .accepted (.float x) []

theorem ReadsBack.text {x : Float} (readsBack : ReadsBack x) {negative : Bool}
    (sign : Binary64.isNegative x = negative) :
    ∃ text, (Notation.literal.write x).toList = (if negative then ['-'] else []) ++ text ∧
      number negative text = .accepted (.float x) [] := by
  rw [← sign]
  exact readsBack

theorem toInt_ofInt {n : Int} (fits : FitsInt n) : (Int64.ofInt n).toInt = n :=
  Int64.toInt_ofInt_of_le fits.1 fits.2

theorem printInt_eq (n : Int64) :
    Expr.printInt n = (if n.toInt < 0 then ['-'] else []) ++ Nat.toDigits 10 n.toInt.natAbs := by
  unfold Expr.printInt
  cases n.toInt with
  | ofNat m =>
    rw [if_neg (by simp)]
    change (Nat.repr m).toList = _
    rw [Nat.toList_repr]
    rfl
  | negSucc m =>
    rw [if_pos (Int.negSucc_lt_zero m)]
    change ("-" ++ Nat.repr (m + 1)).toList = _
    rw [String.toList_append, Nat.toList_repr]
    rfl

theorem print_unsigned (n : Nat) (fits : FitsInt (signedInt false n)) :
    Expr.printInt (Int64.ofInt (signedInt false n)) = Nat.toDigits 10 n := by
  have unsigned : ¬signedInt false n < 0 := by simp [signedInt]
  rw [printInt_eq, toInt_ofInt fits, if_neg unsigned]
  rfl

theorem toDigits_head (n : Nat) : ∃ c left, Nat.toDigits 10 n = c :: left ∧ c.isDigit = true := by
  cases chars : Nat.toDigits 10 n with
  | nil => exact absurd chars (toDigits_ne_nil n)
  | cons c left =>
      exact ⟨c, left, rfl, isDigit_of_mem_toDigits (by rw [chars]; exact List.mem_cons_self ..)⟩

/-! ### Paths -/

theorem undigited_of_not_continuesName {cs : List Char} (ends : continuesName cs = false) :
    Undigited cs := by
  cases cs with
  | nil => rfl
  | cons c cs =>
    refine undigited_cons (Bool.eq_false_iff.mpr fun digit => ?_) cs
    have part : Expr.isNamePart c = true := by
      simp only [Expr.isNamePart, Char.isAlphanum, digit, Bool.or_true, Bool.true_or]
    rw [continuesName_of_ne (by rintro rfl; exact absurd digit (by decide)), part] at ends
    cases ends

/-- The text is a step of a path. -/
def IsSegment (s : String) : Prop :=
  IsName s ∨ s.toList ≠ [] ∧ ∀ c ∈ s.toList, c.isDigit = true

theorem undigited_of_isNameStart {c : Char} {rest : List Char} (start : Expr.isNameStart c = true) :
    Undigited (c :: rest) := by
  refine undigited_cons (Bool.eq_false_iff.mpr fun digit => ?_) rest
  simp only [Expr.isNameStart, Char.isAlpha, Char.isUpper, Char.isLower, Bool.or_eq_true,
    Bool.and_eq_true, decide_eq_true_eq, beq_iff_eq] at start
  simp only [Char.isDigit, Bool.and_eq_true, decide_eq_true_eq] at digit
  rcases start with (⟨start, -⟩ | ⟨start, -⟩) | rfl
  · exact absurd (UInt32.le_trans start digit.2) (by decide)
  · exact absurd (UInt32.le_trans start digit.2) (by decide)
  · exact absurd digit.2 (by decide)

theorem pathSegment_eq {cs rest : List Char} {s : String}
    (accepted : pathSegment cs = .accepted s rest) : IsSegment s ∧ cs = s.toList ++ rest := by
  rcases choose_cons_eq_iff.mp accepted with named | ⟨-, digital⟩
  · obtain ⟨isName, whole, -⟩ := identifier_eq_iff.mp named
    exact ⟨.inl isName, whole⟩
  · obtain ⟨digits, read, rfl⟩ := map_eq_iff.mp digital
    obtain ⟨nonempty, areDigits, rfl, -⟩ := digits1_eq_iff.mp read
    exact ⟨.inr (by rw [String.toList_ofList]; exact ⟨nonempty, areDigits⟩),
      by rw [String.toList_ofList]⟩

theorem IsSegment.pathSegment_append {s : String} (isSegment : IsSegment s) {rest : List Char}
    (ends : continuesName rest = false) : pathSegment (s.toList ++ rest) = .accepted s rest := by
  rcases isSegment with isName | ⟨nonempty, digital⟩
  · exact choose_cons_eq_iff.mpr (.inl (isName.identifier_append ends))
  · refine choose_cons_eq_iff.mpr (.inr ⟨?_, map_eq_iff.mpr ⟨s.toList, digits1_eq_iff.mpr
      ⟨nonempty, digital, rfl, undigited_of_not_continuesName ends⟩, String.ofList_toList⟩⟩)
    intro named
    obtain ⟨c, rest', whole, start⟩ := accepts_identifier_iff.mp named
    cases chars : s.toList with
    | nil => exact nonempty chars
    | cons d chars' =>
      rw [chars] at whole
      cases whole
      have undigited : Undigited [c] := undigited_of_isNameStart start
      rw [Undigited, List.takeWhile_cons_of_pos
        (digital _ (by rw [chars]; exact List.mem_cons_self ..))]
        at undigited
      cases undigited

theorem fieldStep_eq {cs rest : List Char} {s : String}
    (accepted : fieldStep cs = .accepted s rest) :
    IsSegment s ∧ cs = '.' :: (s.toList ++ rest) := by
  obtain ⟨_, middle, point, segment⟩ := bind_eq_iff.mp accepted
  obtain rfl := char_eq_iff.mp point
  obtain ⟨isSegment, rfl⟩ := pathSegment_eq segment
  exact ⟨isSegment, rfl⟩

theorem IsSegment.fieldStep_append {s : String} (isSegment : IsSegment s) {rest : List Char}
    (ends : continuesName rest = false) :
    fieldStep ('.' :: (s.toList ++ rest)) = .accepted s rest :=
  bind_eq_iff.mpr ⟨(), _, char_eq_iff.mpr rfl, isSegment.pathSegment_append ends⟩

theorem printPath_cons (s : String) (path : List String) (rest : List Char) :
    Expr.printPath (s :: path) ++ rest = '.' :: (s.toList ++ (Expr.printPath path ++ rest)) := by
  simp [Expr.printPath]

theorem printDotted_cons (first : String) (path : List String) :
    Expr.printDotted (first :: path) = first.toList ++ Expr.printPath path := by
  have dotted : ∀ (path : List String) (first : String),
      (".".intercalate (first :: path)).toList = first.toList ++ Expr.printPath path := by
    intro path
    induction path with
    | nil => simp [Expr.printPath]
    | cons second path ih =>
      intro first
      rw [String.intercalate_cons_cons, String.toList_append, String.toList_append, ih]
      simp [Expr.printPath]
  exact dotted path first

theorem continuesName_printPath {rest : List Char} (ends : continuesName rest = false)
    (path : List String) : continuesName (Expr.printPath path ++ rest) = false := by
  cases path with
  | nil => exact ends
  | cons s path => rw [printPath_cons]; rfl

/-- The steps of a path are exactly the text they were read from. -/
theorem many_fieldStep_eq {cs rest : List Char} {path : List String}
    (accepted : many fieldStep cs = .accepted path rest) :
    (∀ s ∈ path, IsSegment s) ∧ cs = Expr.printPath path ++ rest ∧ ¬fieldStep.Accepts rest := by
  induction path generalizing cs with
  | nil =>
    obtain ⟨stops, rfl⟩ := advances_fieldStep.many_eq_nil_iff.mp accepted
    exact ⟨by simp, rfl, stops⟩
  | cons s path ih =>
    obtain ⟨middle, first, later⟩ := advances_fieldStep.many_eq_cons_iff.mp accepted
    obtain ⟨isSegment, rfl⟩ := fieldStep_eq first
    obtain ⟨segments, rfl, stops⟩ := ih later
    exact ⟨List.forall_mem_cons.mpr ⟨isSegment, segments⟩, (printPath_cons s path rest).symm, stops⟩

theorem many_fieldStep_printPath {path : List String} (segments : ∀ s ∈ path, IsSegment s)
    {rest : List Char} (ends : continuesName rest = false) (stops : ¬fieldStep.Accepts rest) :
    many fieldStep (Expr.printPath path ++ rest) = .accepted path rest := by
  induction path with
  | nil => exact many_of_not_accepts stops
  | cons s path ih =>
    obtain ⟨isSegment, segments⟩ := List.forall_mem_cons.mp segments
    rw [printPath_cons]
    exact advances_fieldStep.many_eq_cons_iff.mpr
      ⟨_, isSegment.fieldStep_append (continuesName_printPath ends path), ih segments⟩

/-! ### References -/

/-- The text is the name of a tag. -/
def IsTag (tag : String) : Prop :=
  ∃ name, IsName name ∧ (tag = name ∨ ∃ digits, digits ≠ [] ∧ (∀ c ∈ digits, c.isDigit = true) ∧
    tag = name ++ "." ++ String.ofList digits)

theorem tagName_eq {cs rest : List Char} {tag : String}
    (accepted : tagName cs = .accepted tag rest) :
    IsTag tag ∧ cs = tag.toList ++ rest ∧ ∃ name left, identifier cs = .accepted name left ∧
      (left = rest ∨ ∃ digits, digits ≠ [] ∧ (∀ c ∈ digits, c.isDigit = true) ∧
        left = '.' :: (digits ++ rest) ∧ Undigited rest) := by
  obtain ⟨name, left, named, later⟩ := bind_eq_iff.mp accepted
  obtain ⟨isName, whole, -⟩ := identifier_eq_iff.mp named
  obtain ⟨number, middle, counted, last⟩ := bind_eq_iff.mp later
  cases number with
  | none =>
    obtain ⟨-, rfl⟩ := optional_eq_none_iff.mp counted
    cases last
    exact ⟨⟨_, isName, .inl rfl⟩, whole, _, _, named, .inl rfl⟩
  | some digits =>
    obtain ⟨_, _, point, read⟩ := bind_eq_iff.mp (optional_eq_some_iff.mp counted)
    obtain rfl := char_eq_iff.mp point
    obtain ⟨nonempty, digital, rfl, stops⟩ := digits1_eq_iff.mp read
    cases last
    refine ⟨⟨_, isName, .inr ⟨digits, nonempty, digital, rfl⟩⟩, ?_, _, _, named,
      .inr ⟨digits, nonempty, digital, rfl, stops⟩⟩
    rw [whole]
    simp

theorem IsTag.tagName_append {tag : String} (isTag : IsTag tag) {rest : List Char}
    (ends : continuesName rest = false) (stops : ¬fractionPart.Accepts rest) :
    tagName (tag.toList ++ rest) = .accepted tag rest := by
  obtain ⟨name, isName, rfl | ⟨digits, nonempty, digital, rfl⟩⟩ := isTag
  · exact bind_eq_iff.mpr ⟨tag, rest, isName.identifier_append ends, bind_eq_iff.mpr
      ⟨none, rest, optional_eq_none_iff.mpr ⟨stops, rfl⟩, rfl⟩⟩
  · have whole : (name ++ "." ++ String.ofList digits).toList ++ rest =
        name.toList ++ '.' :: (digits ++ rest) := by simp
    rw [whole]
    refine bind_eq_iff.mpr ⟨name, _, isName.identifier_append rfl, bind_eq_iff.mpr
      ⟨some digits, rest, optional_eq_some_iff.mpr (bind_eq_iff.mpr ⟨(), _, char_eq_iff.mpr rfl,
        digits1_eq_iff.mpr ⟨nonempty, digital, rfl, undigited_of_not_continuesName ends⟩⟩), rfl⟩⟩

/-- What may follow a printed reference: nothing that continues its last name or its path. -/
structure Sealed (cs : List Char) : Prop where
  ends : continuesName cs = false
  stops : ¬fieldStep.Accepts cs
  untagged : ∀ rest, cs ≠ ':' :: rest

/-- A reference as the grammar reads it without postfix forms. -/
structure Plain (r : Reference) : Prop where
  tag : ∀ tag, r.tag = some tag → IsTag tag
  path : ∃ first rest, r.path = first :: rest ∧ IsName first ∧ (∀ s ∈ rest, IsSegment s) ∧
    (r.tag = none → r.absolute = false → isKeyword first = false)

/-- The path of a reference after its tag. -/
def pathText (absolute : Bool) (first : String) (path : List String) (rest : List Char) :
    List Char :=
  (if absolute then ['.'] else []) ++ (first.toList ++ (Expr.printPath path ++ rest))

theorem print_reference (tag : Option String) (absolute : Bool) (first : String)
    (path : List String) (rest : List Char) :
    Reference.print ⟨tag, absolute, first :: path⟩ ++ rest =
      (match tag with
        | some tag => tag.toList ++ ':' :: ':' :: pathText absolute first path rest
        | none => pathText absolute first path rest) := by
  unfold Reference.print pathText
  cases tag <;> simp [printDotted_cons]

/-- The name that a text starts with. -/
def nameAt (cs : List Char) : Option String :=
  match identifier cs with
  | .accepted s _ => some s
  | .failed _ => none

theorem nameAt_eq_some_iff {cs : List Char} {s : String} :
    nameAt cs = some s ↔ ∃ rest, identifier cs = .accepted s rest := by
  unfold nameAt
  cases identifier cs <;> simp

theorem nameAt_eq_none_iff {cs : List Char} : nameAt cs = none ↔ ¬identifier.Accepts cs := by
  unfold nameAt Accepts
  cases identifier cs <;> simp

end Grammar

/-- The name that a reference starts with; a point starts the absolute ones. -/
def Reference.leading (r : Reference) : Option String :=
  match r.tag with
  | some tag => Grammar.nameAt tag.toList
  | none => if r.absolute then none else r.path.head?

namespace Grammar

open Cascade.Parser

theorem IsTag.identifier_append {tag : String} (isTag : IsTag tag) (rest : List Char) :
    ∃ name left, identifier (tag.toList ++ ':' :: rest) = .accepted name left ∧
      nameAt tag.toList = some name ∧ ∃ c left', left = c :: left' ∧ (c = ':' ∨ c = '.') := by
  obtain ⟨name, isName, rfl | ⟨digits, -, -, rfl⟩⟩ := isTag
  · exact ⟨tag, _, isName.identifier_append rfl, nameAt_eq_some_iff.mpr ⟨[], isName⟩, ':',
      rest, rfl,
      .inl rfl⟩
  · have whole : ∀ rest, (name ++ "." ++ String.ofList digits).toList ++ rest =
        name.toList ++ '.' :: (digits ++ rest) := by simp
    have alone := whole []
    rw [List.append_nil] at alone
    rw [whole, alone]
    exact ⟨name, _, isName.identifier_append rfl,
      nameAt_eq_some_iff.mpr ⟨_, isName.identifier_append rfl⟩, '.', _, rfl, .inr rfl⟩

/-- The name at the start of a printed reference. If it is a keyword, a tag or a path follows. -/
theorem identifier_reference {tag : Option String} {absolute : Bool} {first : String}
    {path : List String} {rest : List Char} (isTag : ∀ tag', tag = some tag' → IsTag tag')
    (isName : IsName first) (allowed : tag = none → absolute = false → isKeyword first = false)
    (ends : continuesName (Expr.printPath path ++ rest) = false) :
    nameAt (Reference.print ⟨tag, absolute, first :: path⟩ ++ rest) =
        Reference.leading ⟨tag, absolute, first :: path⟩ ∧
      ∀ s left, identifier (Reference.print ⟨tag, absolute, first :: path⟩ ++ rest) =
        .accepted s left → isKeyword s = true → ∃ c left', left = c :: left' ∧
          (c = ':' ∨ c = '.') := by
  rw [print_reference]
  cases tag with
  | some tag =>
    obtain ⟨name, left, read, named, follows⟩ :=
      (isTag tag rfl).identifier_append (':' :: pathText absolute first path rest)
    refine ⟨(nameAt_eq_some_iff.mpr ⟨left, read⟩).trans named.symm, ?_⟩
    intro s left' read' _
    rw [read] at read'
    cases read'
    exact follows
  | none =>
    unfold pathText
    cases absolute with
    | true =>
      refine ⟨nameAt_eq_none_iff.mpr ?_, ?_⟩
      · rintro ⟨_, _, accepted⟩
        cases accepted
      · rintro _ _ ⟨⟩
    | false =>
      have read := isName.identifier_append ends
      refine ⟨nameAt_eq_some_iff.mpr ⟨_, read⟩, ?_⟩
      intro s left' read' keyword
      cases read.symm.trans read'
      rw [allowed rfl rfl] at keyword
      cases keyword

/-- A reference is exactly the text it was read from. -/
theorem reference_eq {cs rest : List Char} {r : Reference}
    (accepted : reference cs = .accepted r rest) :
    Plain r ∧ cs = r.print ++ rest ∧ ¬fieldStep.Accepts rest ∧ nameAt cs = r.leading ∧
      ∀ s left, identifier cs = .accepted s left → isKeyword s = true →
        ∃ c left', left = c :: left' ∧ (c = ':' ∨ c = '.') := by
  obtain ⟨tag, left, tagged, afterTag⟩ := bind_eq_iff.mp accepted
  obtain ⟨point, left', pointed, afterPoint⟩ := bind_eq_iff.mp afterTag
  obtain ⟨first, left'', named, later⟩ := bind_eq_iff.mp afterPoint
  obtain ⟨isName, rfl, ends⟩ := identifier_eq_iff.mp named
  have isTag : ∀ tag', tag = some tag' → IsTag tag' := by
    rintro tag' rfl
    obtain ⟨_, _, read, later⟩ := bind_eq_iff.mp (optional_eq_some_iff.mp tagged)
    obtain ⟨_, _, colons, same⟩ := bind_eq_iff.mp later
    cases same
    exact (tagName_eq read).1
  by_cases refused : tag.isNone && !point.isSome && isKeyword first
  · rw [if_pos refused] at later
    cases later
  rw [if_neg refused] at later
  have allowed : tag = none → point.isSome = false → isKeyword first = false := by
    rintro rfl absolute
    simpa [absolute] using refused
  obtain ⟨path, last, steps, same⟩ := bind_eq_iff.mp later
  cases same
  obtain ⟨segments, rfl, stops⟩ := many_fieldStep_eq steps
  have left_eq : left = pathText point.isSome first path rest := by
    cases point with
    | none =>
      obtain ⟨-, rfl⟩ := optional_eq_none_iff.mp pointed
      rfl
    | some point =>
      obtain rfl := char_eq_iff.mp (optional_eq_some_iff.mp pointed)
      rfl
  have whole : cs = Reference.print ⟨tag, point.isSome, first :: path⟩ ++ rest := by
    rw [print_reference]
    cases tag with
    | none =>
      obtain ⟨-, rfl⟩ := optional_eq_none_iff.mp tagged
      exact left_eq
    | some tag =>
      obtain ⟨_, _, read, later⟩ := bind_eq_iff.mp (optional_eq_some_iff.mp tagged)
      obtain ⟨_, _, colons, same⟩ := bind_eq_iff.mp later
      cases same
      obtain rfl := word_eq_iff.mp colons
      rw [(tagName_eq read).2.1, left_eq]
      rfl
  refine ⟨⟨isTag, first, path, rfl, isName, segments, allowed⟩, whole, stops, ?_⟩
  rw [whole]
  exact identifier_reference isTag isName allowed ends

theorem Delimited.sealed {cs : List Char} (delimited : Delimited cs) : Sealed cs := by
  refine ⟨delimited.continuesName, delimited.not_accepts_fieldStep, ?_⟩
  rintro rest rfl
  simp [Delimited] at delimited

theorem not_accepts_fraction_of_fieldStep {cs : List Char} (stops : ¬fieldStep.Accepts cs) :
    ¬fractionPart.Accepts cs := by
  intro accepts
  obtain ⟨_, middle, point, digital⟩ := accepts_bind_iff.mp accepts
  refine stops (accepts_bind_iff.mpr ⟨(), middle, point, ?_⟩)
  rw [pathSegment, accepts_choose_iff]
  exact ⟨_, List.mem_cons_of_mem _ (List.mem_cons_self ..), accepts_map_iff.mpr digital⟩

/-- A plain reference is read back before whatever does not continue it. -/
theorem Plain.reference_append {r : Reference} (plain : Plain r) {rest : List Char}
    (ends : Sealed rest) : reference (r.print ++ rest) = .accepted r rest := by
  obtain ⟨tag, absolute, path⟩ := r
  obtain ⟨isTag, first, path, rfl, isName, segments, allowed⟩ := plain
  have pathEnds := continuesName_printPath ends.ends path
  rw [print_reference]
  refine bind_eq_iff.mpr ⟨tag, pathText absolute first path rest, ?_, bind_eq_iff.mpr
    ⟨if absolute then some () else none, first.toList ++ (Expr.printPath path ++ rest), ?_,
      bind_eq_iff.mpr ⟨first, _, isName.identifier_append pathEnds, ?_⟩⟩⟩
  · cases tag with
    | some tag =>
      refine optional_eq_some_iff.mpr
        (bind_eq_iff.mpr ⟨tag, _, (isTag tag rfl).tagName_append rfl ?_,
        bind_eq_iff.mpr ⟨(), _, word_eq_iff.mpr rfl, rfl⟩⟩)
      rintro ⟨_, _, accepted⟩
      cases accepted
    | none =>
      refine optional_eq_none_iff.mpr ⟨?_, rfl⟩
      rw [accepts_bind_iff]
      rintro ⟨tag, left, read, accepts⟩
      obtain ⟨_, _, colons, -⟩ := accepts_bind_iff.mp accepts
      obtain rfl := word_eq_iff.mp colons
      obtain ⟨-, -, name, left, named, follows⟩ := tagName_eq read
      cases absolute with
      | true => cases named
      | false =>
        cases (isName.identifier_append pathEnds).symm.trans named
        -- The colons would have to stand behind the first steps of the path.
        cases path with
        | nil =>
          rcases follows with same | ⟨digits, nonempty, digital, same, stops⟩
          · exact ends.untagged _ same
          · refine not_accepts_fraction_of_fieldStep ends.stops (accepts_bind_iff.mpr
              ⟨(), _, char_eq_iff.mpr same, ⟨digits, _, digits1_eq_iff.mpr
                ⟨nonempty, digital, rfl, stops⟩⟩⟩)
        | cons s path =>
          rw [printPath_cons] at follows
          rcases follows with ⟨⟨⟩⟩ | ⟨digits, nonempty, digital, same, stops⟩
          have same := (List.cons.inj same).2
          have read : digits1 (s.toList ++ (Expr.printPath path ++ rest)) =
              .accepted digits (':' :: ':' :: _) :=
            digits1_eq_iff.mpr ⟨nonempty, digital, same, stops⟩
          rcases (List.forall_mem_cons.mp segments).1 with isName' | ⟨nonempty', digital'⟩
          · obtain ⟨c, cs, chars, start⟩ := isName'.exists_cons
            rw [chars, List.cons_append] at read
            exact accepts_digits1_iff.mp (accepts_of_eq read) (undigited_of_isNameStart start)
          · have ends' := continuesName_printPath ends.ends path
            have whole := digits1_eq_iff.mpr ⟨nonempty', digital',
              (rfl : s.toList ++ (Expr.printPath path ++ rest) = _),
              undigited_of_not_continuesName ends'⟩
            have left := (Parsed.accepted.inj (whole.symm.trans read)).2
            cases path with
            | nil => exact ends.untagged _ left
            | cons s' path =>
              rw [printPath_cons] at left
              cases left
  · cases absolute with
    | true => exact optional_eq_some_iff.mpr (char_eq_iff.mpr rfl)
    | false =>
      refine optional_eq_none_iff.mpr ⟨?_, rfl⟩
      rintro ⟨_, _, point⟩
      obtain ⟨c, cs, chars, start⟩ := isName.exists_cons
      unfold pathText at point
      rw [chars] at point
      cases char_eq_iff.mp point
      exact absurd start (by decide)
  · have isSome :
      (if absolute then some () else none).isSome = absolute := by cases absolute <;> rfl
    have accepted : ¬(tag.isNone && !absolute && isKeyword first) = true := by
      cases tag with
      | some tag => exact Bool.false_ne_true
      | none =>
        cases absolute with
        | true => exact Bool.false_ne_true
        | false =>
          rw [allowed rfl rfl]
          exact Bool.false_ne_true
    simp only [isSome, if_neg accepted]
    exact bind_eq_iff.mpr ⟨path, rest, many_fieldStep_printPath segments ends.ends ends.stops, rfl⟩

/-! ### Markers -/

/-- A marker is read back before whatever does not continue it. -/
theorem marker_append {cs rest : List Char} {m : Marker} (accepted : marker cs = .accepted m rest)
    {rest' : List Char} (ends : continuesName rest' = false) (stops : ¬fractionPart.Accepts rest') :
    marker (m.render.toList ++ rest') = .accepted m rest' := by
  obtain ⟨_, left, ampersand, afterSign⟩ := bind_eq_iff.mp accepted
  obtain ⟨name, left', named, later⟩ := bind_eq_iff.mp afterSign
  obtain ⟨isName, -, -⟩ := identifier_eq_iff.mp named
  have flagged : ∀ id : MarkerId, id ≠ .tag → IsName id.name →
      marker ((Marker.flag id).render.toList ++ rest') = .accepted (.flag id) rest' := by
    intro id other isName
    have whole : (Marker.flag id).render.toList ++ rest' = '&' :: (id.name.toList ++ rest') := by
      simp [Marker.render]
    rw [whole]
    refine bind_eq_iff.mpr ⟨(), _, char_eq_iff.mpr rfl, bind_eq_iff.mpr
      ⟨id.name, rest', isName.identifier_append ends, ?_⟩⟩
    rw [MarkerId.ofName?_name]
    cases id <;> first | rfl | exact absurd rfl other
  cases same : MarkerId.ofName? name with
  | none =>
    simp only [same] at later
    cases later
  | some id =>
    cases id with
    | tag =>
      simp only [same] at later
      obtain ⟨_, left'', colon, afterColon⟩ := bind_eq_iff.mp later
      obtain ⟨tag, last, read, final⟩ := bind_eq_iff.mp afterColon
      cases final
      have whole : (Marker.tag tag).render.toList ++ rest' =
          '&' :: ("tag".toList ++ ':' :: (tag.toList ++ rest')) := by
        simp [Marker.render]
      rw [whole]
      exact bind_eq_iff.mpr ⟨(), _, char_eq_iff.mpr rfl, bind_eq_iff.mpr ⟨"tag", _,
        isName_tag.identifier_append rfl, bind_eq_iff.mpr
          ⟨(), _, char_eq_iff.mpr rfl, bind_eq_iff.mpr
            ⟨tag, rest', (tagName_eq read).1.tagName_append ends stops, rfl⟩⟩⟩⟩
    | _ =>
      simp only [same] at later
      cases later
      exact flagged _ (by rintro ⟨⟩) rfl

theorem accepts_marker_head {cs : List Char} (accepts : marker.Accepts cs) :
    ∃ rest, cs = '&' :: rest := by
  obtain ⟨_, left, ampersand, -⟩ := accepts_bind_iff.mp accepts
  exact ⟨left, char_eq_iff.mp ampersand⟩

/-! ### Merge forms -/

/-- A key behind its word. -/
def keyPart : Parser String := do
  spaces1
  keyword "on"
  spaces1
  identifier

/-- A path behind spacing. -/
def pathPart : Parser (List String) := do
  spaces1
  mergePath

/-- A name behind spacing. -/
def namePart : Parser String := do
  spaces1
  identifier

theorem mergePath_eq_iff {cs rest : List Char} {path : List String} :
    mergePath cs = .accepted path rest ↔ ∃ first steps left, path = first :: steps ∧
      identifier cs = .accepted first left ∧ isKeyword first = false ∧
      many fieldStep left = .accepted steps rest := by
  refine Iff.trans bind_eq_iff ?_
  constructor
  · rintro ⟨first, left, named, later⟩
    by_cases refused : isKeyword first
    · rw [if_pos refused] at later
      cases later
    · rw [if_neg refused] at later
      obtain ⟨steps, last, read, same⟩ := bind_eq_iff.mp later
      cases same
      exact ⟨first, steps, left, rfl, named, Bool.eq_false_iff.mpr refused, read⟩
  · rintro ⟨first, steps, left, rfl, named, allowed, read⟩
    refine ⟨first, left, named, ?_⟩
    rw [if_neg (by rw [allowed]; exact Bool.false_ne_true)]
    exact bind_eq_iff.mpr ⟨steps, rest, read, rfl⟩

theorem accepts_pathPart_iff {cs : List Char} : pathPart.Accepts cs ↔
    ∃ first rest, namePart cs = .accepted first rest ∧ isKeyword first = false := by
  constructor
  · rintro ⟨path, rest, accepted⟩
    obtain ⟨_, left, spacing, read⟩ := bind_eq_iff.mp accepted
    obtain ⟨first, steps, left', -, named, allowed, -⟩ := mergePath_eq_iff.mp read
    exact ⟨first, left', bind_eq_iff.mpr ⟨(), left, spacing, named⟩, allowed⟩
  · rintro ⟨first, rest, accepted, allowed⟩
    obtain ⟨_, left, spacing, named⟩ := bind_eq_iff.mp accepted
    exact ⟨_, _, bind_eq_iff.mpr ⟨(), left, spacing, mergePath_eq_iff.mpr
      ⟨first, _, rest, rfl, named, allowed, rfl⟩⟩⟩

theorem mergeFlag_eq_iff {cs rest : List Char} {replace : Bool} :
    mergeFlag cs = .accepted replace rest ↔
      namePart cs = .accepted (if replace then "replace" else "required") rest := by
  have either : ∀ {cs : List Char}, Parser.choose [(fun _ => true) <$> keyword "replace",
      (fun _ => false) <$> keyword "required"] cs = .accepted replace rest ↔
      identifier cs = .accepted (if replace then "replace" else "required") rest := by
    intro cs
    rw [choose_cons_eq_iff, choose_cons_eq_iff, choose_nil_eq_iff, accepts_map_iff, map_eq_iff,
      map_eq_iff, accepts_keyword_iff isName_replace]
    simp only [keyword_eq_iff isName_replace, keyword_eq_iff isName_required, exists_const]
    cases replace
    · simp only [Bool.false_eq_true, Bool.true_eq_false, and_false, if_false, and_true, false_or,
        or_false, and_iff_right_iff_imp]
      rintro accepted ⟨_, other⟩
      exact absurd (Parsed.accepted.inj (accepted.symm.trans other)).1 (by decide)
    · simp
  refine Iff.trans bind_eq_iff (Iff.trans ?_ bind_eq_iff.symm)
  exact exists_congr fun _ => exists_congr fun middle => and_congr_right fun _ => either

theorem spaces1_space {rest : List Char} (solid : Unspaced rest) :
    spaces1 (' ' :: rest) = .accepted () rest :=
  spaces1_eq_iff.mpr ⟨' ', rest, rfl, rfl, solid.symm⟩

theorem IsName.unspaced {s : String} (isName : IsName s) (rest : List Char) :
    Unspaced (s.toList ++ rest) := by
  obtain ⟨c, cs, chars, start⟩ := isName.exists_cons
  rw [chars]
  refine unspaced_cons ?_ _
  refine Bool.eq_false_iff.mpr fun spacing => ?_
  simp only [Blank.isSpacing, Bool.or_eq_true, beq_iff_eq] at spacing
  rcases spacing with ((rfl | rfl) | rfl) | rfl <;> exact absurd start (by decide)

/-- A name behind one space is read back. -/
theorem IsName.namePart_append {s : String} (isName : IsName s) {rest : List Char}
    (ends : continuesName rest = false) : namePart (' ' :: (s.toList ++ rest)) = .accepted s rest :=
  bind_eq_iff.mpr ⟨(), _, spaces1_space (isName.unspaced rest), isName.identifier_append ends⟩

theorem accepts_keyPart_iff {cs : List Char} : keyPart.Accepts cs ↔
    ∃ rest, namePart cs = .accepted "on" rest ∧ namePart.Accepts rest := by
  constructor
  · intro accepts
    obtain ⟨_, left, spacing, accepts⟩ := accepts_bind_iff.mp accepts
    obtain ⟨_, left', word, accepts⟩ := accepts_bind_iff.mp accepts
    exact ⟨left', bind_eq_iff.mpr ⟨(), left, spacing, (keyword_eq_iff isName_on).mp word⟩, accepts⟩
  · rintro ⟨rest, accepted, accepts⟩
    obtain ⟨_, left, spacing, named⟩ := bind_eq_iff.mp accepted
    exact accepts_bind_iff.mpr ⟨(), left, spacing, accepts_bind_iff.mpr
      ⟨(), rest, (keyword_eq_iff isName_on).mpr named, accepts⟩⟩

theorem mergeForm_eq_iff {cs rest : List Char} {e : Expr} : mergeForm cs = .accepted e rest ↔
    ∃ flags path key left left' left'',
      e = .merge ⟨path, flags.contains false, flags.contains true, key⟩ ∧
      identifier cs = .accepted "merge" left ∧ (∀ rest, left ≠ '(' :: rest) ∧
      many mergeFlag left = .accepted flags left' ∧
      optional keyPart left' = .accepted key left'' ∧
      optional pathPart left'' = .accepted path rest := by
  refine Iff.trans bind_eq_iff ?_
  constructor
  · rintro ⟨_, left, word, later⟩
    obtain ⟨_, middle, unopened, afterMerge⟩ := bind_eq_iff.mp later
    obtain ⟨opens, rfl⟩ := notFollowedBy_eq_iff.mp unopened
    obtain ⟨flags, left', flagged, afterFlags⟩ := bind_eq_iff.mp afterMerge
    obtain ⟨key, left'', keyed, afterKey⟩ := bind_eq_iff.mp afterFlags
    obtain ⟨path, last, pathed, same⟩ := bind_eq_iff.mp afterKey
    cases same
    refine ⟨flags, path, key, left, left', left'', rfl, (keyword_eq_iff isName_merge).mp word,
      ?_, flagged,
      keyed, pathed⟩
    rintro rest rfl
    exact opens ⟨(), rest, char_eq_iff.mpr rfl⟩
  · rintro ⟨flags, path, key, left, left', left'', rfl, word, unopened, flagged, keyed, pathed⟩
    refine ⟨(), left, (keyword_eq_iff isName_merge).mpr word, bind_eq_iff.mpr ⟨(), left,
      notFollowedBy_eq_iff.mpr ⟨?_, rfl⟩, bind_eq_iff.mpr ⟨flags, left', flagged, bind_eq_iff.mpr
        ⟨key, left'', keyed, bind_eq_iff.mpr ⟨path, rest, pathed, rfl⟩⟩⟩⟩⟩
    rintro ⟨_, rest, opens⟩
    exact unopened rest (char_eq_iff.mp opens)

section

variable {rest rest' : List Char}

/-- The printed path of a merge form. -/
def pathForm (path : Option (List String)) (rest : List Char) : List Char :=
  match path with
  | some path => ' ' :: (Expr.printDotted path ++ rest)
  | none => rest

/-- The printed key and path of a merge form. -/
def keyForm (key : Option String) (rest : List Char) : List Char :=
  match key with
  | some key => ' ' :: ("on".toList ++ ' ' :: (key.toList ++ rest))
  | none => rest

/-- A printed flag of a merge form. -/
def flagForm (present : Bool) (word : String) (rest : List Char) : List Char :=
  if present then ' ' :: (word.toList ++ rest) else rest

theorem print_merge (m : MergeExpr) : m.print ++ rest = "merge".toList ++
    flagForm m.replace "replace" (flagForm m.required "required"
      (keyForm m.key (pathForm m.path rest))) := by
  obtain ⟨path, required, replace, key⟩ := m
  unfold MergeExpr.print flagForm keyForm pathForm
  cases path <;> cases required <;> cases replace <;> cases key <;> simp

/-- What follows each word of a merge form is a space, or what follows the form. -/
theorem forms_of {P : List Char → Prop} (space : ∀ cs, P (' ' :: cs)) (here : P rest)
    (path : Option (List String)) (key : Option String) (required replace : Bool) :
    P (pathForm path rest) ∧ P (keyForm key (pathForm path rest)) ∧
      P (flagForm required "required" (keyForm key (pathForm path rest))) ∧
      P (flagForm replace "replace"
        (flagForm required "required" (keyForm key (pathForm path rest)))) := by
  have atPath : P (pathForm path rest) := by
    cases path with
    | none => exact here
    | some path => exact space _
  have atKey : P (keyForm key (pathForm path rest)) := by
    cases key with
    | none => exact atPath
    | some key => exact space _
  have atFlag : P (flagForm required "required" (keyForm key (pathForm path rest))) := by
    cases required with
    | false => exact atKey
    | true => exact space _
  refine ⟨atPath, atKey, atFlag, ?_⟩
  cases replace with
  | false => exact atFlag
  | true => exact space _

/-- Flags are read back in their printed order. -/
theorem many_mergeFlag_forms (replace : Bool) {required : Bool}
    (ends : continuesName (flagForm required "required" rest) = false)
    (ends' : continuesName rest = false) (stops : ¬mergeFlag.Accepts rest) :
    many mergeFlag (flagForm replace "replace" (flagForm required "required" rest)) =
      .accepted ((if replace then [true] else []) ++ (if required then [false] else [])) rest := by
  have none : many mergeFlag rest = .accepted [] rest := many_of_not_accepts stops
  have last : many mergeFlag (flagForm required "required" rest) =
      .accepted (if required then [false] else []) rest := by
    cases required with
    | false => exact none
    | true =>
      exact advances_mergeFlag.many_eq_cons_iff.mpr ⟨rest, mergeFlag_eq_iff.mpr
        (isName_required.namePart_append ends'), none⟩
  cases replace with
  | false => exact last
  | true =>
    exact advances_mergeFlag.many_eq_cons_iff.mpr ⟨_, mergeFlag_eq_iff.mpr
      (isName_replace.namePart_append ends), last⟩

/-- A merge form is read back before a delimiter that starts no path and, if the form ends with the
word before a key, no name. -/
theorem mergeForm_print {cs : List Char} {m : MergeExpr}
    (accepted : mergeForm cs = .accepted (.merge m) rest) (delimited : Delimited rest')
    (noPath : pathPart.Accepts rest' → pathPart.Accepts rest)
    (noName : m.endsOn = true → namePart.Accepts rest' → namePart.Accepts rest) :
    mergeForm (m.print ++ rest') = .accepted (.merge m) rest' := by
  obtain ⟨flags, path, key, left, left', left'', same, -, -, flagged, keyed, pathed⟩ :=
    mergeForm_eq_iff.mp accepted
  cases same
  have ends := delimited.continuesName
  obtain ⟨pathEnds, keyEnds, flagEnds, start⟩ := forms_of (P := fun cs => continuesName cs = false)
    (fun _ => rfl) ends path key (flags.contains false) (flags.contains true)
  -- The path.
  have readsPath : optional pathPart (pathForm path rest') = .accepted path rest' ∧
      (∀ first after, namePart (pathForm path rest') = .accepted first after →
        isKeyword first = false → ∃ after', namePart left'' = .accepted first after' ∧
          (first = "on" → key = none → namePart.Accepts after → namePart.Accepts after')) := by
    cases path with
    | none =>
      obtain ⟨stops, -⟩ := optional_eq_none_iff.mp pathed
      refine ⟨optional_eq_none_iff.mpr ⟨fun accepts => ?_, rfl⟩,
        fun first after named allowed => ?_⟩
      · obtain ⟨stops, rfl⟩ := optional_eq_none_iff.mp pathed
        exact stops (noPath accepts)
      · obtain ⟨stops, rfl⟩ := optional_eq_none_iff.mp pathed
        exact absurd (noPath (accepts_pathPart_iff.mpr ⟨first, after, named, allowed⟩)) stops
    | some path =>
      obtain ⟨_, middle, spacing, read⟩ := bind_eq_iff.mp (optional_eq_some_iff.mp pathed)
      obtain ⟨first, steps, after, rfl, named, allowed, stepped⟩ := mergePath_eq_iff.mp read
      obtain ⟨isName, -, -⟩ := identifier_eq_iff.mp named
      obtain ⟨segments, -, -⟩ := many_fieldStep_eq stepped
      have whole : pathForm (some (first :: steps)) rest' =
          ' ' :: (first.toList ++ (Expr.printPath steps ++ rest')) := by
        simp [pathForm, printDotted_cons]
      have stepEnds := continuesName_printPath ends steps
      rw [whole]
      refine ⟨optional_eq_some_iff.mpr (bind_eq_iff.mpr ⟨(), _,
        spaces1_space (isName.unspaced _), mergePath_eq_iff.mpr ⟨first, steps, _, rfl,
          isName.identifier_append stepEnds, allowed,
          many_fieldStep_printPath segments ends delimited.not_accepts_fieldStep⟩⟩), ?_⟩
      intro first' after' named' _
      cases (isName.namePart_append stepEnds).symm.trans named'
      refine ⟨after, bind_eq_iff.mpr ⟨(), middle, spacing, named⟩, ?_⟩
      rintro rfl rfl accepts
      cases steps with
      | nil =>
        obtain ⟨-, rfl⟩ := advances_fieldStep.many_eq_nil_iff.mp stepped
        exact noName rfl accepts
      | cons s steps =>
        rw [printPath_cons] at accepts
        obtain ⟨_, _, spaced, -⟩ := accepts_bind_iff.mp accepts
        cases spaced
  -- The key.
  have readsKey : optional keyPart (keyForm key (pathForm path rest')) =
      .accepted key (pathForm path rest') := by
    cases key with
    | some key =>
      obtain ⟨_, _, _, later⟩ := bind_eq_iff.mp (optional_eq_some_iff.mp keyed)
      obtain ⟨_, _, _, later'⟩ := bind_eq_iff.mp later
      obtain ⟨_, _, _, named⟩ := bind_eq_iff.mp later'
      obtain ⟨isName, -, -⟩ := identifier_eq_iff.mp named
      exact optional_eq_some_iff.mpr (bind_eq_iff.mpr ⟨(), _, spaces1_space (isName_on.unspaced _),
        bind_eq_iff.mpr ⟨(), _, (keyword_eq_iff isName_on).mpr (isName_on.identifier_append rfl),
          bind_eq_iff.mpr ⟨(), _, spaces1_space (isName.unspaced _),
            isName.identifier_append pathEnds⟩⟩⟩)
    | none =>
      refine optional_eq_none_iff.mpr ⟨fun accepts => ?_, rfl⟩
      obtain ⟨unkeyed, rfl⟩ := optional_eq_none_iff.mp keyed
      obtain ⟨after, named, accepts⟩ := accepts_keyPart_iff.mp accepts
      obtain ⟨after', named', follows⟩ := readsPath.2 _ _ named rfl
      exact unkeyed (accepts_keyPart_iff.mpr ⟨after', named', follows rfl rfl accepts⟩)
  -- The flags.
  have unflagged : ¬mergeFlag.Accepts (keyForm key (pathForm path rest')) := by
    rintro ⟨replace, after, flag⟩
    have word := mergeFlag_eq_iff.mp flag
    have allowed : isKeyword (if replace then "replace" else "required") = false := by
      cases replace <;> rfl
    cases key with
    | some key =>
      have on : namePart (keyForm (some key) (pathForm path rest')) = .accepted "on" _ :=
        isName_on.namePart_append rfl
      have same := (Parsed.accepted.inj (on.symm.trans word)).1
      cases replace <;> exact absurd same (by decide)
    | none =>
      obtain ⟨-, rfl⟩ := optional_eq_none_iff.mp keyed
      obtain ⟨after', word', -⟩ := readsPath.2 _ _ word allowed
      exact advances_mergeFlag.many_stops flagged ⟨replace, after', mergeFlag_eq_iff.mpr word'⟩
  refine mergeForm_eq_iff.mpr ⟨_, path, key, _, _, _, ?_, ?_, ?_,
    many_mergeFlag_forms (flags.contains true) flagEnds keyEnds unflagged, readsKey,
    readsPath.1⟩
  · cases flags.contains false <;> cases flags.contains true <;> rfl
  · rw [print_merge]
    exact isName_merge.identifier_append start
  · refine (forms_of (P := fun cs => ∀ rest, cs ≠ '(' :: rest) ?_ ?_ path key _ _).2.2.2
    · rintro _ _ ⟨⟩
    · rintro _ rfl
      simp [Delimited] at delimited

end

end Grammar

end Cascade
