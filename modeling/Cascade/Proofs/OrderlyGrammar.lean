import Mathlib.Data.List.TakeWhile
import Cascade.Proofs.Tokens

/-!
# Spacing behind a text

A parser stops inside the text that it was given, whether it accepts a part of it or fails. And
spacing behind the text is not seen: the same part is accepted, and what failed fails. Both hold of
every rule of the grammar, by one walk over the rules.

A rule that ends with spacing would accept more of a longer text. Such rules occur only in front of
an operand, which is missing at the end of the text whether or not spacing stands there
(`Orderly.spaces1_bind`). And a string literal takes up spacing that stands behind an open quote,
but it is rejected for its missing quote all the same (`orderly_stringLiteral`).

## Main definitions

* `Parsed.Padded`: what becomes of a result when spacing is put behind the text.
* `Parser.Orderly`: the parser stops inside the text and does not see spacing behind it.

## Main statements

* `Grammar.orderly_full`: the grammar is orderly.
-/

namespace Cascade

/-- The text is nothing but spacing. -/
def Blank.IsSpace (cs : List Char) : Prop := ∀ c ∈ cs, isSpacing c = true

namespace Parsed

variable {α : Type}

/-- Where the parser stands in the end. -/
def left : Parsed α → List Char
  | .accepted _ rest => rest
  | .failed stopped => stopped

/-- The second result is that of a text with spacing behind it: the same value, and some spacing
behind what is left, or a failure as well. -/
inductive Padded : Parsed α → Parsed α → Prop
  | accepted (value : α) (rest : List Char) {more : List Char} (spacing : Blank.IsSpace more) :
      Padded (.accepted value rest) (.accepted value (rest ++ more))
  | failed (stopped stopped' : List Char) : Padded (.failed stopped) (.failed stopped')

end Parsed

namespace Parser

variable {α β : Type}

/-- The parser stops inside the text and does not see spacing behind it. -/
structure Orderly (p : Parser α) : Prop where
  inside : ∀ cs, (p cs).left <:+ cs
  padded : ∀ cs {pad}, Blank.IsSpace pad → (p cs).Padded (p (cs ++ pad))

section

variable {p : Parser α} {f : α → Parser β}

theorem Orderly.accepts_append_iff (orderly : p.Orderly) {cs pad : List Char}
    (spacing : Blank.IsSpace pad) : p.Accepts (cs ++ pad) ↔ p.Accepts cs := by
  have here := orderly.padded cs spacing
  unfold Accepts
  revert here
  cases p cs <;> cases p (cs ++ pad) <;> rintro ⟨⟩ <;> simp

theorem orderly_pure (value : α) : (pure value : Parser α).Orderly where
  inside cs := List.suffix_refl cs
  padded cs _ spacing := .accepted value cs spacing

theorem orderly_fail : (fail : Parser α).Orderly where
  inside cs := List.suffix_refl cs
  padded cs pad _ := .failed cs (cs ++ pad)

namespace Orderly

theorem bind (first : p.Orderly) (next : ∀ value, (f value).Orderly) : (p >>= f).Orderly where
  inside := by
    intro cs
    rw [bind_apply]
    have here := first.inside cs
    cases run : p cs with
    | accepted value rest =>
      rw [run] at here
      exact ((next value).inside rest).trans here
    | failed stopped =>
      rw [run] at here
      exact here
  padded := by
    intro cs pad spacing
    have here := first.padded cs spacing
    rw [bind_apply, bind_apply]
    generalize p cs = result at here ⊢
    generalize p (cs ++ pad) = result' at here ⊢
    cases here with
    | accepted value rest spacing => exact (next value).padded rest spacing
    | failed stopped stopped' => exact .failed stopped stopped'

theorem map {g : α → β} (orderly : p.Orderly) : (g <$> p).Orderly :=
  orderly.bind fun _ => orderly_pure _

theorem shrinks (orderly : p.Orderly) : p.Shrinks := by
  intro cs value rest accepted
  have stays := orderly.inside cs
  rw [accepted] at stays
  exact stays

theorem choose {parsers : List (Parser α)} (each : parsers.Forall Orderly) :
    (choose parsers).Orderly := by
  induction parsers with
  | nil => exact orderly_fail
  | cons first others ih =>
    obtain ⟨here, there⟩ := List.forall_cons _ _ _ |>.mp each
    cases others with
    | nil => exact here
    | cons second others =>
      have rest := ih there
      -- The alternatives are tried from the same place.
      refine ⟨fun cs => ?_, fun cs pad spacing => ?_⟩
      · show (orElse first (Parser.choose (second :: others)) cs).left <:+ cs
        have stays := here.inside cs
        unfold orElse
        cases run : first cs with
        | accepted value rest =>
          rw [run] at stays
          exact stays
        | failed stopped => exact rest.inside cs
      · show (orElse first (Parser.choose (second :: others)) cs).Padded
          (orElse first (Parser.choose (second :: others)) (cs ++ pad))
        have alike := here.padded cs spacing
        unfold orElse
        generalize first cs = result at alike ⊢
        generalize first (cs ++ pad) = result' at alike ⊢
        cases alike with
        | accepted value rest spacing => exact .accepted value rest spacing
        | failed => exact rest.padded cs spacing

theorem optional (orderly : p.Orderly) : (optional p).Orderly where
  inside := by
    intro cs
    have stays := orderly.inside cs
    unfold Parser.optional
    cases run : p cs with
    | accepted value rest =>
      rw [run] at stays
      exact stays
    | failed stopped => exact List.suffix_refl cs
  padded := by
    intro cs pad spacing
    have here := orderly.padded cs spacing
    unfold Parser.optional
    generalize p cs = result at here ⊢
    generalize p (cs ++ pad) = result' at here ⊢
    cases here with
    | accepted value rest spacing => exact .accepted (some value) rest spacing
    | failed => exact .accepted none cs spacing

theorem notFollowedBy (orderly : p.Orderly) : (notFollowedBy p).Orderly where
  inside := by
    intro cs
    unfold Parser.notFollowedBy
    cases p cs <;> exact List.suffix_refl cs
  padded := by
    intro cs pad spacing
    have here := orderly.padded cs spacing
    unfold Parser.notFollowedBy
    generalize p cs = result at here ⊢
    generalize p (cs ++ pad) = result' at here ⊢
    cases here with
    | accepted => exact .failed cs (cs ++ pad)
    | failed => exact .accepted () cs spacing

theorem followedBy (orderly : p.Orderly) : (followedBy p).Orderly where
  inside := by
    intro cs
    unfold Parser.followedBy
    cases p cs <;> exact List.suffix_refl cs
  padded := by
    intro cs pad spacing
    have here := orderly.padded cs spacing
    unfold Parser.followedBy
    generalize p cs = result at here ⊢
    generalize p (cs ++ pad) = result' at here ⊢
    cases here with
    | accepted => exact .accepted () cs spacing
    | failed => exact .failed cs (cs ++ pad)

/-- Repetitions end at the same place of the text: there the parser fails with spacing behind the
text as well. -/
theorem many (orderly : p.Orderly) (advances : p.Advances) : (many p).Orderly where
  inside := by
    intro cs
    have shrinks : p.Shrinks := advances.shrinks
    exact shrinks.many cs _ _ rfl
  padded := by
    intro cs pad spacing
    induction length : cs.length using Nat.strongRecOn generalizing cs pad with
    | ind n ih =>
      have here := orderly.padded cs spacing
      cases first : p cs with
      | accepted value rest =>
        rw [first] at here
        have shorter := (advances cs value rest first).2
        generalize again : p (cs ++ pad) = result' at here
        cases here with
        | @accepted _ _ more spacing =>
          have later := ih rest.length (length ▸ shorter) rest spacing rfl
          obtain ⟨values, last, run⟩ : (Parser.many p).Accepts rest := accepts_many
          generalize longer : Parser.many p (rest ++ more) = result' at later
          rw [run] at later
          cases later with
          | @accepted _ _ more spacing =>
            rw [advances.many_eq_cons_iff.mpr ⟨rest, first, run⟩,
              advances.many_eq_cons_iff.mpr ⟨_, again, longer⟩]
            exact .accepted (value :: values) last spacing
      | failed stopped =>
        have stops : ¬p.Accepts cs := not_accepts_iff.mpr ⟨stopped, first⟩
        have again : ¬p.Accepts (cs ++ pad) := mt (orderly.accepts_append_iff spacing).mp stops
        rw [many_of_not_accepts stops, many_of_not_accepts again]
        exact .accepted [] cs spacing

end Orderly

end

/-! ### Characters -/

theorem Blank.eq_of_isSpacing {c : Char} (spacing : Blank.isSpacing c = true) :
    c = ' ' ∨ c = '\t' ∨ c = '\r' ∨ c = '\n' := by
  simpa only [Blank.isSpacing, Bool.or_eq_true, beq_iff_eq, or_assoc] using spacing

/-- The class has no spacing in it. -/
def IsSolid (test : Char → Bool) : Prop := ∀ c, Blank.isSpacing c = true → test c = false

theorem isSolid_isDigit : IsSolid Char.isDigit := by
  intro c spacing
  rcases Blank.eq_of_isSpacing spacing with rfl | rfl | rfl | rfl <;> rfl

theorem isSolid_isNameStart : IsSolid Expr.isNameStart := by
  intro c spacing
  rcases Blank.eq_of_isSpacing spacing with rfl | rfl | rfl | rfl <;> rfl

theorem isSolid_isNamePart : IsSolid Expr.isNamePart := by
  intro c spacing
  rcases Blank.eq_of_isSpacing spacing with rfl | rfl | rfl | rfl <;> rfl

theorem isSolid_beq {c : Char} (solid : Blank.isSpacing c = false) : IsSolid (· == c) := by
  intro d spacing
  refine beq_false_of_ne ?_
  rintro rfl
  rw [solid] at spacing
  exact absurd spacing Bool.false_ne_true

theorem IsSolid.or {test test' : Char → Bool} (first : IsSolid test) (second : IsSolid test') :
    IsSolid fun c => test c || test' c := by
  intro c spacing
  show (test c || test' c) = false
  rw [first c spacing, second c spacing, Bool.or_self]

theorem takeWhile_eq_nil_of_isSpace {test : Char → Bool} (solid : IsSolid test) {pad : List Char}
    (spacing : Blank.IsSpace pad) : pad.takeWhile test = [] := by
  cases pad with
  | nil => rfl
  | cons c rest =>
    refine List.takeWhile_cons_of_neg ?_
    rw [solid c (spacing c List.mem_cons_self)]
    exact Bool.false_ne_true

theorem orderly_satisfy {test : Char → Bool} (solid : IsSolid test) : (satisfy test).Orderly where
  inside := by
    intro cs
    cases cs with
    | nil => exact List.suffix_refl []
    | cons c rest =>
      rw [satisfy]
      split
      · exact List.suffix_cons c rest
      · exact List.suffix_refl _
  padded := by
    intro cs pad spacing
    cases cs with
    | nil =>
      cases pad with
      | nil => exact .failed [] []
      | cons c rest =>
        rw [List.nil_append, satisfy, satisfy, solid c (spacing c List.mem_cons_self)]
        exact .failed [] (c :: rest)
    | cons c rest =>
      rw [List.cons_append, satisfy, satisfy]
      split
      · exact .accepted c rest spacing
      · exact .failed _ _

/-- Reading a character is reading one of a class. -/
theorem char_eq_map (c : Char) : char c = (fun _ => ()) <$> satisfy (· == c) := by
  funext cs
  show char c cs = (satisfy (· == c) >>= fun _ => pure ()) cs
  rw [bind_apply]
  cases cs with
  | nil => rfl
  | cons d rest =>
    rw [char, satisfy]
    by_cases same : d = c
    · rw [if_pos same, if_pos (beq_iff_eq.mpr same)]
      rfl
    · rw [if_neg same, if_neg (mt beq_iff_eq.mp same)]

theorem orderly_char {c : Char} (solid : Blank.isSpacing c = false) : (char c).Orderly := by
  rw [char_eq_map]
  exact (orderly_satisfy (isSolid_beq solid)).map

/-- The word has no spacing in it. -/
def IsSolidWord (w : List Char) : Prop := (w.all fun c => !Blank.isSpacing c) = true

instance (w : List Char) : Decidable (IsSolidWord w) := inferInstanceAs (Decidable (_ = true))

theorem IsSolidWord.of_mem {w : List Char} (solid : IsSolidWord w) {c : Char} (member : c ∈ w) :
    Blank.isSpacing c = false :=
  (Bool.not_eq_true' _).mp (List.all_eq_true.mp solid c member)

theorem orderly_word {w : List Char} (solid : IsSolidWord w) : (word w).Orderly where
  inside := by
    intro cs
    unfold word
    split
    · exact List.drop_suffix _ cs
    · exact List.suffix_refl cs
  padded := by
    intro cs pad spacing
    cases run : word w cs with
    | accepted value rest =>
      obtain rfl := word_eq_iff.mp run
      have again : word w (w ++ rest ++ pad) = .accepted () (rest ++ pad) :=
        word_eq_iff.mpr (List.append_assoc w rest pad)
      rw [again]
      exact .accepted () rest spacing
    | failed stopped =>
      cases again : word w (cs ++ pad) with
      | failed stopped' => exact .failed stopped stopped'
      | accepted value rest =>
        -- The word would have to reach into the spacing.
        exfalso
        rcases List.append_eq_append_iff.mp (word_eq_iff.mp again) with
          ⟨beyond, rfl, rfl⟩ | ⟨between, rfl, rfl⟩
        · cases beyond with
          | nil =>
            have whole : word (cs ++ []) cs = .accepted () [] :=
              word_eq_iff.mpr (by rw [List.append_nil, List.append_nil])
            rw [whole] at run
            cases run
          | cons c beyond =>
            have blank := spacing c (List.mem_append_left _ List.mem_cons_self)
            rw [solid.of_mem (List.mem_append_right _ List.mem_cons_self)] at blank
            exact absurd blank Bool.false_ne_true
        · have whole : word w (w ++ between) = .accepted () between := word_eq_iff.mpr rfl
          rw [whole] at run
          cases run

theorem orderly_takeWhile1 {test : Char → Bool} (solid : IsSolid test) :
    (takeWhile1 test).Orderly where
  inside := by
    intro cs
    unfold takeWhile1
    split
    · exact List.suffix_refl cs
    · exact List.dropWhile_suffix _
  padded := by
    intro cs pad spacing
    have nothing := takeWhile_eq_nil_of_isSpace solid spacing
    have all : pad.dropWhile test = pad := by
      have whole := List.takeWhile_append_dropWhile (p := test) (l := pad)
      rwa [nothing, List.nil_append] at whole
    have taken : (cs ++ pad).takeWhile test = cs.takeWhile test := by
      rw [List.takeWhile_append, nothing, List.append_nil]
      split
      · next complete =>
        exact ((List.takeWhile_prefix test).eq_of_length complete).symm
      · rfl
    have left : (cs ++ pad).dropWhile test = cs.dropWhile test ++ pad := by
      rw [List.dropWhile_append, all]
      split
      · next empty => rw [List.isEmpty_iff.mp empty, List.nil_append]
      · rfl
    unfold takeWhile1
    rw [taken, left]
    cases cs.takeWhile test with
    | nil => exact .failed _ _
    | cons c rest => exact .accepted _ _ spacing

theorem orderly_digits1 : digits1.Orderly := orderly_takeWhile1 isSolid_isDigit

/-! ### Spacing -/

/-- Leading spacing is dropped; of the spacing behind the text all is left, or nothing if the text
is spacing as well. -/
theorem exists_dropWhile_append (cs : List Char) {pad : List Char} (spacing : Blank.IsSpace pad) :
    ∃ more, Blank.IsSpace more ∧
      (cs ++ pad).dropWhile Blank.isSpacing = cs.dropWhile Blank.isSpacing ++ more := by
  rw [List.dropWhile_append]
  split
  · next empty =>
    refine ⟨[], by simp [Blank.IsSpace], ?_⟩
    rw [List.isEmpty_iff.mp empty, List.dropWhile_eq_nil_iff.mpr spacing, List.append_nil]
  · exact ⟨pad, spacing, rfl⟩

theorem orderly_spaces : spaces.Orderly where
  inside cs := List.dropWhile_suffix _
  padded := by
    intro cs pad spacing
    obtain ⟨more, blank, left⟩ := exists_dropWhile_append cs spacing
    show Parsed.Padded (.accepted () (cs.dropWhile Blank.isSpacing))
      (.accepted () ((cs ++ pad).dropWhile Blank.isSpacing))
    rw [left]
    exact .accepted () _ blank

theorem Advances.not_accepts_nil {p : Parser α} (advances : p.Advances) : ¬p.Accepts [] := by
  rintro ⟨value, rest, accepted⟩
  exact Nat.not_lt_zero _ (advances [] value rest accepted).2

theorem spaces1_cons (c : Char) (cs : List Char) : spaces1 (c :: cs) =
    if Blank.isSpacing c then .accepted () (cs.dropWhile Blank.isSpacing)
    else .failed (c :: cs) := by
  show (takeWhile1 Blank.isSpacing >>= fun _ => pure ()) (c :: cs) = _
  rw [bind_apply, takeWhile1]
  by_cases spacing : Blank.isSpacing c = true
  · rw [List.takeWhile_cons_of_pos spacing, List.dropWhile_cons_of_pos spacing, if_pos spacing]
    rfl
  · rw [List.takeWhile_cons_of_neg spacing, if_neg spacing]

/-- Spacing in front of something: without it, the spacing behind a text leads nowhere. -/
theorem Orderly.spaces1_bind {f : Unit → Parser β} (next : ∀ u, (f u).Orderly)
    (needed : ∀ u, ¬(f u).Accepts []) : (spaces1 >>= f).Orderly where
  inside := by
    intro cs
    rw [bind_apply]
    cases cs with
    | nil => exact List.suffix_refl []
    | cons c cs =>
      rw [spaces1_cons]
      split
      · next value rest read =>
        split at read
        · cases read
          exact ((next ()).inside _).trans
            ((List.dropWhile_suffix _).trans (List.suffix_cons c cs))
        · cases read
      · next stopped read =>
        split at read
        · cases read
        · cases read
          exact List.suffix_refl _
  padded := by
    intro cs pad spacing
    rw [bind_apply, bind_apply]
    cases cs with
    | nil =>
      -- Spacing alone is read, but what should follow it is not there.
      cases pad with
      | nil => exact .failed [] []
      | cons c pad =>
        obtain ⟨blank, rest⟩ := List.forall_mem_cons.mp spacing
        obtain ⟨stopped, fails⟩ := not_accepts_iff.mp (needed ())
        rw [List.nil_append, spaces1_cons, if_pos blank, List.dropWhile_eq_nil_iff.mpr rest]
        show Parsed.Padded (.failed []) (f () [])
        rw [fails]
        exact .failed [] stopped
    | cons c cs =>
      rw [List.cons_append, spaces1_cons, spaces1_cons]
      by_cases first : Blank.isSpacing c = true
      · obtain ⟨more, blank, left⟩ := exists_dropWhile_append cs spacing
        rw [if_pos first, if_pos first, left]
        exact (next ()).padded _ blank
      · rw [if_neg first, if_neg first]
        exact .failed _ _

theorem Orderly.spaced {p : Parser α} (orderly : p.Orderly) : (spaced p).Orderly :=
  orderly_spaces.bind fun _ => orderly.bind fun _ => orderly_spaces.bind fun _ => orderly_pure _

/-- Values between separators. -/
theorem Orderly.separated {p : Parser α} {separator : Parser β} (orderly : p.Orderly)
    (advances : p.Advances) (separates : separator.Orderly) :
    (separated p separator).Orderly := by
  refine orderly.optional.bind fun first => ?_
  cases first with
  | none => exact orderly_pure _
  | some first =>
    have item : (separator >>= fun _ => p).Orderly := separates.bind fun _ => orderly
    have further : (separator >>= fun _ => p).Advances :=
      separates.shrinks.bind_advances fun _ => advances
    exact (item.many further).bind fun _ => orderly_pure _

theorem bind_assoc {γ : Type} (p : Parser α) (f : α → Parser β) (g : β → Parser γ) :
    (p >>= f) >>= g = p >>= fun value => f value >>= g := by
  funext cs
  simp only [bind_apply]
  cases p cs <;> rfl

end Parser

namespace Grammar

open Cascade.Parser

/-! ### Words and literals -/

theorem continuesName_append (cs : List Char) {pad : List Char} (spacing : Blank.IsSpace pad) :
    continuesName (cs ++ pad) = continuesName cs := by
  rcases cs with _ | ⟨c, _ | ⟨d, cs⟩⟩
  · cases pad with
    | nil => rfl
    | cons c pad =>
      have blank := spacing c List.mem_cons_self
      have other : c ≠ '-' := by
        rintro rfl
        exact absurd blank (by decide)
      rw [List.nil_append, continuesName_of_ne other]
      exact isSolid_isNamePart c blank
  · by_cases hyphen : c = '-'
    · subst hyphen
      cases pad with
      | nil => rfl
      | cons d pad => exact isSolid_isNameStart d (spacing d List.mem_cons_self)
    · rw [List.singleton_append, continuesName_of_ne hyphen, continuesName_of_ne hyphen]
  · by_cases hyphen : c = '-'
    · subst hyphen
      rfl
    · rw [List.cons_append, continuesName_of_ne hyphen, continuesName_of_ne hyphen]

theorem nameRest_append_isSpace (cs : List Char) {pad : List Char} (spacing : Blank.IsSpace pad) :
    nameRest (cs ++ pad) = ((nameRest cs).1, (nameRest cs).2 ++ pad) := by
  induction cs with
  | nil =>
    cases pad with
    | nil => rfl
    | cons c pad =>
      have ends : continuesName (c :: pad) = false := continuesName_append [] spacing
      simp [nameRest, ends]
  | cons c cs ih =>
    have same : continuesName (c :: (cs ++ pad)) = continuesName (c :: cs) :=
      continuesName_append (c :: cs) spacing
    rw [List.cons_append, nameRest, nameRest, same, ih]
    split <;> rfl

theorem orderly_identifier : identifier.Orderly := by
  refine (orderly_satisfy isSolid_isNameStart).bind fun first => ⟨fun cs => ?_, ?_⟩
  · exact nameRest_suffix cs
  · intro cs pad spacing
    show Parsed.Padded (.accepted (String.ofList (first :: (nameRest cs).1)) (nameRest cs).2)
      (.accepted (String.ofList (first :: (nameRest (cs ++ pad)).1)) (nameRest (cs ++ pad)).2)
    rw [nameRest_append_isSpace cs spacing]
    exact .accepted _ _ spacing

theorem orderly_keyword {w : String} (solid : IsSolidWord w.toList) : (keyword w).Orderly := by
  refine (orderly_word solid).bind fun _ => ⟨fun cs => ?_, fun cs pad spacing => ?_⟩
  · show Parsed.left (if continuesName cs then .failed cs else .accepted () cs) <:+ cs
    split <;> exact List.suffix_refl cs
  · show Parsed.Padded (if continuesName cs then .failed cs else .accepted () cs)
      (if continuesName (cs ++ pad) then .failed (cs ++ pad) else .accepted () (cs ++ pad))
    rw [continuesName_append cs spacing]
    split
    · exact .failed cs (cs ++ pad)
    · exact .accepted () cs spacing

theorem orderly_pathSegment : pathSegment.Orderly :=
  .choose ⟨orderly_identifier, orderly_digits1.map⟩

theorem orderly_fieldStep : fieldStep.Orderly :=
  (orderly_char (by decide)).bind fun _ => orderly_pathSegment

theorem orderly_comma : comma.Orderly := (orderly_char (by decide)).spaced

theorem orderly_closing {bracket : Char} (solid : Blank.isSpacing bracket = false) :
    (closing bracket).Orderly :=
  orderly_spaces.bind fun _ =>
    ((orderly_char (by decide)).bind fun _ => orderly_spaces).optional.bind fun _ =>
      orderly_char solid

theorem orderly_numberText : numberText.Orderly := by
  have sign : exponentSign.Orderly :=
    .choose ⟨(orderly_char (by decide)).map, (orderly_char (by decide)).map, orderly_pure _⟩
  have letter : IsSolid fun c => c == 'e' || c == 'E' :=
    (isSolid_beq (by decide)).or (isSolid_beq (by decide))
  refine orderly_digits1.bind fun _ => ?_
  refine ((orderly_char (by decide)).bind fun _ => orderly_digits1).optional.bind fun _ => ?_
  refine Orderly.bind (Orderly.optional ?_) fun _ => orderly_pure _
  exact (orderly_satisfy letter).bind fun _ => sign.bind fun _ => orderly_digits1.bind fun _ =>
    orderly_pure _

theorem orderly_number (negative : Bool) : (number negative).Orderly := by
  refine orderly_numberText.bind fun text => ?_
  cases text.literal? negative with
  | none => exact orderly_fail
  | some literal => exact orderly_pure _

/-- The escapes of a string literal. -/
def escape : Parser Char :=
  Parser.choose [
    (fun _ => '"') <$> char '"',
    (fun _ => '\\') <$> char '\\',
    (fun _ => '\n') <$> char 'n',
    (fun _ => '\t') <$> char 't',
    (fun _ => '\r') <$> char 'r']

theorem orderly_escape : escape.Orderly :=
  .choose ⟨(orderly_char (by decide)).map, (orderly_char (by decide)).map,
    (orderly_char (by decide)).map, (orderly_char (by decide)).map, (orderly_char (by decide)).map⟩

theorem stringChar_append {cs rest pad : List Char} {c : Char} (spacing : Blank.IsSpace pad)
    (accepted : stringChar cs = .accepted c rest) :
    ∃ more, Blank.IsSpace more ∧ stringChar (cs ++ pad) = .accepted c (rest ++ more) := by
  have escaped : (char '\\' >>= fun _ => escape).Orderly :=
    (orderly_char (by decide)).bind fun _ => orderly_escape
  rcases choose_cons_eq_iff.mp accepted with first | ⟨other, second⟩
  · have longer := escaped.padded cs spacing
    rw [show (char '\\' >>= fun _ => escape) cs = .accepted c rest from first] at longer
    generalize again : (char '\\' >>= fun _ => escape) (cs ++ pad) = result at longer
    cases longer with
    | @accepted _ _ more spacing =>
      exact ⟨more, spacing, choose_cons_eq_iff.mpr (.inl again)⟩
  · obtain ⟨rfl, plain⟩ := satisfy_eq_iff.mp second
    refine ⟨pad, spacing, choose_cons_eq_iff.mpr (.inr ⟨?_, satisfy_eq_iff.mpr ⟨rfl, plain⟩⟩)⟩
    exact mt (escaped.accepts_append_iff spacing).mp other

theorem accepts_stringChar_of_plain {c : Char} {cs : List Char} (quote : c ≠ '"')
    (backslash : c ≠ '\\') : stringChar.Accepts (c :: cs) := by
  refine accepts_choose_iff.mpr ⟨_, List.mem_cons_of_mem _ List.mem_cons_self, ?_⟩
  refine ⟨c, cs, satisfy_eq_iff.mpr ⟨rfl, ?_⟩⟩
  simpa using ⟨quote, backslash⟩

/-- The characters of a string literal end at the same quote, or spacing behind the text makes no
quote where there is none. -/
theorem many_stringChar_append {cs last pad : List Char} {values : List Char}
    (spacing : Blank.IsSpace pad) (run : many stringChar cs = .accepted values last) :
    (∃ left more, last = '"' :: left ∧ Blank.IsSpace more ∧
      many stringChar (cs ++ pad) = .accepted values (last ++ more)) ∨
    (∀ left, last ≠ '"' :: left) ∧ ∃ values' last', (∀ left, last' ≠ '"' :: left) ∧
      many stringChar (cs ++ pad) = .accepted values' last' := by
  induction values generalizing cs pad with
  | cons c values ih =>
    obtain ⟨rest, first, later⟩ := advances_stringChar.many_eq_cons_iff.mp run
    obtain ⟨more, blank, again⟩ := stringChar_append spacing first
    rcases ih blank later with
      ⟨left, more', quote, blank', onward⟩ | ⟨open_, values', last', onward⟩
    · exact .inl ⟨left, more', quote, blank',
        advances_stringChar.many_eq_cons_iff.mpr ⟨_, again, onward⟩⟩
    · exact .inr ⟨open_, c :: values', last', onward.1,
        advances_stringChar.many_eq_cons_iff.mpr ⟨_, again, onward.2⟩⟩
  | nil =>
    obtain ⟨stops, rfl⟩ := advances_stringChar.many_eq_nil_iff.mp run
    rcases cs with _ | ⟨c, cs⟩
    · -- The text ends inside the literal: the literal takes up the spacing and has no quote still.
      refine .inr ⟨by simp, pad, [], by simp, ?_⟩
      rw [List.nil_append]
      clear run stops
      induction pad with
      | nil => exact many_of_not_accepts advances_stringChar.not_accepts_nil
      | cons c pad ih =>
        obtain ⟨blank, rest⟩ := List.forall_mem_cons.mp spacing
        refine advances_stringChar.many_eq_cons_iff.mpr ⟨pad, ?_, ih rest⟩
        rcases Blank.eq_of_isSpacing blank with rfl | rfl | rfl | rfl <;> rfl
    · by_cases quote : c = '"'
      · subst quote
        have again : ¬stringChar.Accepts ('"' :: (cs ++ pad)) := by
          rintro ⟨_, _, accepted⟩
          cases accepted
        exact .inl ⟨cs, pad, rfl, spacing, many_of_not_accepts again⟩
      · -- Only a backslash that escapes nothing is left.
        have backslash : c = '\\' := by
          by_contra other
          exact stops (accepts_stringChar_of_plain quote other)
        subst backslash
        have unescaped : ¬escape.Accepts cs := by
          rintro ⟨d, rest, accepted⟩
          exact stops ⟨d, rest, choose_cons_eq_iff.mpr (.inl accepted)⟩
        have again : ¬stringChar.Accepts ('\\' :: (cs ++ pad)) := by
          rintro ⟨d, rest, accepted⟩
          rcases choose_cons_eq_iff.mp accepted with first | ⟨-, second⟩
          · exact unescaped ((orderly_escape.accepts_append_iff spacing).mp ⟨d, rest, first⟩)
          · cases second
        exact .inr ⟨by simp, [], _, by simp, many_of_not_accepts again⟩

theorem orderly_stringLiteral : stringLiteral.Orderly := by
  have closes : ∀ s : String, (char '"' >>= fun _ => pure s).Orderly := fun _ =>
    (orderly_char (by decide)).bind fun _ => orderly_pure _
  refine (orderly_char (by decide)).bind fun _ => ⟨fun cs => ?_, fun cs pad spacing => ?_⟩
  · rw [bind_apply]
    obtain ⟨values, last, run⟩ : (many stringChar).Accepts cs := accepts_many
    rw [run]
    exact ((closes _).inside last).trans (advances_stringChar.shrinks.many cs _ _ run)
  · rw [bind_apply, bind_apply]
    obtain ⟨values, last, run⟩ : (many stringChar).Accepts cs := accepts_many
    have unquoted : ∀ {last : List Char} (s : String), (∀ left, last ≠ '"' :: left) →
        ∃ stopped, (char '"' >>= fun _ => pure s) last = .failed stopped := by
      intro last s open_
      refine not_accepts_iff.mp ?_
      rw [accepts_bind_iff]
      rintro ⟨_, left, first, -⟩
      exact open_ left (char_eq_iff.mp first)
    rw [run]
    rcases many_stringChar_append spacing run with
      ⟨left, more, rfl, blank, again⟩ | ⟨open_, values', last', open', again⟩
    · rw [again]
      exact .accepted (String.ofList values) left blank
    · rw [again]
      obtain ⟨stopped, fails⟩ := unquoted (String.ofList values) open_
      obtain ⟨stopped', fails'⟩ := unquoted (String.ofList values') open'
      show Parsed.Padded ((char '"' >>= fun _ => pure _) last)
        ((char '"' >>= fun _ => pure _) last')
      rw [fails, fails']
      exact .failed stopped stopped'

theorem orderly_position : position.Orderly := by
  refine orderly_digits1.bind fun digits => ?_
  simp only
  split
  · exact orderly_pure _
  · exact orderly_fail

theorem orderly_tagName : tagName.Orderly := by
  refine orderly_identifier.bind fun _ => ?_
  refine ((orderly_char (by decide)).bind fun _ => orderly_digits1).optional.bind fun digits => ?_
  cases digits <;> exact orderly_pure _

theorem orderly_reference : reference.Orderly := by
  have tag : (tagName >>= fun name => word [':', ':'] >>= fun _ => pure name).Orderly :=
    orderly_tagName.bind fun _ => (orderly_word (by decide)).bind fun _ => orderly_pure _
  refine tag.optional.bind fun tag => ?_
  refine (orderly_char (by decide)).optional.bind fun absolute => ?_
  refine orderly_identifier.bind fun first => ?_
  split
  · exact orderly_fail
  · exact (orderly_fieldStep.many advances_fieldStep).bind fun _ => orderly_pure _

/-! ### Markers and merge forms -/

theorem orderly_marker : marker.Orderly := by
  refine (orderly_char (by decide)).bind fun _ => orderly_identifier.bind fun name => ?_
  cases MarkerId.ofName? name with
  | none => exact orderly_fail
  | some id =>
    cases id with
    | tag => exact (orderly_char (by decide)).bind fun _ => orderly_tagName.bind fun _ =>
        orderly_pure _
    | _ => exact orderly_pure _

theorem orderly_mergePath : mergePath.Orderly := by
  refine orderly_identifier.bind fun first => ?_
  split
  · exact orderly_fail
  · exact (orderly_fieldStep.many advances_fieldStep).bind fun _ => orderly_pure _

theorem orderly_mergeFlag : mergeFlag.Orderly := by
  have words : (Parser.choose [(fun _ => true) <$> keyword "replace",
      (fun _ => false) <$> keyword "required"]).Advances :=
    .choose (List.forall_mem_cons.mpr ⟨(advances_keyword (by decide)).map,
      List.forall_mem_cons.mpr ⟨(advances_keyword (by decide)).map, by simp⟩⟩)
  refine .spaces1_bind (fun _ => .choose ?_) fun _ => words.not_accepts_nil
  exact ⟨(orderly_keyword (by decide)).map, (orderly_keyword (by decide)).map⟩

theorem orderly_mergeForm : mergeForm.Orderly := by
  refine (orderly_keyword (by decide)).bind fun _ =>
    (orderly_char (by decide)).notFollowedBy.bind fun _ =>
      (orderly_mergeFlag.many advances_mergeFlag).bind fun _ => ?_
  have key : (keyword "on" >>= fun _ => spaces1 >>= fun _ => identifier).Orderly :=
    (orderly_keyword (by decide)).bind fun _ =>
      .spaces1_bind (fun _ => orderly_identifier) fun _ => advances_identifier.not_accepts_nil
  have word : (keyword "on" >>= fun _ => spaces1 >>= fun _ => identifier).Advances :=
    (advances_keyword (by decide)).bind fun _ => advances_spaces1.shrinks.bind fun _ =>
      advances_identifier.shrinks
  refine Orderly.bind (Orderly.optional ?_) fun _ => Orderly.bind (Orderly.optional ?_) fun _ =>
    orderly_pure _
  · exact .spaces1_bind (fun _ => key) fun _ => word.not_accepts_nil
  · exact .spaces1_bind (fun _ => orderly_mergePath) fun _ => advances_mergePath.not_accepts_nil

/-! ### Rules -/

/-- The parsers of nested expressions are orderly. -/
structure Orderly (g : Grammar) : Prop where
  progress : Alike 0 g g
  expression : g.expression.Orderly
  conditional : g.conditional.Orderly
  operand : g.operand.Orderly

namespace Orderly

variable {g : Grammar} (orderly : Orderly g)

include orderly

theorem marked : g.marked.Orderly := by
  have next : (spaces >>= fun _ => marker).Orderly := orderly_spaces.bind fun _ => orderly_marker
  have further : (spaces >>= fun _ => marker).Advances :=
    shrinks_spaces.bind_advances fun _ => advances_marker
  refine orderly_marker.bind fun _ => (next.many further).bind fun _ => ?_
  exact (orderly_spaces.bind fun _ => orderly.expression).optional.bind fun _ => orderly_pure _

theorem parameter : g.parameter.Orderly := by
  refine orderly_identifier.bind fun name => (orderly_word (by decide)).optional.bind
    fun variadic => ?_
  cases variadic with
  | some _ => exact orderly_pure _
  | none =>
    exact ((orderly_char (by decide)).spaced.bind fun _ => orderly.expression).optional.bind
      fun _ => orderly_pure _

theorem lambda : g.lambda.Orderly := by
  have params := orderly.parameter.separated orderly.progress.parameter.advances orderly_comma
  refine ((orderly_keyword (by decide)).bind fun _ => orderly_spaces).optional.bind fun _ => ?_
  refine (orderly_char (by decide)).bind fun _ => orderly_spaces.bind fun _ => params.bind
    fun _ => orderly_spaces.bind fun _ => (orderly_char (by decide)).bind fun _ => ?_
  refine orderly_spaces.bind fun _ => (orderly_word (by decide)).bind fun _ => ?_
  exact orderly_spaces.bind fun _ => orderly.expression.bind fun _ => orderly_pure _

theorem argument : g.argument.Orderly := by
  have assigns : assignment.Orderly := orderly_spaces.bind fun _ => (orderly_char (by decide)).bind
    fun _ => (orderly_char (by decide)).notFollowedBy.bind fun _ => orderly_spaces
  refine .choose ⟨?_, ?_, ?_⟩
  · exact orderly_identifier.bind fun _ => assigns.bind fun _ => orderly.expression.bind fun _ =>
      orderly_pure _
  · exact orderly_position.bind fun _ => assigns.bind fun _ => orderly.expression.bind fun _ =>
      orderly_pure _
  · exact orderly.expression.bind fun _ => (orderly_word (by decide)).optional.bind fun _ =>
      orderly_pure _

theorem arguments : g.arguments.Orderly :=
  (orderly_char (by decide)).bind fun _ => orderly_spaces.bind fun _ =>
    (orderly.argument.separated orderly.progress.argument.advances orderly_comma).bind fun _ =>
      (orderly_closing (by decide)).bind fun _ => orderly_pure _

theorem indexBody : g.indexBody.Orderly := by
  have end_ : (spaces >>= fun _ => char ']').Orderly :=
    orderly_spaces.bind fun _ => orderly_char (by decide)
  refine ((orderly_char (by decide)).bind fun _ => end_.followedBy).optional.bind
    fun projection => ?_
  cases projection with
  | some _ => exact orderly_pure _
  | none =>
    refine orderly.expression.optional.bind fun start => ?_
    refine (orderly_word (by decide)).spaced.optional.bind fun range => ?_
    cases range with
    | some _ => exact orderly.expression.optional.bind fun _ => orderly_pure _
    | none =>
      cases start with
      | some _ => exact orderly_pure _
      | none => exact orderly_fail

theorem indexSuffix : g.indexSuffix.Orderly :=
  (orderly_char (by decide)).bind fun _ => orderly_spaces.bind fun _ =>
    orderly.indexBody.bind fun _ => orderly_spaces.bind fun _ =>
      (orderly_char (by decide)).bind fun _ => orderly_pure _

theorem postfixForm : g.postfixForm.Orderly := by
  refine .choose ⟨orderly.arguments.map, ?_, ?_, orderly_fieldStep.map⟩
  · exact (orderly_char (by decide)).bind fun _ => orderly.arguments.map
  · exact (orderly_char (by decide)).optional.bind fun _ => orderly.indexSuffix

theorem listLiteral : g.listLiteral.Orderly := by
  refine (orderly_char (by decide)).bind fun _ => orderly_spaces.bind fun _ => ?_
  refine orderly.expression.optional.bind fun first => ?_
  cases first with
  | none => exact (orderly_closing (by decide)).bind fun _ => orderly_pure _
  | some first =>
    refine Parser.Orderly.bind ((orderly_word (by decide)).spaced.bind fun _ =>
      orderly.expression.bind fun _ => orderly_spaces.bind fun _ =>
        (orderly_char (by decide)).bind fun _ => orderly_pure _).optional fun range => ?_
    cases range with
    | some stop => exact orderly_pure _
    | none =>
      have next : (comma >>= fun _ => g.expression).Orderly :=
        orderly_comma.bind fun _ => orderly.expression
      have further : (comma >>= fun _ => g.expression).Advances :=
        advances_comma.bind fun _ => orderly.expression.shrinks
      exact (next.many further).bind fun _ => (orderly_closing (by decide)).bind fun _ =>
        orderly_pure _

theorem mapEntry : g.mapEntry.Orderly := by
  have sign : IsSolid fun c => c == '=' || c == ':' :=
    (isSolid_beq (by decide)).or (isSolid_beq (by decide))
  have key : (Parser.choose [stringLiteral, identifier]).Orderly :=
    .choose ⟨orderly_stringLiteral, orderly_identifier⟩
  exact key.bind fun _ => (orderly_satisfy sign).spaced.bind fun _ =>
    orderly.expression.bind fun _ => orderly_pure _

theorem mapLiteral : g.mapLiteral.Orderly :=
  (orderly_char (by decide)).bind fun _ => orderly_spaces.bind fun _ =>
    (orderly.mapEntry.separated orderly.progress.mapEntry.advances orderly_comma).bind fun _ =>
      (orderly_closing (by decide)).bind fun _ => orderly_pure _

theorem group : g.group.Orderly :=
  (orderly_char (by decide)).bind fun _ => orderly_spaces.bind fun _ =>
    orderly.expression.bind fun _ => orderly_spaces.bind fun _ =>
      (orderly_char (by decide)).bind fun _ => orderly_pure _

theorem mergeCall : g.mergeCall.Orderly :=
  (orderly_word (by decide)).bind fun _ => (orderly_char (by decide)).followedBy.bind fun _ =>
    orderly.arguments.bind fun _ => orderly_pure _

theorem primary : g.primary.Orderly :=
  .choose ⟨orderly_number false, orderly_stringLiteral.map, (orderly_keyword (by decide)).map,
    (orderly_keyword (by decide)).map, (orderly_keyword (by decide)).map,
    (orderly_word (by decide)).map, (orderly_char (by decide)).map, orderly.listLiteral,
    orderly.mapLiteral, orderly.group, orderly.mergeCall, orderly_reference.map⟩

theorem chain : g.chain.Orderly := by
  refine orderly.primary.bind fun e => ?_
  split
  · exact orderly_pure _
  · exact (orderly.postfixForm.many orderly.progress.postfixForm.advances).bind fun _ =>
      orderly_pure _

theorem operandRule : g.operandRule.Orderly := by
  refine .choose ⟨?_, ?_, orderly.marked, orderly_mergeForm, (orderly_keyword (by decide)).map, ?_,
    orderly.lambda, ?_, orderly.chain⟩
  · exact (orderly_char (by decide)).bind fun _ => orderly_spaces.bind fun _ => orderly.operand.map
  · exact (orderly_char (by decide)).bind fun _ => orderly.operand.map
  · exact (orderly_keyword (by decide)).bind fun _ => .spaces1_bind
      (fun _ => orderly.operand.map) fun _ => orderly.progress.operand.advances.map.not_accepts_nil
  · exact (orderly_char (by decide)).bind fun _ => orderly_number true

end Orderly

/-! ### Operators -/

section

variable {α : Type} {operand : Parser Expr} {operator : Parser α}

/-- Operands and operators, if an operator with its right operand is orderly. -/
theorem orderly_joined (orderly : operand.Orderly) (operates : operator.Advances)
    (tail : (operator >>= fun op => operand >>= fun e => pure (op, e)).Orderly)
    (join : α → Expr → Expr → Expr) : (joined operand operator join).Orderly := by
  have further : (operator >>= fun op => operand >>= fun e => pure (op, e)).Advances :=
    operates.bind fun _ => orderly.shrinks.bind fun _ => shrinks_pure _
  exact orderly.bind fun _ => (tail.many further).bind fun _ => orderly_pure _

theorem orderly_tail (orderly : operand.Orderly) (operates : operator.Orderly) :
    (operator >>= fun op => operand >>= fun e => pure (op, e)).Orderly :=
  operates.bind fun _ => orderly.bind fun _ => orderly_pure _

end

theorem orderly_productOp : productOp.Orderly :=
  Parser.Orderly.spaced (.choose ⟨(orderly_char (by decide)).map, (orderly_char (by decide)).map,
    (orderly_char (by decide)).map⟩)

theorem orderly_logicWord : logicWord.Orderly :=
  .choose ⟨(orderly_keyword (by decide)).map, (orderly_keyword (by decide)).map⟩

theorem orderly_sumOp : sumOp.Orderly :=
  Parser.Orderly.spaced (.choose ⟨(orderly_char (by decide)).map,
    (orderly_char (by decide)).bind fun _ => orderly_logicWord.notFollowedBy.bind fun _ =>
      orderly_pure _⟩)

theorem orderly_comparisonOp : comparisonOp.Orderly :=
  Parser.Orderly.spaced (.choose ⟨(orderly_word (by decide)).map, (orderly_word (by decide)).map,
    (orderly_word (by decide)).map, (orderly_word (by decide)).map, (orderly_char (by decide)).map,
    (orderly_char (by decide)).map⟩)

/-- The word of a logical operator ends with spacing, so it is orderly only with its operand. -/
theorem orderly_logicTail {operand : Parser Expr} (orderly : operand.Orderly)
    (advances : operand.Advances) :
    (logicOp >>= fun op => operand >>= fun e => pure (op, e)).Orderly := by
  have last : ∀ op : LogicOp, (operand >>= fun e => pure (op, e)).Advances := fun _ =>
    advances.bind fun _ => shrinks_pure _
  have behind : (char '-' >>= fun _ => logicWord >>= fun op => spaces1 >>= fun _ =>
      operand >>= fun e => pure (op, e)).Orderly :=
    (orderly_char (by decide)).bind fun _ => orderly_logicWord.bind fun _ =>
      .spaces1_bind (fun _ => orderly.bind fun _ => orderly_pure _) fun _ =>
        (last _).not_accepts_nil
  have hyphen : (char '-' >>= fun _ => logicWord >>= fun op => spaces1 >>= fun _ =>
      operand >>= fun e => pure (op, e)).Advances :=
    (advances_char '-').bind fun _ => advances_logicWord.shrinks.bind fun _ =>
      advances_spaces1.shrinks.bind fun _ => (last _).shrinks
  have nested : (logicOp >>= fun op => operand >>= fun e => pure (op, e)) = spaces1 >>= fun _ =>
      char '-' >>= fun _ => logicWord >>= fun op => spaces1 >>= fun _ =>
        operand >>= fun e => pure (op, e) := by
    unfold logicOp
    simp only [Parser.bind_assoc]
    rfl
  rw [nested]
  exact .spaces1_bind (fun _ => behind) fun _ => hyphen.not_accepts_nil

namespace Orderly

variable {g : Grammar} (orderly : Orderly g)

include orderly

theorem product : g.product.Orderly :=
  orderly_joined orderly.operandRule advances_productOp
    (orderly_tail orderly.operandRule orderly_productOp) _

theorem sum : g.sum.Orderly :=
  orderly_joined orderly.product advances_sumOp (orderly_tail orderly.product orderly_sumOp) _

theorem comparison : g.comparison.Orderly := by
  refine orderly.sum.bind fun lhs => ?_
  refine (orderly_comparisonOp.bind fun _ => orderly.sum.bind fun _ =>
    orderly_pure _).optional.bind fun rest => ?_
  cases rest <;> exact orderly_pure _

theorem logical : g.logical.Orderly :=
  orderly_joined orderly.comparison advances_logicOp
    (orderly_logicTail orderly.comparison orderly.progress.comparison.advances) _

theorem concatenation : g.concatenation.Orderly := by
  refine orderly_joined orderly.logical advances_spaces1 ?_ _
  have advances : ∀ u : Unit, (g.logical >>= fun e => pure (u, e)).Advances := fun _ =>
    orderly.progress.logical.advances.bind fun _ => shrinks_pure _
  exact .spaces1_bind (fun _ => orderly.logical.bind fun _ => orderly_pure _) fun u =>
    (advances u).not_accepts_nil

theorem conditionalRule : g.conditionalRule.Orderly := by
  refine orderly.concatenation.bind fun condition => ?_
  refine Parser.Orderly.bind ((orderly_char (by decide)).spaced.bind fun _ =>
    orderly.expression.bind fun _ => (orderly_char (by decide)).spaced.bind fun _ =>
      orderly.conditional.bind fun _ => orderly_pure _).optional fun branches => ?_
  cases branches <;> exact orderly_pure _

theorem fallback : g.fallback.Orderly :=
  orderly_joined orderly.conditionalRule (advances_word (by decide)).spaced
    (orderly_tail orderly.conditionalRule (orderly_word (by decide)).spaced) _

end Orderly

theorem orderly_ofDepth (depth : Nat) : Orderly (ofDepth depth) := by
  induction depth with
  | zero => exact ⟨alike_ofDepth (Nat.le_refl 0), orderly_fail, orderly_fail, orderly_fail⟩
  | succ depth ih =>
    have progress := alike_ofDepth (Nat.le_refl (depth + 1))
    have lower := Nat.zero_le (depth + 1)
    exact ⟨⟨progress.expression.mono lower, progress.conditional.mono lower,
      progress.operand.mono lower⟩, ih.fallback, ih.conditionalRule, ih.operandRule⟩

/-- On a text and with spacing behind it, the grammar is one of a depth above both lengths. -/
theorem orderly_full : full.expression.Orderly where
  inside cs := by
    rw [← (alike_full (cs.length + 1)).expression.same cs (Nat.lt_succ_self _)]
    exact (orderly_ofDepth _).expression.inside cs
  padded := by
    intro cs pad spacing
    have deep := (alike_full ((cs ++ pad).length + 1)).expression.same
    rw [← deep cs (by simp), ← deep (cs ++ pad) (Nat.lt_succ_self _)]
    exact (orderly_ofDepth _).expression.padded cs spacing

end Grammar

end Cascade
