import Cascade.Proofs.OrderlyGrammar
import Cascade.Proofs.RoundTrip

/-!
# Where a text is rejected

Every error of reading an expression points at a place of the text. Wherever the last alternative of
the grammar stopped, it stopped inside the text, and the place is counted from the part of the text
before it. A text that is accepted stays so with spacing at either end.

## Main definitions

* `ParseError.IsLocated`: what an error tells about its place.

## Main statements

* `Expr.parse_located`: errors are located, and spacing around an expression does not matter.
-/

namespace Cascade

/-! ### Places -/

theorem byteLength_append (cs ds : List Char) :
    byteLength (cs ++ ds) = byteLength cs + byteLength ds := by
  induction cs with
  | nil => exact (Nat.zero_add _).symm
  | cons c cs ih =>
    show c.utf8Size + byteLength (cs ++ ds) = c.utf8Size + byteLength cs + byteLength ds
    rw [ih, Nat.add_assoc]

theorem byteLength_reverse (cs : List Char) : byteLength cs.reverse = byteLength cs := by
  induction cs with
  | nil => rfl
  | cons c cs ih =>
    rw [List.reverse_cons, byteLength_append, ih, Nat.add_comm]
    rfl

theorem byteLength_toList (s : String) : byteLength s.toList = s.utf8ByteSize := by
  suffices each : ∀ cs : List Char, byteLength cs = (String.ofList cs).utf8ByteSize by
    rw [each, String.ofList_toList]
  intro cs
  induction cs with
  | nil => rfl
  | cons c cs ih =>
    have parts : String.ofList (c :: cs) = String.singleton c ++ String.ofList cs := by
      rw [← String.toList_inj]
      simp
    rw [parts, String.utf8ByteSize_append, String.utf8ByteSize_singleton, ← ih]
    rfl

/-- An error points at a position of the text. Its line is one more than the line feeds before the
position, its column one more than the bytes since the last of them. It tells of a missing end
exactly at the end of the text, and otherwise of the character at the position. -/
structure ParseError.IsLocated (error : ParseError) {text : String} (p : text.Pos)
    (before rest : String) : Prop where
  splits : p.Splits before rest
  line : error.place.line = before.toList.count '\n' + 1
  column : ∃ lines last, before = lines ++ last ∧ (lines = "" ∨ ∃ line, lines = line ++ "\n") ∧
    '\n' ∉ last.toList ∧ error.place.column = last.utf8ByteSize + 1
  atEnd : error.cause = .endOfInput ↔ p = text.endPos
  unexpected : ∀ c, error.cause = .unexpected c → ∃ inside, p.get inside = c
  missing : error.cause = .missingExpression → ∃ inside, Blank.isBlank (p.get inside) = false

/-- The part of a text since its last line feed. -/
theorem exists_lastLine (cs : List Char) : ∃ lines last, cs = lines ++ last ∧
    (lines = [] ∨ ∃ line, lines = line ++ ['\n']) ∧ '\n' ∉ last ∧
      last.reverse = cs.reverse.takeWhile (· != '\n') := by
  refine ⟨(cs.reverse.dropWhile (· != '\n')).reverse, (cs.reverse.takeWhile (· != '\n')).reverse,
    ?_, ?_, ?_, List.reverse_reverse _⟩
  · rw [← List.reverse_append, List.takeWhile_append_dropWhile, List.reverse_reverse]
  · cases left : cs.reverse.dropWhile (· != '\n') with
    | nil => exact .inl rfl
    | cons c rest =>
      have feed := List.head_dropWhile_not (· != '\n') (l := cs.reverse)
        (by rw [left]; exact List.cons_ne_nil _ _)
      simp only [left, List.head_cons, bne_eq_false_iff_eq] at feed
      exact .inr ⟨rest.reverse, by rw [List.reverse_cons, feed]⟩
  · intro member
    have other := List.mem_takeWhile_imp (List.mem_reverse.mp member)
    simp at other

/-- A split of the text is a position of it. -/
theorem exists_pos_of_append {text : String} {before rest : List Char}
    (split : text.toList = before ++ rest) :
    ∃ p : text.Pos, p.Splits (String.ofList before) (String.ofList rest) := by
  have whole : text = String.ofList before ++ String.ofList rest := by
    rw [← String.toList_inj, String.toList_append, String.toList_ofList, String.toList_ofList,
      split]
  refine ⟨⟨(String.ofList before).rawEndPos, ?_⟩, whole, rfl⟩
  exact String.Pos.Raw.isValid_iff_exists_append.mpr ⟨_, _, whole, rfl⟩

/-- The character at a position is the first one behind it. -/
theorem exists_get_of_splits {text before : String} {p : text.Pos} {c : Char} {rest : List Char}
    (splits : p.Splits before (String.ofList (c :: rest))) : ∃ inside, p.get inside = c := by
  have parts : String.ofList (c :: rest) = String.singleton c ++ String.ofList rest := by
    rw [← String.toList_inj]
    simp
  rw [parts] at splits
  exact ⟨splits.ne_endPos_of_singleton, splits.next.get_eq_of_singleton⟩

namespace Expr

open Grammar Cascade.Parser

/-- An error at the start of the last part of a text is located there. -/
theorem isLocated_of_suffix {text : String} {cause : ParseCause} {rest : List Char}
    (inside : rest <:+ text.toList) (atEnd : cause = .endOfInput ↔ rest = [])
    (unexpected : ∀ c, cause = .unexpected c → ∃ more, rest = c :: more)
    (missing : cause = .missingExpression →
      ∃ c more, rest = c :: more ∧ Blank.isBlank c = false) :
    ∃ (p : text.Pos) (before after : String),
      (ParseError.mk cause (.ofRest text.toList rest)).IsLocated p before after := by
  obtain ⟨consumed, split⟩ := inside
  obtain ⟨p, splits⟩ := exists_pos_of_append split.symm
  have place : Place.ofRest text.toList rest = Place.after consumed := by
    unfold Place.ofRest
    rw [← split, List.length_append, Nat.add_sub_cancel, List.take_left]
  refine ⟨p, String.ofList consumed, String.ofList rest, splits, ?_, ?_, ?_, ?_, ?_⟩
  · show (Place.ofRest text.toList rest).line = _
    rw [place, String.toList_ofList]
    rfl
  · obtain ⟨lines, last, parts, feed, unbroken, reversed⟩ := exists_lastLine consumed
    refine ⟨String.ofList lines, String.ofList last, ?_, ?_, ?_, ?_⟩
    · rw [parts, String.ofList_append]
    · rcases feed with rfl | ⟨line, rfl⟩
      · exact .inl rfl
      · exact .inr ⟨String.ofList line, String.ofList_append⟩
    · rwa [String.toList_ofList]
    · show (Place.ofRest text.toList rest).column = _
      rw [place, ← byteLength_toList, String.toList_ofList, ← byteLength_reverse last, reversed]
      rfl
  · rw [splits.eq_endPos_iff, String.ofList_eq_empty_iff]
    exact atEnd
  · intro c same
    obtain ⟨more, rfl⟩ := unexpected c same
    exact exists_get_of_splits splits
  · intro same
    obtain ⟨c, more, rfl, solid⟩ := missing same
    obtain ⟨inside, here⟩ := exists_get_of_splits splits
    exact ⟨inside, by rw [here, solid]⟩

/-- Errors are located. -/
theorem exists_isLocated {text : String} {error : ParseError}
    (rejected : parse text = .error error) :
    ∃ (p : text.Pos) (before after : String), error.IsLocated p before after := by
  have inside := (orderly_ofDepth (text.toList.length + 1)).expression.spaced.inside text.toList
  unfold parse parseChars whole at rejected
  generalize spaced (ofDepth (text.toList.length + 1)).expression text.toList = result
    at inside rejected
  cases result with
  | accepted e rest =>
    cases rest with
    | nil => cases rejected
    | cons c rest =>
      cases rejected
      refine isLocated_of_suffix inside ?_ ?_ ?_
      · simp
      · rintro c' ⟨⟩
        exact ⟨rest, rfl⟩
      · rintro ⟨⟩
  | failed stopped =>
    cases rejected
    -- Blanks are skipped after a failure, those too that do not separate the parts of expressions.
    have left : stopped.dropWhile Blank.isBlank <:+ text.toList :=
      (List.dropWhile_suffix _).trans inside
    unfold Blank.dropLeading
    cases rest : stopped.dropWhile Blank.isBlank with
    | nil =>
      rw [rest] at left
      exact isLocated_of_suffix left (by simp) (by rintro c ⟨⟩) (by rintro ⟨⟩)
    | cons c more =>
      have solid := List.head_dropWhile_not Blank.isBlank (l := stopped)
        (by rw [rest]; exact List.cons_ne_nil _ _)
      simp only [rest, List.head_cons] at solid
      rw [rest] at left
      exact isLocated_of_suffix left (by simp) (by rintro c ⟨⟩) fun _ => ⟨c, more, rfl, solid⟩

/-- Spacing around an expression does not matter. -/
theorem parseChars_spaced {text before after : List Char} {e : Expr}
    (accepted : parseChars text = .ok e) (leading : Blank.IsSpace before)
    (trailing : Blank.IsSpace after) : parseChars (before ++ text ++ after) = .ok e := by
  obtain ⟨left, inner, last⟩ := parseChars_eq_ok_iff.mp accepted
  obtain ⟨more, spacing, start⟩ := exists_dropWhile_append text trailing
  have skip : (before ++ text ++ after).dropWhile Blank.isSpacing =
      text.dropWhile Blank.isSpacing ++ more := by
    rw [List.append_assoc, List.dropWhile_append, List.dropWhile_eq_nil_iff.mpr leading, start]
    rfl
  refine parseChars_eq_ok_iff.mpr ?_
  rw [skip]
  have padded := orderly_full.padded (text.dropWhile Blank.isSpacing) spacing
  rw [inner] at padded
  generalize full.expression (text.dropWhile Blank.isSpacing ++ more) = result at padded ⊢
  cases padded with
  | accepted e left blank =>
    refine ⟨_, rfl, ?_⟩
    rw [List.dropWhile_append, last]
    exact List.dropWhile_eq_nil_iff.mpr blank

/-- A rejected text has a position that the error points at, and a text that is accepted is accepted
as the same expression with spacing at its ends. -/
theorem parse_located (text : String) :
    (∀ error, parse text = .error error →
      ∃ (p : text.Pos) (before after : String), error.IsLocated p before after) ∧
    ∀ e, parse text = .ok e → ∀ before after : String, Blank.IsSpace before.toList →
      Blank.IsSpace after.toList → parse (before ++ text ++ after) = .ok e := by
  refine ⟨fun error => exists_isLocated, fun e accepted before after leading trailing => ?_⟩
  unfold parse
  rw [String.toList_append, String.toList_append]
  exact parseChars_spaced accepted leading trailing

/-- A bracket behind a string literal that spans two lines and ends with a letter of two bytes, and
a text of spacing. -/
theorem parse_located_brokenLine :
    parse "\"\né\" )" = .error ⟨.unexpected ')', ⟨2, 5⟩⟩ ∧
      (∃ (p : ("\"\né\" )").Pos) (before after : String),
        (ParseError.mk (.unexpected ')') ⟨2, 5⟩).IsLocated p before after) ∧
      parse " \n" = .error ⟨.endOfInput, ⟨2, 1⟩⟩ ∧
      (∃ (p : (" \n").Pos) (before after : String),
        (ParseError.mk .endOfInput ⟨2, 1⟩).IsLocated p before after) ∧
      parse "merge on x" = .ok (.merge ⟨none, false, false, some "x"⟩) ∧
      Blank.IsSpace " \t".toList ∧ Blank.IsSpace "\r\n".toList ∧
      parse (" \t" ++ "merge on x" ++ "\r\n") = .ok (.merge ⟨none, false, false, some "x"⟩) := by
  have bracket : parse "\"\né\" )" = .error ⟨.unexpected ')', ⟨2, 5⟩⟩ := by cbv
  have blank : parse " \n" = .error ⟨.endOfInput, ⟨2, 1⟩⟩ := by cbv
  have accepted : parse "merge on x" = .ok (.merge ⟨none, false, false, some "x"⟩) := by cbv
  have leading : Blank.IsSpace " \t".toList := by simp [Blank.IsSpace, Blank.isSpacing]
  have trailing : Blank.IsSpace "\r\n".toList := by simp [Blank.IsSpace, Blank.isSpacing]
  exact ⟨bracket, (parse_located _).1 _ bracket, blank, (parse_located _).1 _ blank, accepted,
    leading, trailing, (parse_located _).2 _ accepted _ _ leading trailing⟩

end Expr

end Cascade
