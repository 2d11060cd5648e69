import Cascade.Expr.Parser

/-!
# Embedded strings

When a string of a document stands in the brackets of an expression, and what it is then.

## Main statements

* `Embedded.inner?_eq_some_iff`: what stands between the brackets.
* `Embedded.isUnread_iff_classify`: a string is unread if it holds an expression, readable or not.
-/

namespace Cascade

theorem Embedded.exists_inside {trimmed : List Char} (opens : ['(', '('] <+: trimmed)
    (closes : [')', ')'] <+: trimmed.reverse) :
    ∃ inside, trimmed = ['(', '('] ++ inside ++ [')', ')'] := by
  obtain ⟨rest, rfl⟩ := opens
  obtain ⟨back, rfl⟩ : ∃ back : List Char, rest = back.reverse := ⟨rest.reverse, by simp⟩
  rcases back with _ | ⟨c, _ | ⟨d, inner⟩⟩
  · simp at closes
  · simp at closes
  · have shape : (['(', '('] ++ (c :: d :: inner).reverse).reverse =
        c :: d :: (inner ++ ['(', '(']) := by simp
    rw [shape, List.cons_prefix_cons, List.cons_prefix_cons] at closes
    obtain ⟨rfl, rfl, -⟩ := closes
    exact ⟨inner.reverse, by simp⟩

/-- A string is embedded if, but for blanks around it, it is its inside between the brackets. -/
theorem Embedded.inner?_eq_some_iff {text : String} {inside : List Char} :
    Embedded.inner? text = some inside ↔
      Blank.strip Blank.isBlank text.toList = ['(', '('] ++ inside ++ [')', ')'] := by
  unfold Embedded.inner?
  generalize Blank.strip Blank.isBlank text.toList = trimmed
  constructor
  · intro found
    split at found
    · next rest =>
      split at found
      · next inner ends =>
        cases found
        rw [← List.reverse_reverse rest, ends]
        simp
      · cases found
    · cases found
  · rintro rfl
    simp

/-- A string is unread if it stands in brackets and is not escaped. -/
theorem Embedded.isUnread_iff {text : String} : Embedded.isUnread text = true ↔
    ∃ inside, Embedded.inner? text = some inside ∧ ∀ rest, inside ≠ '!' :: rest := by
  simp only [Embedded.inner?_eq_some_iff]
  unfold Embedded.isUnread
  simp only [Bool.and_eq_true, Bool.not_eq_true', List.isPrefixOf_iff_prefix, and_assoc]
  generalize Blank.strip Blank.isBlank text.toList = trimmed
  constructor
  · rintro ⟨opens, closes, bang⟩
    obtain ⟨inside, rfl⟩ := Embedded.exists_inside opens closes
    refine ⟨inside, rfl, ?_⟩
    rintro rest rfl
    simp [List.isPrefixOf] at bang
  · rintro ⟨inside, rfl, bang⟩
    refine ⟨by simp, by simp, ?_⟩
    rcases inside with _ | ⟨c, rest⟩
    · rfl
    · have other : c ≠ '!' := fun same => bang rest (by rw [same])
      simp [List.isPrefixOf, Ne.symm other]

/-- What is unread holds an expression, readable or not. -/
theorem Embedded.isUnread_iff_classify {text : String} : Embedded.isUnread text = true ↔
    (∃ e, Embedded.classify text = .expression e) ∨
      ∃ problem, Embedded.classify text = .broken problem := by
  rw [Embedded.isUnread_iff]
  unfold Embedded.classify
  cases Embedded.inner? text with
  | none => simp
  | some inside =>
    by_cases bang : ∃ rest, inside = '!' :: rest
    · obtain ⟨rest, rfl⟩ := bang
      simp
    · have read : ∀ rest, inside ≠ '!' :: rest := fun rest same => bang ⟨rest, same⟩
      simp only [Option.some.injEq, exists_eq_left']
      cases Expr.parseChars inside <;> simp [read]

end Cascade
