/-!
# Parts of a text

Splitting at a separator, from the left and without overlap, and searching a text for another.

## Main definitions

* `Text.split`, `Text.splitOn`, `Text.containsText`.
-/

namespace Cascade.Text

/-- The parts of a text between separators. `skip` characters still belong to a separator; `part` is
the current part in reverse. -/
def split (separator : List Char) : Nat → List Char → List Char → List (List Char)
  | _, part, [] => [part.reverse]
  | skip + 1, part, _ :: rest => split separator skip part rest
  | 0, part, c :: rest =>
    if separator.isPrefixOf (c :: rest) then
      part.reverse :: split separator (separator.length - 1) [] rest
    else split separator 0 (c :: part) rest

/-- The parts of a text between separators, which are not empty. -/
def splitOn (separator text : String) : List String :=
  (split separator.toList 0 [] text.toList).map String.ofList

/-- The first text occurs in the second. -/
def containsChars (inner : List Char) : List Char → Bool
  | [] => inner.isEmpty
  | c :: rest => inner.isPrefixOf (c :: rest) || containsChars inner rest

/-- The second text occurs in the first. -/
def containsText (text inner : String) : Bool :=
  containsChars inner.toList text.toList

end Cascade.Text
