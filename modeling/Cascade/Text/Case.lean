import Cascade.Text.CaseTable

/-!
# Upper and lower case

Case mappings of whole texts. A character may map to several (`ß` has the upper case `SS`), and a
capital sigma at the end of a word has the lower case `ς` instead of `σ`.

## Main definitions

* `LetterCase.upper`, `LetterCase.lower`: the mapped text.
-/

namespace Cascade.LetterCase

/-- The mapping of a code point by a table of ranges. -/
def byRange (table : Array (Nat × Nat × Nat × Int)) (n : Nat) : Nat :=
  match table.find? fun (first, last, step, _) =>
      first ≤ n && n ≤ last && (n - first) % step == 0 with
  | some (_, _, _, offset) => ((n : Int) + offset).toNat
  | none => n

/-- The mapping of a character by a table of ranges and a list of expansions. -/
def mapChar (table : Array (Nat × Nat × Nat × Int)) (expansions : List (Nat × List Nat))
    (c : Char) :
    List Char :=
  match expansions.lookup c.toNat with
  | some several => several.map Char.ofNat
  | none => [Char.ofNat (byRange table c.toNat)]

/-- The upper case of a character. -/
def upperChar (c : Char) : List Char :=
  if c.toNat < 128 then [c.toUpper] else mapChar CaseTable.upper CaseTable.upperExpansions c

/-- The lower case of a character, whatever stands around it. -/
def lowerChar (c : Char) : List Char :=
  if c.toNat < 128 then [c.toLower] else mapChar CaseTable.lower CaseTable.lowerExpansions c

/-- The code point lies in one of the ranges. -/
def inRanges (table : Array (Nat × Nat)) (c : Char) : Bool :=
  table.any fun (first, last) => first ≤ c.toNat && c.toNat ≤ last

/-- After characters that do not count, a letter with a case follows. -/
def meetsLetter (cs : List Char) : Bool :=
  match cs.dropWhile (inRanges CaseTable.ignorable) with
  | c :: _ => inRanges CaseTable.cased c
  | [] => false

/-- The lower case of the characters that follow `before`, which is kept in reverse. -/
def lowerFrom (before : List Char) : List Char → List Char
  | [] => []
  | c :: rest =>
    let mapped :=
      if c == 'Σ' then [if meetsLetter before && !meetsLetter rest then 'ς' else 'σ']
      else lowerChar c
    mapped ++ lowerFrom (c :: before) rest

/-- The text in upper case. -/
def upper (s : String) : String :=
  String.ofList (s.toList.flatMap upperChar)

/-- The text in lower case. -/
def lower (s : String) : String :=
  String.ofList (lowerFrom [] s.toList)

end Cascade.LetterCase
