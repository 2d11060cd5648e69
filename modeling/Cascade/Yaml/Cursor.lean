/-!
# Places in a YAML text

Before a text is read, its line breaks are made alike and characters that no YAML text may hold are
refused. Reading then moves a cursor over the text, which knows its line and its column, because
columns carry the structure of block collections.

## Main definitions

* `Yaml.readable?`: the characters of a text, if all of them are allowed.
* `Yaml.Cursor` with `advance`, `newline`, `gap`.
* `Yaml.Gap`, `Yaml.Gap.fold`: blanks and line breaks inside a scalar.
-/

namespace Cascade.Yaml

/-- A line break, once carriage returns and next-line characters have become line feeds. -/
def isBreak (c : Char) : Bool := c == '\n' || c == '\u2028' || c == '\u2029'

/-- A space or a tab. -/
def isGap (c : Char) : Bool := c == ' ' || c == '\t'

/-- A letter, a digit, `_` or `-`. -/
def isWordChar (c : Char) : Bool := c.isAlphanum || c == '_' || c == '-'

/-- A blank, a line break or the end of the text. -/
def endsWord : List Char → Bool
  | [] => true
  | c :: _ => isGap c || isBreak c

/-- Characters that a text may hold. -/
def isAllowed (c : Char) : Bool :=
  let n := c.toNat
  n == 9 || n == 10 || n == 13 || (0x20 ≤ n && n ≤ 0x7E) || n == 0x85 || (0xA0 ≤ n && n ≤ 0xD7FF) ||
    (0xE000 ≤ n && n ≤ 0xFFFD && n != 0xFEFF) || 0x10000 ≤ n

/-- Line breaks of any of the common forms as line feeds. -/
def unifyBreaks : List Char → List Char
  | [] => []
  | '\r' :: '\n' :: rest => '\n' :: unifyBreaks rest
  | '\r' :: rest => '\n' :: unifyBreaks rest
  | c :: rest => (if c == '\u0085' then '\n' else c) :: unifyBreaks rest

/-- A text without the byte order mark in front of it. -/
def withoutMark : List Char → List Char
  | [] => []
  | c :: rest => if c == '\ufeff' then rest else c :: rest

/-- The characters of a text with unified line breaks; none if one of them is not allowed. -/
def readable? (text : String) : Option (List Char) :=
  let cs := withoutMark text.toList
  if cs.all isAllowed then some (unifyBreaks cs) else none

/-- A place in a text. -/
structure Cursor where
  /-- The text from here on. -/
  rest : List Char
  /-- How many characters are before the place. -/
  index : Nat := 0
  line : Nat := 0
  column : Nat := 0

namespace Cursor

/-- The place after a number of characters of the line. -/
def advance (c : Cursor) (count : Nat) : Cursor :=
  { c with rest := c.rest.drop count, index := c.index + count, column := c.column + count }

/-- The place after a line break. -/
def newline (c : Cursor) : Cursor :=
  { rest := c.rest.drop 1, index := c.index + 1, line := c.line + 1, column := 0 }

/-- The place after a line break, if there is one here. -/
def skipBreak (c : Cursor) : Cursor :=
  match c.rest with
  | char :: _ => if isBreak char then c.newline else c
  | [] => c

/-- The characters of a class from here on, and the place after them. No line break is in the
class. -/
def span (c : Cursor) (p : Char → Bool) : List Char × Cursor :=
  let taken := c.rest.takeWhile p
  (taken, c.advance taken.length)

/-- The place after the characters of a class. -/
def skip (c : Cursor) (p : Char → Bool) : Cursor := (c.span p).2

/-- The character a number of places ahead. -/
def peek (c : Cursor) (ahead : Nat) : Option Char := c.rest[ahead]?

/-- A mark of three characters in front of a word end, at the start of a line. -/
def atMark (c : Cursor) (mark : List Char) : Bool :=
  c.column == 0 && mark.isPrefixOf c.rest && endsWord (c.rest.drop mark.length)

/-- The mark that starts a document. -/
def atDocumentStart (c : Cursor) : Bool := c.atMark ['-', '-', '-']

/-- The mark that ends a document. -/
def atDocumentEnd (c : Cursor) : Bool := c.atMark ['.', '.', '.']

/-- One of the marks that separate documents. -/
def atDocumentMark (c : Cursor) : Bool := c.atDocumentStart || c.atDocumentEnd

end Cursor

/-! ### Gaps -/

/-- Blanks and line breaks inside a scalar. -/
structure Gap where
  /-- The blanks before the first line break. -/
  blanks : List Char := []
  /-- The line breaks. -/
  breaks : List Char := []
  /-- The blanks of the lines after each line break. -/
  margins : List (List Char) := []

namespace Gap

/-- The lines of a text of blanks and line breaks. -/
def ofChars : List Char → Gap
  | [] => {}
  | c :: rest =>
    let gap := ofChars rest
    if isBreak c then ⟨[], c :: gap.breaks, gap.blanks :: gap.margins⟩
    else { gap with blanks := c :: gap.blanks }

/-- Nothing is in the gap. -/
def isEmpty (g : Gap) : Bool := g.blanks.isEmpty && g.breaks.isEmpty

/-- What the gap stands for: its blanks, or, of its line breaks, all but the first one. A first line
break alone is a space; a separator of lines or paragraphs is kept. -/
def fold (g : Gap) : List Char :=
  match g.breaks with
  | [] => g.blanks
  | '\n' :: [] => [' ']
  | '\n' :: others => others
  | breaks => breaks

/-- A tab stands before a column on one of the lines that the gap enters. -/
def hasTabBefore (g : Gap) (column : Nat) : Bool :=
  g.margins.any fun margin => (margin.take column).contains '\t'

end Gap

/-- The gap from a place on, and the place after it. -/
def Cursor.gap (c : Cursor) : Gap × Cursor :=
  let taken := c.rest.takeWhile fun char => isGap char || isBreak char
  let gap := Gap.ofChars taken
  let column := match gap.margins.getLast? with
    | some margin => margin.length
    | none => c.column + taken.length
  (gap,
    { rest := c.rest.drop taken.length
      index := c.index + taken.length
      line := c.line + gap.breaks.length
      column })

end Cascade.Yaml
