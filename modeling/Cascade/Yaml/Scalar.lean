import Cascade.Yaml.Cursor

/-!
# The texts of YAML scalars

A scalar is written plain, in single or double quotes, or as a block. Inside plain and quoted
scalars a line break counts as a space and further ones as themselves; a block keeps its lines or
folds them. Each reader returns the text and the place after it, or nothing if the scalar is
malformed.

The argument `fuel` bounds the number of runs and lines of one scalar; the number of characters of
the text is enough.

## Main definitions

* `Yaml.readPlain`, `Yaml.readSingleQuoted`, `Yaml.readDoubleQuoted`, `Yaml.readBlock`.
-/

namespace Cascade.Yaml

/-! ### Plain scalars -/

/-- Indicators that end a plain scalar inside flow collections. -/
def isFlowIndicator (c : Char) : Bool :=
  c == ',' || c == '[' || c == ']' || c == '{' || c == '}'

/-- The characters of a plain scalar up to the next gap or the indicator that ends it. Inside flow
collections a colon must not touch an indicator. -/
def plainRun (inFlow : Bool) : List Char → Option (List Char)
  | [] => some []
  | c :: rest =>
    if isGap c || isBreak c then some []
    else if
        inFlow && c == ':' && (rest.head?).any fun next => isFlowIndicator next || next == '?'
      then none
    else if c == ':' && endsWord rest || inFlow && isFlowIndicator c then some []
    else (plainRun inFlow rest).map (c :: ·)

/-- The text of a plain scalar, the place after it, and whether the place is on a later line than
the text. -/
structure PlainScalar where
  text : List Char
  after : Cursor
  entersLine : Bool

/-- Reads a plain scalar on from a gap. Lines that are indented by less than `least` end it outside
flow collections. -/
def plainFrom (inFlow : Bool) (least : Nat) : (fuel : Nat) → Cursor → Gap → Option PlainScalar
  | 0, c, gap => some ⟨[], c, !gap.breaks.isEmpty⟩
  | fuel + 1, c, gap => do
    if c.atDocumentMark || c.peek 0 == some '#' then return ⟨[], c, !gap.breaks.isEmpty⟩
    let run ← plainRun inFlow c.rest
    if run.isEmpty then return ⟨[], c, !gap.breaks.isEmpty⟩
    let (next, after) := (c.advance run.length).gap
    if next.hasTabBefore least then none
    else if next.isEmpty || (!inFlow && after.column < least) then
      return ⟨gap.fold ++ run, after, !next.breaks.isEmpty⟩
    else
      let rest ← plainFrom inFlow least fuel after next
      return { rest with text := gap.fold ++ run ++ rest.text }

/-- Reads a plain scalar. -/
def readPlain (fuel : Nat) (inFlow : Bool) (least : Nat) (c : Cursor) : Option PlainScalar :=
  plainFrom inFlow least fuel c {}

/-! ### Quoted scalars -/

/-- Characters of a quoted scalar, and how many characters they are written with. -/
structure Run where
  taken : List Char := []
  length : Nat := 0

/-- The run with a character in front that is written with a number of characters. -/
def Run.push (r : Run) (c : Char) (length : Nat) : Run := ⟨c :: r.taken, r.length + length⟩

/-- The characters of a scalar in single quotes up to a gap or the closing quote. -/
def singleRun : List Char → Run
  | [] => {}
  | '\'' :: '\'' :: rest => (singleRun rest).push '\'' 2
  | '\'' :: _ => {}
  | c :: rest => if isGap c || isBreak c then {} else (singleRun rest).push c 1

/-- The character that a letter after a backslash stands for. -/
def escapeOf? : Char → Option Char
  | '0' => some '\x00'
  | 'a' => some '\x07'
  | 'b' => some '\x08'
  | 't' => some '\t'
  | '\t' => some '\t'
  | 'n' => some '\n'
  | 'v' => some '\x0b'
  | 'f' => some '\x0c'
  | 'r' => some '\r'
  | 'e' => some '\x1b'
  | ' ' => some ' '
  | '"' => some '"'
  | '/' => some '/'
  | '\\' => some '\\'
  | 'N' => some '\u0085'
  | '_' => some '\u00a0'
  | 'L' => some '\u2028'
  | 'P' => some '\u2029'
  | _ => none

/-- The number of digits of a character code after a backslash and a letter. -/
def codeLength? : Char → Option Nat
  | 'x' => some 2
  | 'u' => some 4
  | 'U' => some 8
  | _ => none

/-- The value of a hexadecimal digit. -/
def hexDigit? (c : Char) : Option Nat :=
  if c.isDigit then some (c.toNat - '0'.toNat)
  else if 'a' ≤ c ∧ c ≤ 'f' then some (c.toNat - 'a'.toNat + 10)
  else if 'A' ≤ c ∧ c ≤ 'F' then some (c.toNat - 'A'.toNat + 10)
  else none

/-- The number of hexadecimal digits. -/
def hexNumber? (cs : List Char) : Option Nat :=
  cs.foldlM (fun n c => (hexDigit? c).map fun digit => n * 16 + digit) 0

/-- The character of a code, which is no surrogate. -/
def charOfCode? (n : Nat) : Option Char :=
  if n.isValidChar then some (Char.ofNat n) else none

/-- The character that an escape stands for, and how many characters the escape has. -/
def readEscape : List Char → Option (Char × Nat)
  | '\\' :: c :: rest =>
    match escapeOf? c, codeLength? c with
    | some char, _ => some (char, 2)
    | none, some count => do
      let digits := rest.take count
      if digits.length < count then none
      else return (← charOfCode? (← hexNumber? digits), count + 2)
    | none, none => none
  | _ => none

/-- An escaped line break starts here. -/
def escapesBreak : List Char → Bool
  | '\\' :: c :: _ => isBreak c
  | _ => false

/-- The characters of a scalar in double quotes up to a gap, an escaped line break or the closing
quote. -/
def doubleRun : (fuel : Nat) → List Char → Option Run
  | 0, _ => some {}
  | _, [] => some {}
  | fuel + 1, c :: rest => do
    if c == '"' || isGap c || isBreak c || escapesBreak (c :: rest) then return {}
    else if c == '\\' then
      let (char, length) ← readEscape (c :: rest)
      return (← doubleRun fuel ((c :: rest).drop length)).push char length
    else return (← doubleRun fuel rest).push c 1

/-- Reads the rest of a quoted scalar, given how its runs are read. -/
def quotedFrom (quote : Char) (run : List Char → Option Run) :
    (fuel : Nat) → Cursor → Option (List Char × Cursor)
  | 0, _ => none
  | fuel + 1, c => do
    if c.atDocumentMark || c.rest.isEmpty then none
    else
      let part ← run c.rest
      let after := c.advance part.length
      if after.peek 0 == some quote then return (part.taken, after.advance 1)
      else if quote == '"' && escapesBreak after.rest then
        -- An escaped line break joins the lines; only further line breaks count.
        let (gap, next) := (after.advance 1).newline.gap
        let (text, last) ← quotedFrom quote run fuel next
        return (part.taken ++ gap.breaks ++ text, last)
      else
        let (gap, next) := after.gap
        let (text, last) ← quotedFrom quote run fuel next
        return (part.taken ++ gap.fold ++ text, last)

/-- Reads a scalar in single quotes, from the quote on. -/
def readSingleQuoted (fuel : Nat) (c : Cursor) : Option (List Char × Cursor) :=
  quotedFrom '\'' (fun cs => some (singleRun cs)) fuel (c.advance 1)

/-- Reads a scalar in double quotes, from the quote on. -/
def readDoubleQuoted (fuel : Nat) (c : Cursor) : Option (List Char × Cursor) :=
  quotedFrom '"' (doubleRun fuel) fuel (c.advance 1)

/-! ### Block scalars -/

/-- What becomes of the line breaks at the end of a block. -/
inductive Chomping where
  /-- All are dropped. -/
  | strip
  /-- The first one is kept. -/
  | clip
  /-- All are kept. -/
  | keep
deriving Repr, DecidableEq

/-- The chomping of an indicator. -/
def Chomping.ofChar? : Char → Option Chomping
  | '-' => some .strip
  | '+' => some .keep
  | _ => none

/-- The indentation of an indicator. -/
def indentOfChar? (c : Char) : Option Nat :=
  if c.isDigit && c != '0' then some (c.toNat - '0'.toNat) else none

/-- The indicators behind the one that starts a block, in either order. -/
def readHeader (c : Cursor) : Chomping × Option Nat × Cursor :=
  let chomping (c : Cursor) := (c.peek 0).bind Chomping.ofChar?
  let indent (c : Cursor) := (c.peek 0).bind indentOfChar?
  match chomping c, indent c with
  | some mode, _ =>
    match indent (c.advance 1) with
    | some n => (mode, some n, c.advance 2)
    | none => (mode, none, c.advance 1)
  | none, some n =>
    match chomping (c.advance 1) with
    | some mode => (mode, some n, c.advance 2)
    | none => (.clip, some n, c.advance 1)
  | none, none => (.clip, none, c)

/-- The place after the blanks and the comment at the end of a line, and after its line break. -/
def lineEnd? (c : Cursor) : Option Cursor :=
  let c := c.skip isGap
  let c := if c.peek 0 == some '#' then c.skip fun char => !isBreak char else c
  match c.rest with
  | [] => some c
  | char :: _ => if isBreak char then some c.newline else none

/-- The line breaks of empty lines, the greatest column that such a line reaches, and the place of
the next line, past its indentation. An indentation of zero is not known yet. Tabs do not indent.
-/
def emptyLines (indent : Nat) : (fuel : Nat) → Cursor → Option (List Char × Nat × Cursor)
  | 0, c => some ([], 0, c)
  | fuel + 1, c => do
    let spaces := (c.rest.takeWhile (· == ' ')).length
    let c := c.advance (if indent == 0 then spaces else min spaces (indent - c.column))
    match c.rest with
    | [] => return ([], c.column, c)
    | char :: _ =>
      if char == '\t' && (indent == 0 || c.column < indent) then none
      else if isBreak char then
        let (breaks, column, after) ← emptyLines indent fuel c.newline
        return (char :: breaks, max c.column column, after)
      else return ([], c.column, c)

/-- What the line break between two lines of a block stands for, with the empty lines after it. A
folded block joins lines that start with no blank. -/
def joinLines (literal : Bool) (lineBreak empty : List Char) (blankBefore blankAfter : Bool) :
    List Char :=
  if !literal && lineBreak.head? == some '\n' && !blankBefore && !blankAfter then
    if empty.isEmpty then [' '] else empty
  else lineBreak ++ empty

/-- The end of a block. -/
def Chomping.apply (mode : Chomping) (lineBreak empty : List Char) : List Char :=
  match mode with
  | .strip => []
  | .clip => lineBreak
  | .keep => lineBreak ++ empty

/-- The lines of a block from a line on, behind a line break and empty lines. -/
def blockLines (literal : Bool) (mode : Chomping) (indent : Nat) :
    (fuel : Nat) → Cursor → (lineBreak empty : List Char) → (blankBefore : Bool) →
    Option (List Char × Cursor)
  | 0, c, lineBreak, empty, _ => some (mode.apply lineBreak empty, c)
  | fuel + 1, c, lineBreak, empty, blankBefore => do
    if c.column != indent || c.rest.isEmpty then return (mode.apply lineBreak empty, c)
    else
      let blank := (c.peek 0).any isGap
      let (line, after) := c.span fun char => !isBreak char
      let ended := (after.peek 0).toList
      let (nextEmpty, _, next) ← emptyLines indent (fuel + 1) after.skipBreak
      let (text, last) ← blockLines literal mode indent fuel next ended nextEmpty blank
      return (joinLines literal lineBreak empty blankBefore blank ++ line ++ text, last)

/-- Reads a block from its indicator on. `parent` is the indentation of the collection around it. -/
def readBlock (fuel : Nat) (parent : Int) (c : Cursor) : Option (List Char × Cursor) := do
  let literal := c.peek 0 == some '|'
  let (mode, increment, c) := readHeader (c.advance 1)
  let c ← lineEnd? c
  let given := match increment with
    | some n => (if parent ≥ 0 then parent.toNat else 0) + n
    | none => 0
  let (empty, column, c) ← emptyLines given fuel c
  let indent := if given == 0 then max column (max (parent + 1).toNat 1) else given
  blockLines literal mode indent fuel c [] empty false

end Cascade.Yaml
