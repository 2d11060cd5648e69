import Cascade.Yaml.Document

/-!
# Writing YAML

Values are written in block style, empty collections in flow style. A string is written plain if
it reads back as the same string, in single quotes if it would read as something else, as a
literal block if it has several lines, and in double quotes if no other style can hold it. Lines
are never broken.

## Main definitions

* `Yaml.Style`, `Yaml.styleOf`: the style of a string.
* `Yaml.render`: the text of a value.
-/

namespace Cascade.Yaml

/-! ### Styles -/

/-- How a string is written. -/
inductive Style where
  | plain
  | singleQuoted
  | doubleQuoted
  | literal
deriving Repr, DecidableEq

/-- Characters that may be written as they are. -/
def isPrintable (c : Char) : Bool :=
  let n := c.toNat
  n == 0x0A || (0x20 ≤ n && n ≤ 0x7E) || (0xA0 ≤ n && n ≤ 0xD7FF) ||
    (0xE000 ≤ n && n ≤ 0xFFFD && n != 0xFEFF)

/-- A character is an indicator at the start of a block scalar. -/
def isLeadingIndicator (c : Char) (rest : List Char) : Bool :=
  "#,[]\x7b\x7d&*!|>'\"%@`".toList.contains c ||
    (c == '?' || c == ':' || c == '-') && endsWord rest

/-- An indicator stands somewhere behind the first character. -/
def hasInnerIndicator : List Char → Bool
  | c :: d :: rest =>
    d == ':' && endsWord rest || d == '#' && (isGap c || isBreak c) || hasInnerIndicator (d :: rest)
  | _ => false

/-- Two characters of two classes side by side. -/
def hasNeighbours (p q : Char → Bool) : List Char → Bool
  | c :: d :: rest => p c && q d || hasNeighbours p q (d :: rest)
  | _ => false

/-- The string cannot be written as it is, in any style. -/
def needsEscapes (cs : List Char) : Bool :=
  cs.any (fun c => !isPrintable c) || hasNeighbours (· == ' ') isBreak cs

/-- A string that reads as itself when it is written plain, apart from how it would be typed. -/
def allowsPlain (cs : List Char) : Bool :=
  match cs with
  | [] => true
  | c :: rest =>
    !(isLeadingIndicator c rest || hasInnerIndicator cs || needsEscapes cs || cs.any isBreak ||
      c == ' ' || cs.getLast? == some ' ' || ['-', '-', '-'].isPrefixOf cs ||
      ['.', '.', '.'].isPrefixOf cs)

/-- A string that can stand in single quotes. -/
def allowsSingleQuotes (cs : List Char) : Bool :=
  !(needsEscapes cs || hasNeighbours isBreak (· == ' ') cs)

/-- A string that can be written as a literal block. -/
def allowsLiteral (cs : List Char) : Bool :=
  !(cs.isEmpty || needsEscapes cs || cs.getLast? == some ' ')

/-- A string that would not read as a string if it were written plain. -/
def readsAsOther (s : String) : Bool :=
  hasLeadingZero s.toList ||
    match readingOf s with
    | .text => false
    | _ => true

/-- Quotes around a string: single ones, if they can hold it. Breaks are not allowed in the quotes
of a key. -/
def quotedStyle (key : Bool) (cs : List Char) : Style :=
  if allowsSingleQuotes cs && !(key && cs.any isBreak) then .singleQuoted else .doubleQuoted

/-- The style of a string, which is a key or a value. -/
def styleOf (key : Bool) (s : String) : Style :=
  let cs := s.toList
  if cs.contains '\n' then if allowsLiteral cs && !key then .literal else .doubleQuoted
  else if readsAsOther s || !allowsPlain cs then quotedStyle key cs
  else .plain

/-! ### Strings -/

/-- A number of spaces. -/
def spaces (count : Nat) : List Char := List.replicate count ' '

/-- A hexadecimal number with a number of digits. -/
def hexDigits (width n : Nat) : List Char :=
  let digits := (Nat.toDigits 16 n).map Char.toUpper
  List.replicate (width - digits.length) '0' ++ digits

/-- The letter behind the backslash of an escaped character. -/
def escapeLetter? (c : Char) : Option Char :=
  match c.toNat with
  | 0x00 => some '0'
  | 0x07 => some 'a'
  | 0x08 => some 'b'
  | 0x09 => some 't'
  | 0x0A => some 'n'
  | 0x0B => some 'v'
  | 0x0C => some 'f'
  | 0x0D => some 'r'
  | 0x1B => some 'e'
  | 0x22 => some '"'
  | 0x5C => some '\\'
  | 0x85 => some 'N'
  | 0xA0 => some '_'
  | 0x2028 => some 'L'
  | 0x2029 => some 'P'
  | _ => none

/-- A character in double quotes. -/
def doubleQuotedChar (c : Char) : List Char :=
  if isPrintable c && !isBreak c && c != '"' && c != '\\' then [c]
  else
    match escapeLetter? c with
    | some letter => ['\\', letter]
    | none =>
      let n := c.toNat
      if n ≤ 0xFF then '\\' :: 'x' :: hexDigits 2 n
      else if n ≤ 0xFFFF then '\\' :: 'u' :: hexDigits 4 n
      else '\\' :: 'U' :: hexDigits 8 n

/-- A string in single quotes. Lines after a separator of lines are indented. -/
def singleQuotedChars (indent : Nat) (breakBefore : Bool) : List Char → List Char
  | [] => if breakBefore then spaces indent else []
  | c :: rest =>
    if isBreak c then c :: singleQuotedChars indent true rest
    else
      (if breakBefore then spaces indent else []) ++ (if c == '\'' then ['\'', '\''] else [c]) ++
        singleQuotedChars indent false rest

/-- The lines of a literal block, indented unless they are empty. -/
def literalChars (indent : Nat) (breakBefore : Bool) : List Char → List Char
  | [] => []
  | c :: rest =>
    if isBreak c then c :: literalChars indent true rest
    else (if breakBefore then spaces indent else []) ++ c :: literalChars indent false rest

/-- The indicators of a literal block: its indentation, if the first character hides it, and what
becomes of the line breaks at its end. -/
def literalHeader (cs : List Char) : List Char :=
  let indentation := if (cs.head?).any fun c => c == ' ' || isBreak c then ['2'] else []
  let chomping := match cs.reverse with
    | [] => ['-']
    | last :: before =>
      if !isBreak last then ['-']
      else if before.isEmpty || (before.head?).any isBreak then ['+']
      else []
  '|' :: indentation ++ chomping

/-- A literal block. The line break at its end is that of the line after it. -/
def literalBlock (indent : Nat) (cs : List Char) : List Char :=
  let lines := literalChars indent true cs
  literalHeader cs ++ '\n' ::
    (if lines.getLast? == some '\n' then lines.dropLast else lines)

/-- A string. `indent` is the indentation of its further lines. -/
def writeString (key : Bool) (indent : Nat) (s : String) : List Char :=
  let cs := s.toList
  match styleOf key s with
  | .plain => cs
  | .singleQuoted => '\'' :: singleQuotedChars indent false cs ++ ['\'']
  | .doubleQuoted => '"' :: cs.flatMap doubleQuotedChar ++ ['"']
  | .literal => literalBlock indent cs

/-! ### Values -/

/-- Where a value stands. -/
inductive Position where
  /-- At the start of the document. -/
  | root
  /-- Behind the indicator of an item or of a key on its own line. -/
  | item
  /-- Behind the colon of a key. -/
  | value
deriving Repr, DecidableEq

/-- What stands between a scalar and what is before it. -/
def Position.scalarLead : Position → List Char
  | .root => []
  | _ => [' ']

/-- What stands between the first line of a block and what is before it. -/
def Position.blockLead (p : Position) (indent : Nat) : List Char :=
  match p with
  | .root => []
  | .item => [' ']
  | .value => '\n' :: spaces indent

/-- A key that is written in front of its value: it has one line and is not long. -/
def isSimpleKey (key : String) : Bool := !key.toList.any isBreak && key.utf8ByteSize ≤ 128

mutual

/-- A value in a collection that is indented by `indent`. -/
def write (position : Position) (indent : Nat) : Json → List Char
  | .null => position.scalarLead ++ "null".toList
  | .bool b => position.scalarLead ++ (if b then "true" else "false").toList
  | .int n => position.scalarLead ++ (toString n.toInt).toList
  | .float x => position.scalarLead ++ (Notation.document.write x).toList
  | .string s => position.scalarLead ++ writeString false (indent + 2) s
  | .array [] => position.scalarLead ++ ['[', ']']
  | .object [] => position.scalarLead ++ ['{', '}']
  | .array items =>
    let indent := if position == .item then indent + 2 else indent
    position.blockLead indent ++ writeItems indent true items
  | .object members =>
    let indent := if position == .root then indent else indent + 2
    position.blockLead indent ++ writeMembers indent true members

/-- The items of a sequence, each but the first one on a new line. -/
def writeItems (indent : Nat) (first : Bool) : List Json → List Char
  | [] => []
  | item :: rest =>
    (if first then [] else '\n' :: spaces indent) ++ '-' :: write .item indent item ++
      writeItems indent false rest

/-- The entries of a mapping, each but the first one on a new line. -/
def writeMembers (indent : Nat) (first : Bool) : List (String × Json) → List Char
  | [] => []
  | (key, value) :: rest =>
    (if first then [] else '\n' :: spaces indent) ++
      (if isSimpleKey key then writeString true (indent + 2) key ++ ':' :: write .value indent value
      else
        '?' :: ' ' :: writeString false (indent + 2) key ++ '\n' :: spaces indent ++
          ':' :: write .item indent value) ++
      writeMembers indent false rest

end

/-- The text of a value. -/
def render (value : Json) : String := String.ofList (write .root 0 value)

end Cascade.Yaml
