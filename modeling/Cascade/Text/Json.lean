import Cascade.Fields
import Cascade.Number.Range
import Cascade.Number.Shortest
import Cascade.Text.Parser

/-!
# JSON texts

Values, reading and writing. A number without fraction and exponent that fits into 64 signed bits is
an int; every other number is a float, `-0` included. Reading a float scales its significand, cut
where it leaves 64 bits, by one power of ten, so a long decimal may end up one step away from the
nearest number. Of two equal keys the last one counts, and the keys of a value that was read are
sorted.

## Main definitions

* `Json`: values; the members of an object stand in written order.
* `Json.parse?`: reading, with a bound on nesting.
* `Json.compact`, `Json.pretty`: writing.
-/

namespace Cascade

/-- A JSON value. -/
inductive Json where
  | null
  | bool (value : Bool)
  | int (value : Int64)
  | float (value : Float)
  | string (value : String)
  | array (items : List Json)
  | object (members : List (String × Json))

namespace Json

instance : Inhabited Json := ⟨.null⟩

/-- The member of an object. -/
def member? (key : String) : Json → Option Json
  | .object members => Fields.find? members key
  | _ => none

/-! ### Numbers -/

/-- Significand and decimal exponent of a number, and whether it was written as an integer. -/
structure NumberParts where
  significand : Nat
  exponent : Int
  integral : Bool

/-- Appends digits to a significand while it keeps to 64 bits. The digits left over are counted. -/
def appendDigits (significand : Nat) : List Char → Nat × Nat
  | [] => (significand, 0)
  | c :: rest =>
    let extended := significand * 10 + (c.toNat - '0'.toNat)
    if FitsWord extended then appendDigits extended rest else (significand, rest.length + 1)

/-- The float of a significand and an exponent, scaled by one power of ten; none if it is out of
range. -/
def scale (significand : Nat) (exponent : Int) : Option Float :=
  let f := Binary64.ofInt significand
  if exponent.natAbs ≤ 308 then
    let power := Binary64.ofDecimal false 1 exponent.natAbs
    if exponent ≥ 0 then
      let scaled := f * power
      if Binary64.isFinite scaled then some scaled else none
    else some (f / power)
  else if significand = 0 then some f
  else if exponent ≥ 0 then none
  else
    -- Beyond two such steps nothing is left of 64 bits.
    let f := f / Binary64.ofDecimal false 1 308
    let exponent := exponent + 308
    if exponent.natAbs ≤ 308 then some (f / Binary64.ofDecimal false 1 exponent.natAbs)
    else some (Binary64.signed false 0)

open Cascade.Parser in
/-- The digits before the point; a zero stands alone. -/
def wholePart : Parser (List Char) := do
  let digits ← digits1
  if digits.length > 1 && digits.head? == some '0' then fail else return digits

open Cascade.Parser in
/-- The exponent of a number. -/
def exponentPart : Parser Int := do
  let _ ← satisfy fun c => c == 'e' || c == 'E'
  let negative ←
    choose [(fun _ => false) <$> char '+', (fun _ => true) <$> char '-', Parser.yield false]
  let n : Int := naturalOfDigits (← digits1)
  return if negative then -n else n

open Cascade.Parser in
/-- Significand and exponent of an unsigned number. -/
def numberParts : Parser NumberParts := do
  let whole ← wholePart
  let (significand, dropped) := appendDigits 0 whole
  let fraction ← fun cs => match cs with
    | '.' :: rest => (some <$> digits1) rest
    | _ => .accepted none cs
  let (significand, shift) : Nat × Int := match fraction with
    | none => (significand, dropped)
    | some digits =>
      let (extended, left) := appendDigits significand digits
      (extended, (dropped : Int) - ((digits.length - left : Nat) : Int))
  let exponent ← fun cs => match cs with
    | 'e' :: _ => (some <$> exponentPart) cs
    | 'E' :: _ => (some <$> exponentPart) cs
    | _ => .accepted none cs
  return ⟨significand, shift + exponent.getD 0, fraction.isNone && exponent.isNone && dropped == 0⟩

/-- The number of its parts under a sign. -/
def NumberParts.value? (p : NumberParts) (negative : Bool) : Option Json :=
  let n : Int := if negative then -(p.significand : Int) else p.significand
  if p.integral && FitsInt n && !(negative && n == 0) then
    some (.int (Int64.ofInt n))
  else (scale p.significand p.exponent).map fun f => .float (if negative then -f else f)

open Cascade.Parser in
/-- A number. -/
def number : Parser Json := do
  let negative := (← optional (char '-')).isSome
  match (← numberParts).value? negative with
  | some value => return value
  | none => fail

/-! ### Strings -/

/-- The value of a hexadecimal digit. -/
def hexDigit? (c : Char) : Option Nat :=
  if c.isDigit then some (c.toNat - '0'.toNat)
  else if 'a' ≤ c ∧ c ≤ 'f' then some (c.toNat - 'a'.toNat + 10)
  else if 'A' ≤ c ∧ c ≤ 'F' then some (c.toNat - 'A'.toNat + 10)
  else none

/-- The code unit of four hexadecimal digits. -/
def codeUnit? (a b c d : Char) : Option Nat := do
  return (((← hexDigit? a) * 16 + (← hexDigit? b)) * 16 + (← hexDigit? c)) * 16 + (← hexDigit? d)

/-- The character of a one-letter escape. -/
def escaped? : Char → Option Char
  | '"' => some '"'
  | '\\' => some '\\'
  | '/' => some '/'
  | 'b' => some '\x08'
  | 'f' => some '\x0c'
  | 'n' => some '\n'
  | 'r' => some '\r'
  | 't' => some '\t'
  | _ => none

/-- A code unit is the first half of a pair. -/
def isHighSurrogate (n : Nat) : Bool := 0xD800 ≤ n && n < 0xDC00

/-- A code unit is the second half of a pair. -/
def isLowSurrogate (n : Nat) : Bool := 0xDC00 ≤ n && n < 0xE000

/-- The characters up to the closing quote, and what follows it. `taken` is in reverse. -/
def stringRest (taken : List Char) : List Char → Option (List Char × List Char)
  | [] => none
  | '"' :: rest => some (taken.reverse, rest)
  | '\\' :: 'u' :: a :: b :: c :: d :: rest =>
    match codeUnit? a b c d with
    | none => none
    | some unit =>
      if isHighSurrogate unit then
        match rest with
        | '\\' :: 'u' :: a :: b :: c :: d :: rest =>
          match codeUnit? a b c d with
          | none => none
          | some low =>
            if isLowSurrogate low then
              let code := 0x10000 + (unit - 0xD800) * 1024 + (low - 0xDC00)
              stringRest (Char.ofNat code :: taken) rest
            else none
        | _ => none
      else if isLowSurrogate unit then none
      else stringRest (Char.ofNat unit :: taken) rest
  | '\\' :: c :: rest =>
    match escaped? c with
    | some e => stringRest (e :: taken) rest
    | none => none
  | c :: rest => if c.toNat < 0x20 || c == '\\' then none else stringRest (c :: taken) rest

open Cascade.Parser in
/-- A string. -/
def text : Parser String := do
  char '"'
  fun cs => match stringRest [] cs with
    | some (taken, rest) => .accepted (String.ofList taken) rest
    | none => .failed cs

/-! ### Values -/

open Cascade.Parser in
/-- A value that is no array and no object. -/
def scalar : Parser Json :=
  choose [
    (fun _ => .null) <$> word "null".toList,
    (fun _ => .bool true) <$> word "true".toList,
    (fun _ => .bool false) <$> word "false".toList,
    number,
    Json.string <$> text]

open Cascade.Parser in
/-- Items in square brackets. -/
def arrayOf (item : Parser Json) : Parser Json := do
  char '['
  spaces
  let items ← separated item (char ',')
  spaces
  char ']'
  return .array items

open Cascade.Parser in
/-- A key and its value. -/
def memberOf (item : Parser Json) : Parser (String × Json) := do
  spaces
  let key ← text
  spaces
  char ':'
  return (key, ← item)

open Cascade.Parser in
/-- Members in braces. -/
def objectOf (item : Parser Json) : Parser Json := do
  char '{'
  spaces
  let members ← separated (memberOf item) (char ',')
  spaces
  char '}'
  return .object (Fields.ofList members)

open Cascade.Parser in
/-- A value in which at most `depth` arrays and objects are nested. -/
def value : (depth : Nat) → Parser Json
  | 0 => spaced scalar
  | depth + 1 => spaced (choose [scalar, arrayOf (value depth), objectOf (value depth)])

/-- The value of a text, in which at most `depth` arrays and objects are nested. -/
def parse? (text : String) (depth : Nat) : Option Json :=
  match value depth text.toList with
  | .accepted result [] => some result
  | _ => none

/-! ### Writing -/

/-- Two hexadecimal digits. -/
def hexByte (n : Nat) : List Char :=
  [Nat.digitChar (n / 16), Nat.digitChar (n % 16)]

/-- The characters of a string that stand for one character. -/
def escapeChar (c : Char) : List Char :=
  match c with
  | '"' => ['\\', '"']
  | '\\' => ['\\', '\\']
  | '\n' => ['\\', 'n']
  | '\r' => ['\\', 'r']
  | '\t' => ['\\', 't']
  | '\x08' => ['\\', 'b']
  | '\x0c' => ['\\', 'f']
  | other => if other.toNat < 0x20 then "\\u00".toList ++ hexByte other.toNat else [other]

/-- A string in quotes. -/
def quote (s : String) : String :=
  String.ofList ('"' :: (s.toList.flatMap escapeChar ++ ['"']))

mutual

/-- A value on one line, without spaces. -/
def compact : Json → String
  | .null => "null"
  | .bool b => if b then "true" else "false"
  | .int n => toString n.toInt
  | .float x => Notation.document.write x
  | .string s => quote s
  | .array items => "[" ++ compactItems items ++ "]"
  | .object members => "\x7b" ++ compactMembers members ++ "\x7d"

/-- Items separated by commas. -/
def compactItems : List Json → String
  | [] => ""
  | [item] => compact item
  | item :: rest => compact item ++ "," ++ compactItems rest

/-- Members separated by commas. -/
def compactMembers : List (String × Json) → String
  | [] => ""
  | [(key, item)] => quote key ++ ":" ++ compact item
  | (key, item) :: rest => quote key ++ ":" ++ compact item ++ "," ++ compactMembers rest

end

/-- A line break and an indent of two spaces per level. -/
def newline (level : Nat) : String :=
  String.ofList ('\n' :: List.replicate (2 * level) ' ')

mutual

/-- A value with one item or member per line, indented by its level. -/
def prettyAt (level : Nat) : Json → String
  | .array [] => "[]"
  | .array (item :: rest) =>
    "[" ++ newline (level + 1) ++ prettyAt (level + 1) item ++ prettyItems (level + 1) rest ++
      newline level ++ "]"
  | .object [] => "\x7b\x7d"
  | .object ((key, item) :: rest) =>
    "\x7b" ++ newline (level + 1) ++ quote key ++ ": " ++ prettyAt (level + 1) item ++
      prettyMembers (level + 1) rest ++ newline level ++ "\x7d"
  | .null => "null"
  | .bool b => if b then "true" else "false"
  | .int n => toString n.toInt
  | .float x => Notation.document.write x
  | .string s => quote s

/-- Items after the first. -/
def prettyItems (level : Nat) : List Json → String
  | [] => ""
  | item :: rest => "," ++ newline level ++ prettyAt level item ++ prettyItems level rest

/-- Members after the first. -/
def prettyMembers (level : Nat) : List (String × Json) → String
  | [] => ""
  | (key, item) :: rest =>
    "," ++ newline level ++ quote key ++ ": " ++ prettyAt level item ++ prettyMembers level rest

end

/-- A value with one item or member per line. -/
def pretty (j : Json) : String := prettyAt 0 j

end Json

end Cascade
