import Cascade.Number.Range
import Cascade.Text.Json
import Cascade.Yaml.Tree

/-!
# Documents of a YAML text

A document is read as a JSON value. Plain scalars are nulls, booleans, numbers or strings by the
way they are spelled, other scalars are strings unless a tag says otherwise. Keys are the text of
their scalar. An alias stands for the node with its anchor; the number of aliases that are
followed and the depth of nesting are bounded.

## Main definitions

* `Yaml.Reading`, `Yaml.readingOf`: what a plain scalar is.
* `Yaml.Tree.expand`: the tree without aliases.
* `Yaml.documents?`, `Yaml.document?`: the values of a text.
-/

namespace Cascade.Yaml

/-! ### Plain scalars -/

/-- What a plain scalar is. -/
inductive Reading where
  | null
  | bool (value : Bool)
  | int (value : Int)
  | float (value : Float)
  | text

/-- A null. -/
def isNull (s : String) : Bool := ["null", "Null", "NULL", "~"].contains s

/-- A boolean. -/
def bool? (s : String) : Option Bool :=
  if ["true", "True", "TRUE"].contains s then some true
  else if ["false", "False", "FALSE"].contains s then some false
  else none

/-- The value of a digit. -/
def digit? (radix : Nat) (c : Char) : Option Nat :=
  (hexDigit? c).filter (· < radix)

/-- The number of a text of digits. -/
def natural? (radix : Nat) (digits : List Char) : Option Nat :=
  if digits.isEmpty then none
  else digits.foldlM (fun n c => (digit? radix c).map fun d => n * radix + d) 0

/-- The text without a sign in front. -/
def unsigned : List Char → List Char
  | '+' :: rest => rest
  | '-' :: rest => rest
  | cs => cs

/-- Digits of which the first one is a superfluous zero. They are no number. -/
def hasLeadingZero (cs : List Char) : Bool :=
  match unsigned cs with
  | '0' :: rest => !rest.isEmpty && rest.all Char.isDigit
  | _ => false

/-- The number of digits behind a sign, in base ten or with the base in front. -/
def magnitude? (cs : List Char) : Option Nat :=
  match cs with
  | '0' :: 'x' :: digits => natural? 16 digits
  | '0' :: 'o' :: digits => natural? 8 digits
  | '0' :: 'b' :: digits => natural? 2 digits
  | digits => if hasLeadingZero digits then none else natural? 10 digits

/-- The integer of a text. -/
def integer? : List Char → Option Int
  | '-' :: rest => (magnitude? rest).map fun n => -(n : Int)
  | '+' :: rest => (magnitude? rest).map fun n => (n : Int)
  | cs => (magnitude? cs).map fun n => (n : Int)

/-- The exponent of a float, zero if there is none. -/
def exponent? : List Char → Option Int
  | [] => some 0
  | e :: rest =>
    if e == 'e' || e == 'E' then
      match rest with
      | '-' :: digits => (natural? 10 digits).map fun n => -(n : Int)
      | '+' :: digits => (natural? 10 digits).map fun n => (n : Int)
      | digits => (natural? 10 digits).map fun n => (n : Int)
    else none

/-- The float of digits with a point and an exponent, both of which may be missing. -/
def decimal? (negative : Bool) (cs : List Char) : Option Float := do
  let whole := cs.takeWhile Char.isDigit
  let rest := cs.drop whole.length
  let (fraction, rest) := match rest with
    | '.' :: rest =>
      let fraction := rest.takeWhile Char.isDigit
      (fraction, rest.drop fraction.length)
    | rest => ([], rest)
  let exponent ← exponent? rest
  let digits ← natural? 10 (whole ++ fraction)
  return Binary64.ofDecimal negative digits (exponent - fraction.length)

/-- The float of a text. Digits that are too large for a float are no float. -/
def float? (s : String) : Option Float :=
  if [".inf", ".Inf", ".INF", "+.inf", "+.Inf", "+.INF"].contains s then
    some (Binary64.infinity false)
  else if ["-.inf", "-.Inf", "-.INF"].contains s then some (Binary64.infinity true)
  else if [".nan", ".NaN", ".NAN"].contains s then some Binary64.nan
  else
    let finite := match s.toList with
      | '-' :: rest => decimal? true rest
      | '+' :: rest => decimal? false rest
      | cs => decimal? false cs
    finite.filter Binary64.isFinite

/-- The integer fits into 128 bits, signed if it is negative. Longer ones are no integers. -/
def isWord (n : Int) : Bool :=
  -0x80000000000000000000000000000000 ≤ n && n < 0x100000000000000000000000000000000

/-- What a plain scalar is. -/
def readingOf (s : String) : Reading :=
  if s = "" || isNull s then .null
  else
    match bool? s, (integer? s.toList).filter isWord with
    | some b, _ => .bool b
    | none, some n => .int n
    | none, none =>
      match if hasLeadingZero s.toList then none else float? s with
      | some x => .float x
      | none => .text

/-! ### Values -/

/-- The value of an integer. Those that 64 bits cannot hold have none; unsigned ones become
floats. -/
def intValue? (n : Int) : Option Json :=
  if FitsInt n then some (.int (Int64.ofInt n))
  else if 0 ≤ n ∧ FitsWord n.toNat then some (.float (Binary64.ofInt n))
  else none

/-- The value of a float. Those that are not finite are nulls. -/
def floatValue (x : Float) : Json := if Binary64.isFinite x then .float x else .null

/-- The value of a plain scalar. -/
def plainValue? (s : String) : Option Json :=
  match readingOf s with
  | .null => some .null
  | .bool b => some (.bool b)
  | .int n => intValue? n
  | .float x => some (floatValue x)
  | .text => some (.string s)

/-- A tag of the format, whose values have no type of their own. -/
def standardTag (name : String) : String := "tag:yaml.org,2002:" ++ name

/-- A tag that is private to an application. No value is known for it. -/
def isPrivate (tag : Option String) : Bool := tag.any fun tag => tag.toList.head? == some '!'

/-- The value of a scalar. -/
def scalarValue? (tag : Option String) (s : String) (plain : Bool) : Option Json :=
  match tag with
  | none => if plain then plainValue? s else some (.string s)
  | some tag =>
    if isPrivate (some tag) then none
    else if tag = standardTag "bool" then (bool? s).map .bool
    else if tag = standardTag "int" then ((integer? s.toList).filter isWord).bind intValue?
    else if tag = standardTag "float" then (float? s).map floatValue
    else if tag = standardTag "null" then if isNull s then some .null else none
    else some (.string s)

/-! ### Aliases -/

namespace Tree

/-- The anchors met so far, each meeting with a number. -/
structure Anchors where
  /-- The latest number of each name. -/
  latest : List (String × Nat) := []
  /-- The nodes whose end has been met, with the number of aliases followed in them. -/
  closed : List (Nat × Tree × Nat) := []

/-- Computations that note anchors, and fail at an alias without a closed node. -/
abbrev Expanding := StateT Anchors Option

/-- The node of an alias. -/
def Anchors.find? (anchors : Anchors) (name : String) : Option (Tree × Nat) := do
  anchors.closed.lookup (← anchors.latest.lookup name)

/-- Notes the start of a node with an anchor. -/
def openAnchor (anchor : Option String) : Expanding (Option Nat) := do
  match anchor with
  | none => return none
  | some name =>
    let anchors ← get
    let number := anchors.latest.length
    set { anchors with latest := (name, number) :: anchors.latest }
    return some number

/-- Notes the end of a node. -/
def closeAnchor (number : Option Nat) (expanded : Tree × Nat) : Expanding (Tree × Nat) := do
  match number with
  | none => return expanded
  | some number =>
    modify fun anchors => { anchors with closed := (number, expanded) :: anchors.closed }
    return expanded

mutual

/-- The tree with the nodes of aliases in their place, and how many aliases were followed. -/
def expand : Tree → Expanding (Tree × Nat)
  | .alias name => do
    match (← get).find? name with
    | some (tree, followed) => return (tree, followed + 1)
    | none => fun _ => none
  | .scalar p text plain => do
    closeAnchor (← openAnchor p.anchor) (.scalar p text plain, 0)
  | .sequence p items => do
    let number ← openAnchor p.anchor
    let (items, followed) ← expandItems items
    closeAnchor number (.sequence p items, followed)
  | .mapping p entries => do
    let number ← openAnchor p.anchor
    let (entries, followed) ← expandEntries entries
    closeAnchor number (.mapping p entries, followed)

/-- The items of a sequence without aliases. -/
def expandItems : List Tree → Expanding (List Tree × Nat)
  | [] => return ([], 0)
  | item :: rest => do
    let (item, followed) ← expand item
    let (items, more) ← expandItems rest
    return (item :: items, followed + more)

/-- The entries of a mapping without aliases. -/
def expandEntries : List (Tree × Tree) → Expanding (List (Tree × Tree) × Nat)
  | [] => return ([], 0)
  | (key, value) :: rest => do
    let (key, inKey) ← expand key
    let (value, inValue) ← expand value
    let (entries, more) ← expandEntries rest
    return ((key, value) :: entries, inKey + inValue + more)

end

mutual

/-- How many scalars, aliases, and starts and ends of collections make the tree. -/
def parts : Tree → Nat
  | .alias _ => 1
  | .scalar _ _ _ => 1
  | .sequence _ items => 2 + itemParts items
  | .mapping _ entries => 2 + entryParts entries

/-- The parts of items. -/
def itemParts : List Tree → Nat
  | [] => 0
  | item :: rest => parts item + itemParts rest

/-- The parts of entries. -/
def entryParts : List (Tree × Tree) → Nat
  | [] => 0
  | (key, value) :: rest => parts key + parts value + entryParts rest

end

/-- The tree without aliases. On average, a part may be repeated a hundred times. -/
def expanded? (t : Tree) : Option Tree := do
  let ((tree, followed), _) ← (expand t).run {}
  if followed ≤ 100 * t.parts then some tree else none

/-! ### Values of trees -/

/-- The text of a key. -/
def keyText? : Tree → Option String
  | .scalar _ text _ => some text
  | _ => none

mutual

/-- The value of a tree without aliases, whose collections are nested to a given depth at most. -/
def value? (depth : Nat) : Tree → Option Json
  | .alias _ => none
  | .scalar p text plain => scalarValue? p.tag text plain
  | .sequence p items =>
    if depth = 0 || isPrivate p.tag then none
    else (itemValues? (depth - 1) items).map .array
  | .mapping p entries =>
    if depth = 0 || isPrivate p.tag then none
    else (entryValues? (depth - 1) entries).map fun entries => .object (Fields.ofList entries)

/-- The values of items. -/
def itemValues? (depth : Nat) : List Tree → Option (List Json)
  | [] => some []
  | item :: rest => do return (← value? depth item) :: (← itemValues? depth rest)

/-- The values of entries. -/
def entryValues? (depth : Nat) : List (Tree × Tree) → Option (List (String × Json))
  | [] => some []
  | (key, value) :: rest => do
    return (← key.keyText?, ← value? depth value) :: (← entryValues? depth rest)

end

end Tree

/-- The value of a document. -/
def treeValue? (t : Tree) : Option Json := do (← t.expanded?).value? 128

/-- The documents of a text. A text without any is one null. -/
def documents? (text : String) : Option (List Json) := do
  match ← trees? text with
  | [] => return [.null]
  | trees => trees.mapM treeValue?

/-- The value of a text that holds one document. -/
def document? (text : String) : Option Json :=
  match documents? text with
  | some [value] => some value
  | _ => none

end Cascade.Yaml
