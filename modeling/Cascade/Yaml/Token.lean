import Cascade.Yaml.Scalar

/-!
# YAML tokens

A text becomes a sequence of tokens. Indentation is turned into tokens that open and close block
collections. A key is recognised only at the colon behind it, so the place of every possible key is
remembered, and the tokens of the key and of the block mapping that it opens are put in there.

## Main definitions

* `Yaml.Token`.
* `Yaml.Scanner`: the place, the open collections and the tokens so far.
* `Yaml.tokens?`: the tokens of a text, if it is well formed.
-/

namespace Cascade.Yaml

/-- A token. -/
inductive Token where
  | version (major minor : Nat)
  | tagDirective (handle start : String)
  | documentStart
  | documentEnd
  | blockSequenceStart
  | blockMappingStart
  | blockEnd
  | flowSequenceStart
  | flowSequenceEnd
  | flowMappingStart
  | flowMappingEnd
  | blockEntry
  | flowEntry
  | key
  | value
  | alias (name : String)
  | anchor (name : String)
  | tag (handle suffix : String)
  | scalar (text : String) (plain : Bool)
deriving Repr, DecidableEq

/-- The place of what may turn out to be a key. -/
structure PossibleKey where
  /-- The number of tokens before it. -/
  position : Nat
  /-- The structure of the block makes it a key. -/
  required : Bool
  line : Nat
  index : Nat
  column : Nat

/-- The state of a scan. -/
structure Scanner where
  cursor : Cursor
  tokens : Array Token := #[]
  /-- The column of the innermost block collection, -1 if there is none. -/
  indent : Int := -1
  /-- The columns of the block collections around it. -/
  indents : List Int := []
  /-- A key may start here. -/
  keyAllowed : Bool := true
  /-- The possible key of every open flow collection, the innermost first, and of the block. -/
  keys : List (Option PossibleKey) := [none]

/-- A step of a scan, which fails if the text is malformed. -/
abbrev Scan := StateT Scanner Option

namespace Scan

/-- Malformed. -/
def fail {α : Type} : Scan α := fun _ => none

/-- Malformed unless the condition holds. -/
def require (condition : Bool) : Scan Unit := if condition then pure () else fail

/-- What a reader may find missing. -/
def lift {α : Type} (found : Option α) : Scan α := fun s => found.map fun x => (x, s)

/-- The place. -/
def cursor : Scan Cursor := return (← get).cursor

/-- Goes to a place. -/
def moveTo (c : Cursor) : Scan Unit := modify fun s => { s with cursor := c }

/-- Goes on by a number of characters. -/
def advance (count : Nat) : Scan Unit := modify fun s => { s with cursor := s.cursor.advance count }

/-- The place is inside a flow collection. -/
def inFlow : Scan Bool := return (← get).keys.length > 1

/-- Adds a token. -/
def emit (t : Token) : Scan Unit := modify fun s => { s with tokens := s.tokens.push t }

/-- Puts a token in at a position. -/
def emitAt (position : Nat) (t : Token) : Scan Unit :=
  modify fun s => { s with tokens := s.tokens.insertIdxIfInBounds position t }

/-- Says whether a key may start at the place. -/
def allowKey (allowed : Bool) : Scan Unit := modify fun s => { s with keyAllowed := allowed }

/-! ### Possible keys -/

/-- A possible key that can no longer become one: it ends in another line, or is too long. A
required one has to. -/
def expire (c : Cursor) (k : PossibleKey) : Scan (Option PossibleKey) :=
  if k.line < c.line || k.index + 1024 < c.index then
    if k.required then fail else pure none
  else pure (some k)

/-- Forgets the possible keys that can no longer become keys. -/
def expireKeys : Scan Unit := do
  let s ← get
  let keys ← s.keys.mapM fun
    | some k => expire s.cursor k
    | none => pure none
  set { s with keys }

/-- Forgets the possible key of the innermost collection. -/
def forgetKey : Scan Unit := do
  let s ← get
  match s.keys with
  | some k :: outer => do
    require !k.required
    set { s with keys := none :: outer }
  | _ => pure ()

/-- Remembers the place as that of a possible key, if one may start here. -/
def rememberKey : Scan Unit := do
  if (← get).keyAllowed then
    forgetKey
    let s ← get
    let c := s.cursor
    let key : PossibleKey :=
      { position := s.tokens.size, required := s.keys.length == 1 && s.indent == c.column
        line := c.line, index := c.index, column := c.column }
    set { s with keys := some key :: s.keys.drop 1 }
  else pure ()

/-! ### Indentation -/

/-- Opens a block collection at a column, unless one is open there already. The token stands at a
position, or at the end. -/
def openBlock (column : Nat) (position : Option Nat) (t : Token) : Scan Unit := do
  let s ← get
  if s.keys.length == 1 && s.indent < column then
    set { s with indent := column, indents := s.indent :: s.indents }
    match position with
    | some position => emitAt position t
    | none => emit t
  else pure ()

/-- The columns that remain of nested ones when those right of a column are closed, and how many are
closed. -/
def closeColumns (column indent : Int) : List Int → Int × List Int × Nat
  | [] => (indent, [], 0)
  | outer :: rest =>
    if column < indent then
      let (indent, indents, closed) := closeColumns column outer rest
      (indent, indents, closed + 1)
    else (indent, outer :: rest, 0)

/-- Closes the block collections right of a column. -/
def closeBlocks (column : Int) : Scan Unit := do
  let s ← get
  if s.keys.length == 1 then
    let (indent, indents, closed) := closeColumns column s.indent s.indents
    set { s with indent, indents, tokens := s.tokens ++ Array.replicate closed Token.blockEnd }
  else pure ()

/-! ### Between tokens -/

/-- Skips blanks, comments and line breaks. A line break outside flow collections allows a key. Tabs
are no blanks where a key may start. -/
def skipSpacing : (fuel : Nat) → Scan Unit
  | 0 => pure ()
  | fuel + 1 => do
    let s ← get
    let tabs := s.keys.length > 1 || !s.keyAllowed
    let c := s.cursor.skip fun char => char == ' ' || tabs && char == '\t'
    let c := if c.peek 0 == some '#' then c.skip fun char => !isBreak char else c
    moveTo c
    if (c.peek 0).any isBreak then
      moveTo c.newline
      if !(← inFlow) then allowKey true
      skipSpacing fuel

/-! ### Tokens -/

/-- The start of a document, its end, or a directive: all blocks are closed before it. -/
def leaveBlocks : Scan Unit := do
  closeBlocks (-1)
  forgetKey
  allowKey false

/-- A mark between documents. -/
def documentMark (t : Token) : Scan Unit := do
  leaveBlocks
  advance 3
  emit t

/-- The start of a flow collection, which may be a key. -/
def flowStart (t : Token) : Scan Unit := do
  rememberKey
  modify fun s => { s with keys := none :: s.keys }
  allowKey true
  advance 1
  emit t

/-- The end of a flow collection. -/
def flowEnd (t : Token) : Scan Unit := do
  forgetKey
  modify fun s => { s with keys := if s.keys.length > 1 then s.keys.drop 1 else s.keys }
  allowKey false
  advance 1
  emit t

/-- The comma of a flow collection. -/
def flowEntry : Scan Unit := do
  forgetKey
  allowKey true
  advance 1
  emit .flowEntry

/-- The dash of a block sequence. -/
def blockEntry : Scan Unit := do
  if !(← inFlow) then
    require (← get).keyAllowed
    openBlock (← cursor).column none .blockSequenceStart
  forgetKey
  allowKey true
  advance 1
  emit .blockEntry

/-- The question mark of a key. -/
def keyMark : Scan Unit := do
  let flow ← inFlow
  if !flow then
    require (← get).keyAllowed
    openBlock (← cursor).column none .blockMappingStart
  forgetKey
  allowKey !flow
  advance 1
  emit .key

/-- The colon before a value. The possible key before it becomes a key. -/
def valueMark : Scan Unit := do
  let s ← get
  match s.keys with
  | some k :: outer => do
    emitAt k.position .key
    openBlock k.column (some k.position) .blockMappingStart
    modify fun s => { s with keys := none :: outer }
    allowKey false
  | _ => do
    let flow ← inFlow
    if !flow then
      require s.keyAllowed
      openBlock s.cursor.column none .blockMappingStart
    allowKey !flow
  advance 1
  emit .value

/-- What may follow the name of an anchor or an alias. -/
def endsName : List Char → Bool
  | [] => true
  | c :: rest => endsWord (c :: rest) || "?:,]\x7d%@`".toList.contains c

/-- The name of an anchor or an alias. -/
def anchorName (token : String → Token) : Scan Unit := do
  rememberKey
  allowKey false
  let (name, c) := ((← cursor).advance 1).span isWordChar
  require (!name.isEmpty && endsName c.rest)
  moveTo c
  emit (token (String.ofList name))

/-! ### Tags and directives -/

/-- Characters of a tag besides escapes. Commas and brackets are allowed only between angle
brackets. -/
def isTagChar (verbatim : Bool) (c : Char) : Bool :=
  isWordChar c || ";/?:@&=+$.!~*'()".toList.contains c || verbatim && ",[]".toList.contains c

/-- The byte of an escape. -/
def escapedByte? : List Char → Option Nat
  | '%' :: a :: b :: _ => hexNumber? [a, b]
  | _ => none

/-- A character whose bytes are escaped one by one, and how many characters are written for it. -/
def escapedChar? (cs : List Char) : Option (Char × Nat) := do
  let first ← escapedByte? cs
  let (count, head) ←
    if first < 0x80 then some (0, first)
    else if 0xC0 ≤ first ∧ first < 0xE0 then some (1, first - 0xC0)
    else if 0xE0 ≤ first ∧ first < 0xF0 then some (2, first - 0xE0)
    else if 0xF0 ≤ first ∧ first < 0xF8 then some (3, first - 0xF0)
    else none
  let code ← (List.range count).foldlM
    (fun code i => do
      let byte ← escapedByte? (cs.drop (3 * (i + 1)))
      if 0x80 ≤ byte ∧ byte < 0xC0 then some (code * 64 + (byte - 0x80)) else none)
    head
  return (← charOfCode? code, 3 * (count + 1))

/-- The characters of a tag from a place on, and the place after them. -/
def tagChars (verbatim : Bool) : (fuel : Nat) → Cursor → Scan (List Char × Cursor)
  | 0, c => pure ([], c)
  | fuel + 1, c =>
    match c.rest with
    | [] => pure ([], c)
    | char :: _ =>
      if char == '%' then do
        let (decoded, length) ← lift (escapedChar? c.rest)
        let (more, last) ← tagChars verbatim fuel (c.advance length)
        return (decoded :: more, last)
      else if isTagChar verbatim char then do
        let (more, last) ← tagChars verbatim fuel (c.advance 1)
        return (char :: more, last)
      else pure ([], c)

/-- The handle of a tag: a word between exclamation marks, or one mark with a word behind it. -/
def tagHandle (c : Cursor) : List Char × Cursor :=
  let (word, after) := (c.advance 1).span isWordChar
  if after.peek 0 == some '!' then ('!' :: word ++ ['!'], after.advance 1) else ('!' :: word, after)

/-- A tag between angle brackets. -/
def verbatimTag (fuel : Nat) (c : Cursor) : Scan (Token × Cursor) := do
  let (name, c) ← tagChars true fuel (c.advance 2)
  require (!name.isEmpty && c.peek 0 == some '>')
  return (.tag "" (String.ofList name), c.advance 1)

/-- A tag with a handle. -/
def shorthandTag (fuel : Nat) (c : Cursor) : Scan (Token × Cursor) := do
  let (handle, after) := tagHandle c
  if handle.length > 1 && handle.getLast? == some '!' then
    let (suffix, c) ← tagChars false fuel after
    require !suffix.isEmpty
    return (.tag (String.ofList handle) (String.ofList suffix), c)
  else
    let (suffix, c) ← tagChars false fuel after
    let suffix := handle.drop 1 ++ suffix
    return (if suffix.isEmpty then .tag "" "!" else .tag "!" (String.ofList suffix), c)

/-- A tag. -/
def tag (fuel : Nat) : Scan Unit := do
  rememberKey
  allowKey false
  let c ← cursor
  let (token, after) ← if c.peek 1 == some '<' then verbatimTag fuel c else shorthandTag fuel c
  require (endsWord after.rest || (← inFlow) && after.peek 0 == some ',')
  moveTo after
  emit token

/-- The number of digits of a version. -/
def versionNumber (c : Cursor) : Scan (Nat × Cursor) := do
  let (digits, after) := c.span Char.isDigit
  require (!digits.isEmpty && digits.length ≤ 9)
  return (digits.foldl (fun n d => n * 10 + (d.toNat - '0'.toNat)) 0, after)

/-- The directive that names the version of the format. -/
def versionDirective (c : Cursor) : Scan (Token × Cursor) := do
  let (major, c) ← versionNumber (c.skip isGap)
  require (c.peek 0 == some '.')
  let (minor, c) ← versionNumber (c.advance 1)
  return (.version major minor, c)

/-- The directive that gives a meaning to a tag handle. -/
def tagDirective (fuel : Nat) (c : Cursor) : Scan (Token × Cursor) := do
  let c := c.skip isGap
  require (c.peek 0 == some '!')
  let (handle, c) := tagHandle c
  require (handle.getLast? == some '!' && (c.peek 0).any isGap)
  let (start, c) ← tagChars true fuel (c.skip isGap)
  require (!start.isEmpty && endsWord c.rest)
  return (.tagDirective (String.ofList handle) (String.ofList start), c)

/-- A directive. -/
def directive (fuel : Nat) : Scan Unit := do
  leaveBlocks
  let (name, c) := ((← cursor).advance 1).span isWordChar
  require (endsWord c.rest)
  let (token, c) ←
    if name == "YAML".toList then versionDirective c
    else if name == "TAG".toList then tagDirective fuel c
    else fail
  moveTo (← lift (lineEnd? c))
  emit token

/-! ### Scalars -/

/-- A plain scalar. -/
def plainScalar (fuel : Nat) : Scan Unit := do
  rememberKey
  allowKey false
  let s ← get
  let scalar ← lift (readPlain fuel (s.keys.length > 1) (s.indent + 1).toNat s.cursor)
  moveTo scalar.after
  if scalar.entersLine then allowKey true
  emit (.scalar (String.ofList scalar.text) true)

/-- A quoted scalar. -/
def quotedScalar (read : Cursor → Option (List Char × Cursor)) : Scan Unit := do
  rememberKey
  allowKey false
  let (text, after) ← lift (read (← cursor))
  moveTo after
  emit (.scalar (String.ofList text) false)

/-- A block scalar. -/
def blockScalar (fuel : Nat) : Scan Unit := do
  forgetKey
  allowKey true
  let s ← get
  let (text, after) ← lift (readBlock fuel s.indent s.cursor)
  moveTo after
  emit (.scalar (String.ofList text) false)

/-- The end of the text. -/
def finish : Scan Unit := leaveBlocks

/-- A plain scalar may start with these characters. -/
def startsPlain (flow : Bool) (c : Char) (rest : List Char) : Bool :=
  !("-?:,[]\x7b\x7d#&*!|>'\"%@`".toList.contains c || isGap c || isBreak c) ||
    c == '-' && !(rest.head?).any isGap ||
    !flow && (c == '?' || c == ':') && !endsWord rest

/-- The token that starts with a character. -/
def tokenAt (fuel : Nat) (c : Char) (rest : List Char) : Scan Unit := do
  let s ← get
  let flow := s.keys.length > 1
  if s.cursor.column == 0 && c == '%' then directive fuel
  else if s.cursor.atDocumentStart then documentMark .documentStart
  else if s.cursor.atDocumentEnd then documentMark .documentEnd
  else if c == '[' then flowStart .flowSequenceStart
  else if c == '{' then flowStart .flowMappingStart
  else if c == ']' then flowEnd .flowSequenceEnd
  else if c == '}' then flowEnd .flowMappingEnd
  else if c == ',' then flowEntry
  else if c == '-' && endsWord rest then blockEntry
  else if c == '?' && (flow || endsWord rest) then keyMark
  else if c == ':' && (flow || endsWord rest) then valueMark
  else if c == '*' then anchorName .alias
  else if c == '&' then anchorName .anchor
  else if c == '!' then tag fuel
  else if (c == '|' || c == '>') && !flow then blockScalar fuel
  else if c == '\'' then quotedScalar (readSingleQuoted fuel)
  else if c == '"' then quotedScalar (readDoubleQuoted fuel)
  else if startsPlain flow c rest then plainScalar fuel
  else fail

/-- The tokens from the place on. -/
def tokensFrom (size : Nat) : (fuel : Nat) → Scan Unit
  | 0 => fail
  | fuel + 1 => do
    skipSpacing size
    expireKeys
    let c ← cursor
    closeBlocks c.column
    match c.rest with
    | [] => finish
    | char :: rest => do
      tokenAt size char rest
      tokensFrom size fuel

end Scan

/-- The tokens of a text, if it is well formed. Every step but the last one takes a character, so
the length of the text bounds all of them. -/
def tokens? (text : String) : Option (List Token) := do
  let cs ← readable? text
  let size := cs.length + 1
  let (_, s) ← (Scan.tokensFrom size (size + 1)).run { cursor := { rest := cs } }
  return s.tokens.toList

end Cascade.Yaml
