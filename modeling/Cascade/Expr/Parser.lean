import Cascade.Expr.Grammar

/-!
# Reading expressions

`Expr.parse` reads the text between the brackets of an embedded expression. A text that is rejected
is rejected at a place: where the accepted part ends, or where the last alternative for a missing
operand stood. Lines count from one, columns count bytes from one.

## Main definitions

* `ParseError`: the cause and the place of a rejection; `ParseError.message`.
* `Expr.parse`.
-/

namespace Cascade

/-- A place in a text. -/
structure Place where
  line : Nat
  column : Nat
deriving Repr, DecidableEq

/-- The number of bytes of the UTF-8 form. -/
def byteLength (cs : List Char) : Nat :=
  cs.foldr (fun c n => c.utf8Size + n) 0

/-- The place after the characters read. -/
def Place.after (consumed : List Char) : Place :=
  ⟨consumed.count '\n' + 1, byteLength (consumed.reverse.takeWhile (· != '\n')) + 1⟩

/-- The place where `rest` starts at the end of `text`. -/
def Place.ofRest (text rest : List Char) : Place :=
  .after (text.take (text.length - rest.length))

/-- Why a text is not an expression. -/
inductive ParseCause where
  /-- An expression ends before this character. -/
  | unexpected (c : Char)
  /-- No expression starts here. -/
  | missingExpression
  /-- The text ends before an expression does. -/
  | endOfInput
deriving Repr, DecidableEq

/-- A rejected text. -/
structure ParseError where
  cause : ParseCause
  place : Place
deriving Repr, DecidableEq

namespace ParseError

/-- What is wrong, without the place. -/
def detail (e : ParseError) : String :=
  match e.cause with
  | .unexpected c => "unexpected character: '" ++ String.singleton c ++ "'"
  | .missingExpression => "expected an expression"
  | .endOfInput => "unexpected end of expression"

/-- The message of the error. -/
def message (e : ParseError) : String :=
  let place := toString e.place.line ++ ":" ++ toString e.place.column
  match e.cause with
  | .endOfInput => "unexpected end of input at " ++ place
  | _ => "syntax error at " ++ place ++ ": " ++ e.detail

end ParseError

namespace Expr

/-- An expression between spacing. -/
def whole (text : List Char) : Parsed Expr :=
  Parser.spaced (Grammar.ofDepth (text.length + 1)).expression text

/-- The expression of a text. -/
def parseChars (text : List Char) : Except ParseError Expr :=
  match whole text with
  | .accepted e [] => .ok e
  | .accepted _ (c :: rest) => .error ⟨.unexpected c, .ofRest text (c :: rest)⟩
  | .failed stopped =>
    let rest := Blank.dropLeading Blank.isBlank stopped
    .error ⟨if rest.isEmpty then .endOfInput else .missingExpression, .ofRest text rest⟩

/-- The expression of a text. -/
def parse (text : String) : Except ParseError Expr := parseChars text.toList

end Expr

/-- What a string of a document is. -/
inductive Embedded where
  /-- A plain string. -/
  | literal
  /-- The escaped form of a text in the brackets of an expression. -/
  | escaped (text : String)
  | expression (expr : Expr)
  | broken (error : ParseError)

namespace Embedded

/-- The characters between the brackets of an embedded expression, blanks around it ignored. -/
def inner? (text : String) : Option (List Char) :=
  match Blank.strip Blank.isBlank text.toList with
  | '(' :: '(' :: rest =>
    match rest.reverse with
    | ')' :: ')' :: inner => some inner.reverse
    | _ => none
  | _ => none

/-- What a string is. -/
def classify (text : String) : Embedded :=
  match inner? text with
  | none => .literal
  | some ('!' :: rest) => .escaped ("((" ++ String.ofList rest ++ "))")
  | some inner =>
    match Expr.parseChars inner with
    | .ok e => .expression e
    | .error e => .broken e

/-- The string stands in the brackets of an expression and is not escaped, whether or not what the
brackets hold can be read. -/
def isUnread (text : String) : Bool :=
  let trimmed := Blank.strip Blank.isBlank text.toList
  ['(', '('].isPrefixOf trimmed && [')', ')'].isPrefixOf trimmed.reverse &&
    !(['(', '(', '!'].isPrefixOf trimmed)

end Embedded

end Cascade
