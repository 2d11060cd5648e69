import Cascade.Expr.Printer
import Cascade.Number.Range
import Cascade.Text.Parser

/-!
# The grammar of expressions

Precedence, lowest first: `||`; `?:`; juxtaposition, which needs spacing; `-or` and `-and`, which
need spacing; comparison, at most one; `+ -`; `* / %`; signs, markers, `merge`, `auto`, `prefer` and
lambdas; calls, currying, fields, indices, slices and projections, which follow their operand
without spacing.

Every rule is a parser that takes the parsers of nested expressions as a parameter, a `Grammar`. The
grammar of depth `n + 1` nests the one of depth `n`. A nested expression starts after at least one
character of the expression around it, so a depth above the length of the text is never exhausted.

## Main definitions

* `Grammar`, `Grammar.ofDepth`: the parsers of nested expressions.
* `Grammar.fallback` down to `Grammar.primary`: one rule per level.
-/

namespace Cascade

/-- The parsers that rules use for what is nested in them. -/
structure Grammar where
  /-- A whole expression. -/
  expression : Parser Expr
  /-- An expression without `||` at its top. -/
  conditional : Parser Expr
  /-- An operand of the arithmetic operators. -/
  operand : Parser Expr

namespace Grammar

open Cascade.Parser

/-! ### Words -/

/-- What is left continues a name. A hyphen does so only before a letter or an underscore. -/
def continuesName : List Char → Bool
  | '-' :: c :: _ => Expr.isNameStart c
  | c :: _ => Expr.isNamePart c
  | [] => false

/-- The rest of a name, and what follows it. -/
def nameRest : List Char → List Char × List Char
  | [] => ([], [])
  | c :: rest =>
    if continuesName (c :: rest) then
      let (name, after) := nameRest rest
      (c :: name, after)
    else ([], c :: rest)

/-- A name. -/
def identifier : Parser String := do
  let first ← satisfy Expr.isNameStart
  fun cs =>
    let (name, after) := nameRest cs
    .accepted (String.ofList (first :: name)) after

/-- A word that no name continues. -/
def keyword (w : String) : Parser Unit := do
  word w.toList
  fun cs => if continuesName cs then .failed cs else .accepted () cs

/-- A step of a path: a name or digits. -/
def pathSegment : Parser String :=
  choose [identifier, String.ofList <$> digits1]

/-- A step behind a point. -/
def fieldStep : Parser String := do
  char '.'
  pathSegment

/-- A comma between items. -/
def comma : Parser Unit := spaced (char ',')

/-- The end of a bracketed list, after which a last comma may stand. -/
def closing (bracket : Char) : Parser Unit := do
  spaces
  let _ ← optional (do char ','; spaces)
  char bracket

/-! ### Literals -/

/-- The text of an unsigned number: digits, a fraction and an exponent. -/
structure NumberText where
  whole : List Char
  fraction : Option (List Char)
  exponent : Option (Bool × List Char)

/-- The sign of an exponent. -/
def exponentSign : Parser Bool :=
  choose [(fun _ => false) <$> char '+', (fun _ => true) <$> char '-', yield false]

/-- The text of a number. -/
def numberText : Parser NumberText := do
  let whole ← digits1
  let fraction ← optional (do char '.'; digits1)
  let exponent ← optional (do
    let _ ← satisfy fun c => c == 'e' || c == 'E'
    let negative ← exponentSign
    return (negative, ← digits1))
  return ⟨whole, fraction, exponent⟩

/-- The literal of a number. Digits alone are an int, which must fit into 64 bits. -/
def NumberText.literal? (t : NumberText) (negative : Bool) : Option Expr :=
  match t.fraction, t.exponent with
  | none, none =>
    let n : Int := naturalOfDigits t.whole
    let n := if negative then -n else n
    if FitsInt n then some (.int (Int64.ofInt n)) else none
  | fraction, exponent =>
    let fraction := fraction.getD []
    let scale : Int := match exponent with
      | none => 0
      | some (isNegative, digits) =>
        if isNegative then -(naturalOfDigits digits : Int) else naturalOfDigits digits
    some (.float (Binary64.ofDecimal negative (naturalOfDigits (t.whole ++ fraction))
      (scale - fraction.length)))

/-- A number, whose sign is read already. -/
def number (negative : Bool) : Parser Expr := do
  let text ← numberText
  match text.literal? negative with
  | some literal => return literal
  | none => fail

/-- A character of a string literal. -/
def stringChar : Parser Char :=
  choose [
    (do
      char '\\'
      choose [
        (fun _ => '"') <$> char '"',
        (fun _ => '\\') <$> char '\\',
        (fun _ => '\n') <$> char 'n',
        (fun _ => '\t') <$> char 't',
        (fun _ => '\r') <$> char 'r']),
    satisfy fun c => c != '"' && c != '\\']

/-- A string literal. -/
def stringLiteral : Parser String := do
  char '"'
  let cs ← many stringChar
  char '"'
  return String.ofList cs

/-! ### References -/

/-- The name of a tag, with the number of a stub. -/
def tagName : Parser String := do
  let name ← identifier
  match ← optional (do char '.'; digits1) with
  | none => return name
  | some digits => return name ++ "." ++ String.ofList digits

/-- A reference. A keyword is one only behind a tag or a point. -/
def reference : Parser Reference := do
  let tag ← optional (do let name ← tagName; word [':', ':']; return name)
  let absolute := (← optional (char '.')).isSome
  let first ← identifier
  if tag.isNone && !absolute && isKeyword first then fail
  else
    let rest ← many fieldStep
    return ⟨tag, absolute, first :: rest⟩

/-! ### Markers and merge forms -/

/-- A marker. -/
def marker : Parser Marker := do
  char '&'
  match MarkerId.ofName? (← identifier) with
  | some .tag => char ':'; return .tag (← tagName)
  | some id => return .flag id
  | none => fail

/-- The path of a merge form. -/
def mergePath : Parser (List String) := do
  let first ← identifier
  if isKeyword first then fail
  else return first :: (← many fieldStep)

/-- `replace` or `required`; true for the first. -/
def mergeFlag : Parser Bool := do
  spaces1
  choose [(fun _ => true) <$> keyword "replace", (fun _ => false) <$> keyword "required"]

/-- A merge form. -/
def mergeForm : Parser Expr := do
  keyword "merge"
  notFollowedBy (char '(')
  let flags ← many mergeFlag
  let key ← optional (do spaces1; keyword "on"; spaces1; identifier)
  let path ← optional (do spaces1; mergePath)
  return .merge ⟨path, flags.contains false, flags.contains true, key⟩

section Rules

variable (g : Grammar)

/-- Markers and the expression that they annotate. -/
def marked : Parser Expr := do
  let first ← marker
  let rest ← many (do spaces; marker)
  let expr ← optional (do spaces; g.expression)
  return .marked (first :: rest) expr

/-! ### Lambdas and arguments -/

/-- The parameter of a lambda. -/
def parameter : Parser Parameter := do
  let name ← identifier
  let variadic := (← optional (word "...".toList)).isSome
  if variadic then return ⟨name, none, true⟩
  else
    let default ← optional (do spaced (char '='); g.expression)
    return ⟨name, default, false⟩

/-- A lambda. -/
def lambda : Parser Expr := do
  let _ ← optional (do keyword "lambda"; spaces)
  char '|'
  spaces
  let params ← separated g.parameter comma
  spaces
  char '|'
  spaces
  word "->".toList
  spaces
  let body ← g.expression
  return .lambda ⟨params, body⟩

/-- A single equals sign. -/
def assignment : Parser Unit := do
  spaces
  char '='
  notFollowedBy (char '=')
  spaces

/-- The position of a parameter, which must fit into 64 bits. -/
def position : Parser Nat := do
  let n := naturalOfDigits (← digits1)
  if FitsWord n then return n else fail

/-- The argument of a call. -/
def argument : Parser Argument :=
  choose [
    (do let name ← identifier; assignment; return .named name (← g.expression)),
    (do let index ← position; assignment; return .indexed index (← g.expression)),
    (do
      let e ← g.expression
      let spread := (← optional (word "...".toList)).isSome
      return if spread then .spread e else .positional e)]

/-- Arguments in parentheses. -/
def arguments : Parser (List Argument) := do
  char '('
  spaces
  let args ← separated g.argument comma
  closing ')'
  return args

/-! ### Postfix forms -/

/-- What may follow an operand. -/
inductive Postfix where
  | call (args : List Argument)
  | curry (args : List Argument)
  | field (name : String)
  | project
  | slice (start stop : Option Expr)
  | index (index : Expr)

/-- The inside of an index in square brackets. -/
def indexBody : Parser Postfix := do
  match ← optional (do char '*'; followedBy (do spaces; char ']')) with
  | some _ => return .project
  | none =>
    let start ← optional g.expression
    match ← optional (spaced (word "..".toList)) with
    | some _ => return .slice start (← optional g.expression)
    | none =>
      match start with
      | some index => return .index index
      | none => fail

/-- An index in square brackets. -/
def indexSuffix : Parser Postfix := do
  char '['
  spaces
  let body ← g.indexBody
  spaces
  char ']'
  return body

/-- A postfix form. -/
def postfixForm : Parser Postfix :=
  choose [
    Postfix.call <$> g.arguments,
    (do char '*'; Postfix.curry <$> g.arguments),
    (do let _ ← optional (char '.'); g.indexSuffix),
    Postfix.field <$> fieldStep]

/-- The index of a path step. -/
def indexSegment (n : Int64) : String := "[" ++ toString n.toInt ++ "]"

/-- An operand with a postfix form. A field or a literal index of a reference is a step of its
path; the call of a plain name may be an intrinsic one. -/
def applyPostfix (e : Expr) : Postfix → Expr
  | .call args =>
    match e with
    | .reference r =>
      match r.simpleName?.bind Intrinsic.ofName? with
      | some id => .intrinsic id args
      | none => .call e args
    | _ => .call e args
  | .curry args => .curry e args
  | .field name =>
    match e with
    | .reference r => .reference { r with path := r.path ++ [name] }
    | .projection base path => .projection base (path ++ [name])
    | .qualified base path => .qualified base (path ++ [name])
    | other => .qualified other [name]
  | .project => .projection e []
  | .slice start stop => .slice e start stop
  | .index index =>
    match e, index with
    | .reference r, .int n => .reference { r with path := r.path ++ [indexSegment n] }
    | base, index => .dynamic base index

/-! ### Primaries -/

/-- A range or a list in square brackets. -/
def listLiteral : Parser Expr := do
  char '['
  spaces
  match ← optional g.expression with
  | none => closing ']'; return .list []
  | some first =>
    let range ← optional (do
      spaced (word "..".toList)
      let stop ← g.expression
      spaces
      char ']'
      return stop)
    match range with
    | some stop => return .range first stop
    | none =>
      let rest ← many (do comma; g.expression)
      closing ']'
      return .list (first :: rest)

/-- The entry of a map literal. -/
def mapEntry : Parser (String × Expr) := do
  let key ← choose [stringLiteral, identifier]
  let _ ← spaced (satisfy fun c => c == '=' || c == ':')
  return (key, ← g.expression)

/-- A map in braces. -/
def mapLiteral : Parser Expr := do
  char '{'
  spaces
  let entries ← separated g.mapEntry comma
  closing '}'
  return .map entries

/-- An expression in parentheses. -/
def group : Parser Expr := do
  char '('
  spaces
  let e ← g.expression
  spaces
  char ')'
  return .grouped e

/-- The call form of `merge`, which no name but a keyword spells. -/
def mergeCall : Parser Expr := do
  word "merge".toList
  followedBy (char '(')
  return .intrinsic .merge (← g.arguments)

/-- An operand without postfix forms. -/
def primary : Parser Expr :=
  choose [
    number false,
    Expr.string <$> stringLiteral,
    (fun _ => .bool true) <$> keyword "true",
    (fun _ => .bool false) <$> keyword "false",
    (fun _ => .nil) <$> keyword "nil",
    (fun _ => .undefined) <$> word "~~".toList,
    (fun _ => .nil) <$> char '~',
    g.listLiteral,
    g.mapLiteral,
    g.group,
    g.mergeCall,
    Expr.reference <$> reference]

/-- An operand with its postfix forms. Literals have none. -/
def chain : Parser Expr := do
  let e ← g.primary
  if e.isLiteral then return e
  else
    let forms ← many g.postfixForm
    return forms.foldl applyPostfix e

/-- An operand of the arithmetic operators. -/
def operandRule : Parser Expr :=
  choose [
    (do char '!'; spaces; Expr.not <$> g.operand),
    (do char '*'; Expr.substitution <$> g.operand),
    g.marked,
    mergeForm,
    (fun _ => .auto) <$> keyword "auto",
    (do keyword "prefer"; spaces1; Expr.prefer <$> g.operand),
    g.lambda,
    (do char '-'; number true),
    g.chain]

/-! ### Operators -/

/-- Operands joined from the left by operators of one level. -/
def joined {α : Type} (operand : Parser Expr) (operator : Parser α)
    (join : α → Expr → Expr → Expr) :
    Parser Expr := do
  let first ← operand
  let rest ← many (do let op ← operator; return (op, ← operand))
  return rest.foldl (fun lhs (op, rhs) => join op lhs rhs) first

/-- `* / %`. -/
def productOp : Parser ArithmeticOp :=
  spaced (choose [
    (fun _ => .mul) <$> char '*',
    (fun _ => .div) <$> char '/',
    (fun _ => .mod) <$> char '%'])

/-- The word of a logical operator. -/
def logicWord : Parser LogicOp :=
  choose [(fun _ => .or) <$> keyword "or", (fun _ => .and) <$> keyword "and"]

/-- `+`, or a `-` that starts no logical operator. -/
def sumOp : Parser ArithmeticOp :=
  spaced (choose [
    (fun _ => .add) <$> char '+',
    (do char '-'; notFollowedBy logicWord; return .sub)])

/-- Comparison operators. -/
def comparisonOp : Parser ComparisonOp :=
  spaced (choose [
    (fun _ => .eq) <$> word "==".toList,
    (fun _ => .ne) <$> word "!=".toList,
    (fun _ => .le) <$> word "<=".toList,
    (fun _ => .ge) <$> word ">=".toList,
    (fun _ => .lt) <$> char '<',
    (fun _ => .gt) <$> char '>'])

/-- `-or` and `-and`. -/
def logicOp : Parser LogicOp := do
  spaces1
  char '-'
  let op ← logicWord
  spaces1
  return op

/-- Products. -/
def product : Parser Expr := joined g.operandRule productOp Expr.arithmetic

/-- Sums. -/
def sum : Parser Expr := joined g.product sumOp Expr.arithmetic

/-- At most one comparison. -/
def comparison : Parser Expr := do
  let lhs ← g.sum
  match ← optional (do let op ← comparisonOp; return (op, ← g.sum)) with
  | some (op, rhs) => return .comparison op lhs rhs
  | none => return lhs

/-- Logical operators. -/
def logical : Parser Expr := joined g.comparison logicOp Expr.logical

/-- Juxtaposition. -/
def concatenation : Parser Expr := joined g.logical spaces1 fun _ => Expr.concatenation

/-- A condition with its branches. -/
def conditionalRule : Parser Expr := do
  let condition ← g.concatenation
  let branches ← optional (do
    spaced (char '?')
    let onTrue ← g.expression
    spaced (char ':')
    return (onTrue, ← g.conditional))
  match branches with
  | some (onTrue, onFalse) => return .conditional condition onTrue onFalse
  | none => return condition

/-- Alternatives for failures. -/
def fallback : Parser Expr :=
  joined g.conditionalRule (spaced (word "||".toList)) fun _ => Expr.fallback

end Rules

/-- The grammar in which expressions nest at most `depth` times. -/
def ofDepth : Nat → Grammar
  | 0 => ⟨fail, fail, fail⟩
  | depth + 1 =>
    let nested := ofDepth depth
    ⟨nested.fallback, nested.conditionalRule, nested.operandRule⟩

end Grammar

end Cascade
