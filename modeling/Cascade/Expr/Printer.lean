import Cascade.Expr.Basic
import Cascade.Number.Shortest

/-!
# Printing expressions

The canonical text of an expression: one space around binary operators, `, ` between items, no
parentheses but those the tree holds. Reading a printed expression gives the expression back.

## Main definitions

* `Expr.print`: the characters of the text; `Expr.render`: the text.
* `Expr.quote`: a string literal.
-/

namespace Cascade

namespace Expr

/-- The characters of a string literal that stand for one character. -/
def quoteChar (c : Char) : List Char :=
  match c with
  | '"' => ['\\', '"']
  | '\\' => ['\\', '\\']
  | '\n' => ['\\', 'n']
  | '\t' => ['\\', 't']
  | '\r' => ['\\', 'r']
  | other => [other]

/-- A string literal. -/
def quote (s : String) : List Char :=
  '"' :: (s.toList.flatMap quoteChar ++ ['"'])

/-- A letter or an underscore starts a name. -/
def isNameStart (c : Char) : Bool := c.isAlpha || c == '_'

/-- Letters, digits and underscores continue a name. -/
def isNamePart (c : Char) : Bool := c.isAlphanum || c == '_'

/-- Keys of map literals that are written without quotes. -/
def isPlainKey (key : String) : Bool :=
  match key.toList with
  | c :: rest => isNameStart c && rest.all isNamePart
  | [] => false

/-- The key of a map literal. -/
def printKey (key : String) : List Char :=
  if isPlainKey key then key.toList else quote key

/-- Segments after a base, each behind a point. -/
def printPath (path : List String) : List Char :=
  path.flatMap fun segment => '.' :: segment.toList

/-- Segments separated by points. -/
def printDotted (path : List String) : List Char :=
  (".".intercalate path).toList

end Expr

/-- The characters of a reference. -/
def Reference.print (r : Reference) : List Char :=
  (match r.tag with
    | some tag => tag.toList ++ [':', ':']
    | none => []) ++
  (if r.absolute then ['.'] else []) ++ Expr.printDotted r.path

/-- The text of a reference. -/
def Reference.render (r : Reference) : String := String.ofList r.print

/-- The text of a marker. -/
def Marker.render : Marker → String
  | .flag id => "&" ++ id.name
  | .tag name => "&tag:" ++ name

/-- The characters of a merge form. -/
def MergeExpr.print (m : MergeExpr) : List Char :=
  "merge".toList ++
  (if m.replace then " replace".toList else []) ++
  (if m.required then " required".toList else []) ++
  (match m.key with
    | some key => " on ".toList ++ key.toList
    | none => []) ++
  (match m.path with
    | some path => ' ' :: Expr.printDotted path
    | none => [])

namespace Expr

/-- The characters of an int literal. -/
def printInt (n : Int64) : List Char := (toString n.toInt).toList

/-- Two operands around an operator. -/
def infixed (lhs : List Char) (op : String) (rhs : List Char) : List Char :=
  lhs ++ ' ' :: (op.toList ++ ' ' :: rhs)

mutual

/-- The characters of an expression. -/
def print : Expr → List Char
  | .nil => "nil".toList
  | .undefined => "~~".toList
  | .bool b => (if b then "true" else "false").toList
  | .int n => printInt n
  | .float x => (Notation.literal.write x).toList
  | .string s => quote s
  | .reference r => r.print
  | .arithmetic op l r => infixed l.print op.symbol r.print
  | .concatenation l r => l.print ++ ' ' :: r.print
  | .comparison op l r => infixed l.print op.symbol r.print
  | .fallback l r => infixed l.print "||" r.print
  | .logical op l r => infixed l.print op.symbol r.print
  | .not e => '!' :: e.print
  | .conditional c t f => infixed (infixed c.print "?" t.print) ":" f.print
  | .list items => '[' :: (printItems items ++ [']'])
  | .range a b => '[' :: (a.print ++ '.' :: '.' :: (b.print ++ [']']))
  | .map [] => ['{', '}']
  | .map (entry :: rest) => '{' :: ' ' :: (printEntries (entry :: rest) ++ [' ', '}'])
  | .call callee args => callee.print ++ '(' :: (printArguments args ++ [')'])
  | .intrinsic id args => id.name.toList ++ '(' :: (printArguments args ++ [')'])
  | .curry callee args => callee.print ++ '*' :: '(' :: (printArguments args ++ [')'])
  | .lambda l => printLambda l
  | .merge m => m.print
  | .auto => "auto".toList
  | .marked markers inner =>
    (" ".intercalate (markers.map Marker.render)).toList ++ printMarked inner
  | .prefer e => "prefer ".toList ++ e.print
  | .substitution e => '*' :: e.print
  | .dynamic b i => b.print ++ '.' :: '[' :: (i.print ++ [']'])
  | .slice b s t =>
    b.print ++ '.' :: '[' :: (printOption s ++ '.' :: '.' :: (printOption t ++ [']']))
  | .projection b path => b.print ++ ".[*]".toList ++ printPath path
  | .qualified b path => b.print ++ printPath path
  | .grouped e => '(' :: (e.print ++ [')'])

/-- List items separated by commas. -/
def printItems : List Expr → List Char
  | [] => []
  | [e] => e.print
  | e :: rest => e.print ++ ',' :: ' ' :: printItems rest

/-- Map entries separated by commas. -/
def printEntries : List (String × Expr) → List Char
  | [] => []
  | [(key, e)] => printKey key ++ " = ".toList ++ e.print
  | (key, e) :: rest => printKey key ++ " = ".toList ++ e.print ++ ',' :: ' ' :: printEntries rest

/-- An argument. -/
def printArgument : Argument → List Char
  | .positional e => e.print
  | .named name e => name.toList ++ '=' :: e.print
  | .indexed index e => (toString index).toList ++ '=' :: e.print
  | .spread e => e.print ++ "...".toList

/-- Arguments separated by commas. -/
def printArguments : List Argument → List Char
  | [] => []
  | [a] => printArgument a
  | a :: rest => printArgument a ++ ',' :: ' ' :: printArguments rest

/-- An operand that may be absent. -/
def printOption : Option Expr → List Char
  | none => []
  | some e => e.print

/-- The expression under markers, behind a space. -/
def printMarked : Option Expr → List Char
  | none => []
  | some e => ' ' :: e.print

/-- A default value behind its equals sign. -/
def printDefault : Option Expr → List Char
  | none => []
  | some e => '=' :: e.print

/-- A parameter. -/
def printParameter : Parameter → List Char
  | ⟨name, default, variadic⟩ =>
    name.toList ++ printDefault default ++ (if variadic then "...".toList else [])

/-- Parameters separated by commas. -/
def printParameters : List Parameter → List Char
  | [] => []
  | [p] => printParameter p
  | p :: rest => printParameter p ++ ',' :: ' ' :: printParameters rest

/-- A lambda. -/
def printLambda : LambdaExpr → List Char
  | ⟨params, body⟩ => '|' :: (printParameters params ++ "|->".toList ++ body.print)

end

/-- The text of an expression. -/
def render (e : Expr) : String := String.ofList e.print

/-- The text of an expression in the brackets that embed it in a document. -/
def embed (e : Expr) : String := "(( " ++ e.render ++ " ))"

end Expr

/-- The text of a lambda. -/
def LambdaExpr.render (l : LambdaExpr) : String := String.ofList (Expr.printLambda l)

/-- The text of a lambda in the brackets that embed it in a document. -/
def LambdaExpr.embed (l : LambdaExpr) : String := "(( " ++ l.render ++ " ))"

end Cascade
