import Cascade.Vocabulary

/-!
# Expressions

The tree of an expression as written between `((` and `))`. Grouping parentheses are kept as nodes,
so a tree determines its text up to spacing. Calls keep their arguments in written order, map
literals their entries.

## Main definitions

* `Expr` with its parts `Argument`, `Parameter`, `LambdaExpr`.
* `Expr.walk`: all nodes outside lambda bodies, parents first.
* `Expr.markers`, `Expr.isPreferred`, `Expr.containsMerge`: what can be told without evaluating.
* `Expr.same`: equality of trees; float literals compare as numbers.
-/

namespace Cascade

/-- A reference to a node: `name.path`, `.absolute.path`, `tag::path`. -/
structure Reference where
  tag : Option String
  absolute : Bool
  path : List String
deriving Repr, DecidableEq

namespace Reference

/-- A reference without tag that is not absolute. -/
def relative (path : List String) : Reference := ⟨none, false, path⟩

/-- The name of a relative reference of one segment. -/
def simpleName? : Reference → Option String
  | ⟨none, false, [name]⟩ => some name
  | _ => none

end Reference

/-- Operators on numbers and addresses. -/
inductive ArithmeticOp where
  | add
  | sub
  | mul
  | div
  | mod
deriving Repr, DecidableEq

/-- The written form of an operator. -/
def ArithmeticOp.symbol : ArithmeticOp → String
  | .add => "+"
  | .sub => "-"
  | .mul => "*"
  | .div => "/"
  | .mod => "%"

/-- Comparison operators. -/
inductive ComparisonOp where
  | eq
  | ne
  | lt
  | le
  | gt
  | ge
deriving Repr, DecidableEq

/-- The written form of an operator. -/
def ComparisonOp.symbol : ComparisonOp → String
  | .eq => "=="
  | .ne => "!="
  | .lt => "<"
  | .le => "<="
  | .gt => ">"
  | .ge => ">="

/-- Operators on truth values; the right operand is evaluated only if the left one leaves the
answer open. -/
inductive LogicOp where
  | and
  | or
deriving Repr, DecidableEq

/-- The written form of an operator. -/
def LogicOp.symbol : LogicOp → String
  | .and => "-and"
  | .or => "-or"

/-- `merge [replace] [required] [on key] [path]`. -/
structure MergeExpr where
  path : Option (List String)
  required : Bool
  replace : Bool
  key : Option String
deriving Repr, DecidableEq

/-- An annotation marker as written. -/
inductive Marker where
  | flag (id : MarkerId)
  | tag (name : String)
deriving Repr, DecidableEq

mutual

/-- An expression. -/
inductive Expr where
  | nil
  /-- The explicit absence of a value, written as two tildes. -/
  | undefined
  | bool (value : Bool)
  | int (value : Int64)
  | float (value : Float)
  | string (value : String)
  | reference (reference : Reference)
  | arithmetic (op : ArithmeticOp) (lhs rhs : Expr)
  /-- Two operands side by side. -/
  | concatenation (lhs rhs : Expr)
  | comparison (op : ComparisonOp) (lhs rhs : Expr)
  /-- The right operand if the left one fails or has no value. -/
  | fallback (lhs rhs : Expr)
  | logical (op : LogicOp) (lhs rhs : Expr)
  | not (operand : Expr)
  | conditional (condition onTrue onFalse : Expr)
  | list (items : List Expr)
  /-- The ints from one bound to the other, both included. -/
  | range (start stop : Expr)
  | map (entries : List (String × Expr))
  | call (callee : Expr) (args : List Argument)
  /-- A call that receives its arguments unevaluated. -/
  | intrinsic (id : Intrinsic) (args : List Argument)
  /-- Binds some parameters of a lambda. -/
  | curry (callee : Expr) (args : List Argument)
  | lambda (lambda : LambdaExpr)
  | merge (merge : MergeExpr)
  | auto
  | marked (markers : List Marker) (expr : Option Expr)
  /-- A value that no stub overrides. -/
  | prefer (operand : Expr)
  /-- The result of flowing a template. -/
  | substitution (operand : Expr)
  | dynamic (base index : Expr)
  | slice (base : Expr) (start stop : Option Expr)
  /-- A path followed in every element. -/
  | projection (base : Expr) (path : List String)
  /-- A path followed in a computed value. -/
  | qualified (base : Expr) (path : List String)
  | grouped (inner : Expr)

/-- The argument of a call. -/
inductive Argument where
  | positional (expr : Expr)
  | named (name : String) (expr : Expr)
  /-- The parameter is given by its position, counted from one. -/
  | indexed (index : Nat) (expr : Expr)
  /-- The elements of a list, as positional arguments. -/
  | spread (expr : Expr)

/-- The parameter of a lambda. -/
structure Parameter where
  name : String
  default : Option Expr
  variadic : Bool

/-- `|x, y=2, rest...|-> body`. -/
structure LambdaExpr where
  params : List Parameter
  body : Expr

end

instance : Inhabited Expr := ⟨.nil⟩
instance : Inhabited LambdaExpr := ⟨⟨[], .nil⟩⟩

/-- The expression of an argument, however it is passed. -/
def Argument.expr : Argument → Expr
  | .positional e => e
  | .named _ e => e
  | .indexed _ e => e
  | .spread e => e

namespace Expr

/-- The expression without parentheses around it. -/
def ungrouped : Expr → Expr
  | .grouped inner => inner.ungrouped
  | e => e

/-- Markers attached at the top, outermost first. -/
def markers : Expr → List Marker
  | .grouped inner => inner.markers
  | .marked ms none => ms
  | .marked ms (some inner) => ms ++ inner.markers
  | _ => []

/-- The marker is attached at the top. -/
def hasMarker (e : Expr) (id : MarkerId) : Bool :=
  e.markers.any fun
    | .flag flag => flag == id
    | .tag _ => false

/-- A `prefer` form, possibly under markers. -/
def isPreferred : Expr → Bool
  | .grouped inner => inner.isPreferred
  | .prefer _ => true
  | .marked _ (some inner) => inner.isPreferred
  | _ => false

/-- A literal, which takes no call, index or field. -/
def isLiteral : Expr → Bool
  | .nil => true
  | .undefined => true
  | .bool _ => true
  | .int _ => true
  | .float _ => true
  | .string _ => true
  | _ => false

mutual

/-- All nodes of an expression, each before its operands. Lambda bodies are not entered. -/
def walk : Expr → List Expr
  | e@(.arithmetic _ l r) => e :: (l.walk ++ r.walk)
  | e@(.concatenation l r) => e :: (l.walk ++ r.walk)
  | e@(.comparison _ l r) => e :: (l.walk ++ r.walk)
  | e@(.fallback l r) => e :: (l.walk ++ r.walk)
  | e@(.logical _ l r) => e :: (l.walk ++ r.walk)
  | e@(.not o) => e :: o.walk
  | e@(.conditional c t f) => e :: (c.walk ++ t.walk ++ f.walk)
  | e@(.list items) => e :: walkList items
  | e@(.range a b) => e :: (a.walk ++ b.walk)
  | e@(.map entries) => e :: walkEntries entries
  | e@(.call callee args) => e :: (callee.walk ++ walkArguments args)
  | e@(.intrinsic _ args) => e :: walkArguments args
  | e@(.curry callee args) => e :: (callee.walk ++ walkArguments args)
  | e@(.marked _ inner) => e :: walkOption inner
  | e@(.prefer o) => e :: o.walk
  | e@(.substitution o) => e :: o.walk
  | e@(.dynamic b i) => e :: (b.walk ++ i.walk)
  | e@(.slice b s t) => e :: (b.walk ++ walkOption s ++ walkOption t)
  | e@(.projection b _) => e :: b.walk
  | e@(.qualified b _) => e :: b.walk
  | e@(.grouped inner) => e :: inner.walk
  | e => [e]

/-- The nodes of list items. -/
def walkList : List Expr → List Expr
  | [] => []
  | e :: rest => e.walk ++ walkList rest

/-- The nodes of map entries. -/
def walkEntries : List (String × Expr) → List Expr
  | [] => []
  | (_, e) :: rest => e.walk ++ walkEntries rest

/-- The nodes of arguments. -/
def walkArguments : List Argument → List Expr
  | [] => []
  | .positional e :: rest => e.walk ++ walkArguments rest
  | .named _ e :: rest => e.walk ++ walkArguments rest
  | .indexed _ e :: rest => e.walk ++ walkArguments rest
  | .spread e :: rest => e.walk ++ walkArguments rest

/-- The nodes of an operand that may be absent. -/
def walkOption : Option Expr → List Expr
  | none => []
  | some e => e.walk

end

/-- The node reads stubs. -/
def readsStub : Expr → Bool
  | .merge _ => true
  | .intrinsic id _ => id == .merge || id == .stub
  | _ => false

/-- A stub is read somewhere outside lambda bodies. -/
def containsMerge (e : Expr) : Bool :=
  e.walk.any readsStub

mutual

/-- Equality of trees. Float literals are compared as numbers. -/
def same : Expr → Expr → Bool
  | .nil, .nil => true
  | .undefined, .undefined => true
  | .bool a, .bool b => a == b
  | .int a, .int b => a == b
  | .float a, .float b => a == b
  | .string a, .string b => a == b
  | .reference a, .reference b => a == b
  | .arithmetic o a b, .arithmetic o' a' b' => o == o' && same a a' && same b b'
  | .concatenation a b, .concatenation a' b' => same a a' && same b b'
  | .comparison o a b, .comparison o' a' b' => o == o' && same a a' && same b b'
  | .fallback a b, .fallback a' b' => same a a' && same b b'
  | .logical o a b, .logical o' a' b' => o == o' && same a a' && same b b'
  | .not a, .not a' => same a a'
  | .conditional a b c, .conditional a' b' c' => same a a' && same b b' && same c c'
  | .list a, .list a' => sameList a a'
  | .range a b, .range a' b' => same a a' && same b b'
  | .map a, .map a' => sameEntries a a'
  | .call a b, .call a' b' => same a a' && sameArguments b b'
  | .intrinsic i a, .intrinsic i' a' => i == i' && sameArguments a a'
  | .curry a b, .curry a' b' => same a a' && sameArguments b b'
  | .lambda a, .lambda a' => sameLambda a a'
  | .merge a, .merge a' => a == a'
  | .auto, .auto => true
  | .marked m a, .marked m' a' => m == m' && sameOption a a'
  | .prefer a, .prefer a' => same a a'
  | .substitution a, .substitution a' => same a a'
  | .dynamic a b, .dynamic a' b' => same a a' && same b b'
  | .slice a b c, .slice a' b' c' => same a a' && sameOption b b' && sameOption c c'
  | .projection a p, .projection a' p' => same a a' && p == p'
  | .qualified a p, .qualified a' p' => same a a' && p == p'
  | .grouped a, .grouped a' => same a a'
  | _, _ => false

/-- Equality of list items. -/
def sameList : List Expr → List Expr → Bool
  | [], [] => true
  | a :: as, b :: bs => same a b && sameList as bs
  | _, _ => false

/-- Equality of map entries, in written order. -/
def sameEntries : List (String × Expr) → List (String × Expr) → Bool
  | [], [] => true
  | (k, a) :: as, (l, b) :: bs => k == l && same a b && sameEntries as bs
  | _, _ => false

/-- Equality of arguments. -/
def sameArguments : List Argument → List Argument → Bool
  | [], [] => true
  | .positional a :: as, .positional b :: bs => same a b && sameArguments as bs
  | .named k a :: as, .named l b :: bs => k == l && same a b && sameArguments as bs
  | .indexed k a :: as, .indexed l b :: bs => k == l && same a b && sameArguments as bs
  | .spread a :: as, .spread b :: bs => same a b && sameArguments as bs
  | _, _ => false

/-- Equality of operands that may be absent. -/
def sameOption : Option Expr → Option Expr → Bool
  | none, none => true
  | some a, some b => same a b
  | _, _ => false

/-- Equality of parameters. -/
def sameParameters : List Parameter → List Parameter → Bool
  | [], [] => true
  | ⟨n, d, v⟩ :: as, ⟨n', d', v'⟩ :: bs =>
    n == n' && sameOption d d' && v == v' && sameParameters as bs
  | _, _ => false

/-- Equality of lambdas. -/
def sameLambda : LambdaExpr → LambdaExpr → Bool
  | ⟨ps, b⟩, ⟨ps', b'⟩ => sameParameters ps ps' && same b b'

end

end Expr

end Cascade
