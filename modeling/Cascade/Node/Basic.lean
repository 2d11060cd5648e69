import Cascade.Expr.Parser
import Cascade.Fields
import Cascade.Node.Annotations

/-!
# Nodes

A document is a tree of nodes: a value, its annotations and the name of the document that it came
from. Values are immutable. A pass over a document builds a new tree, and references of the new tree
are resolved against the old one, its snapshot.

A lambda is a value too. It remembers the scope in which it was created: the snapshot, the local
names and the place. So nodes, lambdas, scopes and snapshots are defined together.

## Main definitions

* `Node`, `Value`, `Lambda`, `Scope`, `Document`, `DocumentId`.
* `Node.isResolved`: nothing in the tree is left to evaluate and nothing failed.
* `Value.typeName`, `Value.isTruthy`, `Value.asText?` and the other readings of a value.
* `Value.same`, `Node.same`: equality, by which a pass that changes nothing is recognised.
-/

namespace Cascade

/-- The identity of a document, which stays the same from pass to pass. A document nested into
another one is identified by that document and the path at which it is nested. -/
structure DocumentId where
  /-- The number of the outermost document. -/
  root : Nat
  path : List String
deriving Repr, DecidableEq

namespace DocumentId

/-- What stands between the levels of an identity. -/
def nestedMark : String := "*"

/-- The identity of a document nested at a path. -/
def nested (id : DocumentId) (path : List String) : DocumentId :=
  ⟨id.root, id.path ++ nestedMark :: path⟩

end DocumentId

mutual

/-- The value of a node. -/
inductive Value where
  | nil
  | bool (value : Bool)
  | int (value : Int64)
  | float (value : Float)
  | string (value : String)
  | list (items : List Node)
  | map (fields : List (String × Node))
  /-- An expression that is not resolved yet. -/
  | expression (expr : Expr)
  | lambda (lambda : Lambda)
  /-- A subtree kept as written, flowed where it is substituted. -/
  | template (body : Node)

/-- A value with its annotations and the name of its document. -/
structure Node where
  value : Value
  annotations : Annotations
  source : String

/-- A function value: the lambda expression, the scope it was created in, and the arguments already
bound, by parameter position. -/
structure Lambda where
  expr : LambdaExpr
  scope : Scope
  bound : List (Nat × Node)

/-- Where names are looked up. -/
structure Scope where
  document : Document
  /-- Layers of local names, innermost first. -/
  locals : List (List (String × Node))
  /-- The path of the node whose containers are searched. -/
  anchor : List String
  /-- The scope of the document that this one is nested in. -/
  outer : Option Scope

/-- The snapshot of a document in one pass. -/
structure Document where
  id : DocumentId
  root : Node
  /-- Prepared stubs, highest precedence first. -/
  stubs : List Node
  state : Option Node

end

instance : Inhabited Value := ⟨.nil⟩
instance : Inhabited Node := ⟨⟨.nil, {}, ""⟩⟩

namespace Node

/-- A node without annotations. -/
def plain (value : Value) (source : String) : Node := ⟨value, {}, source⟩

/-- The node with another value. -/
def withValue (node : Node) (value : Value) : Node := { node with value }

/-- The field of a map. -/
def field? (node : Node) (key : String) : Option Node :=
  match node.value with
  | .map fields => Fields.find? fields key
  | _ => none

theorem field?_map {fields : Fields Node} {annotations : Annotations} {source key : String} :
    (Node.mk (.map fields) annotations source).field? key = Fields.find? fields key := rfl

mutual

/-- Neither the node nor a descendant is an expression, read or unread, or carries a diagnostic. -/
def isResolved : Node → Bool
  | ⟨value, annotations, _⟩ =>
    !annotations.hasError && !annotations.failed && annotations.issue.isNone && valueResolved value

/-- The part of `isResolved` that depends on the value. -/
def valueResolved : Value → Bool
  | .expression _ => false
  | .string text => !Embedded.isUnread text
  | .list items => allResolved items
  | .map fields => allFieldsResolved fields
  | _ => true

/-- All nodes of a list are resolved. -/
def allResolved : List Node → Bool
  | [] => true
  | node :: rest => node.isResolved && allResolved rest

/-- All fields of a map are resolved. -/
def allFieldsResolved : List (String × Node) → Bool
  | [] => true
  | (_, node) :: rest => node.isResolved && allFieldsResolved rest

end

mutual

/-- The node or a descendant failed, or depends on one that failed. -/
def hasError : Node → Bool
  | ⟨value, annotations, _⟩ => annotations.hasError || annotations.failed || valueHasError value

/-- The part of `hasError` that depends on the value. -/
def valueHasError : Value → Bool
  | .list items => anyHasError items
  | .map fields => anyFieldHasError fields
  | _ => false

/-- Some node of a list has an error. -/
def anyHasError : List Node → Bool
  | [] => false
  | node :: rest => node.hasError || anyHasError rest

/-- Some field of a map has an error. -/
def anyFieldHasError : List (String × Node) → Bool
  | [] => false
  | (_, node) :: rest => node.hasError || anyFieldHasError rest

end

end Node

namespace Scope

/-- A local name, the innermost layer first. -/
def findLocal? (layers : List (List (String × Node))) (name : String) : Option Node :=
  layers.findSome? fun layer => Fields.find? layer name

/-- The scope of the outermost document. -/
def rootScope : Scope → Scope
  | ⟨_, _, _, some outer⟩ => outer.rootScope
  | scope => scope

/-- The scope with one more layer of local names. -/
def layered (scope : Scope) (names : Fields Node) : Scope :=
  { scope with locals := names :: scope.locals }

end Scope

namespace Lambda

/-- The parameters that are not bound yet. -/
def openParameters (l : Lambda) : Nat := l.expr.params.length - l.bound.length

/-- The text of the lambda expression. -/
def render (l : Lambda) : String := l.expr.render

end Lambda

namespace Value

/-- The name of the type. -/
def typeName : Value → String
  | .nil => "nil"
  | .bool _ => "bool"
  | .int _ => "int"
  | .float _ => "float"
  | .string _ => "string"
  | .list _ => "list"
  | .map _ => "map"
  | .expression _ => "expression"
  | .lambda _ => "lambda"
  | .template _ => "template"

/-- The value is nil. -/
def isNil : Value → Bool
  | .nil => true
  | _ => false

/-- False for nil, false, zero and empty strings, lists and maps. -/
def isTruthy : Value → Bool
  | .nil => false
  | .bool b => b
  | .int n => n != 0
  | .float x => x != 0
  | .string s => s != ""
  | .list items => !items.isEmpty
  | .map fields => !fields.isEmpty
  | _ => true

/-- The number of an int. -/
def asInt? : Value → Option Int64
  | .int n => some n
  | _ => none

/-- The number of a float, or the float nearest to an int. -/
def asFloat? : Value → Option Float
  | .float x => some x
  | .int n => some (Binary64.ofInt n.toInt)
  | _ => none

/-- The text of a string. -/
def asString? : Value → Option String
  | .string s => some s
  | _ => none

/-- The items of a list. -/
def asList? : Value → Option (List Node)
  | .list items => some items
  | _ => none

/-- The fields of a map. -/
def asMap? : Value → Option (Fields Node)
  | .map fields => some fields
  | _ => none

/-- The text of a scalar, as joined to other texts. -/
def asText? : Value → Option String
  | .string s => some s
  | .int n => some (toString n.toInt)
  | .float x => some (Notation.plain.write x)
  | .bool b => some (if b then "true" else "false")
  | _ => none

/-- The short form of a value in messages. -/
def display : Value → String
  | .nil => "nil"
  | .bool b => if b then "true" else "false"
  | .int n => toString n.toInt
  | .float x => Notation.plain.write x
  | .string s => s
  | .list items => "[list of " ++ toString items.length ++ "]"
  | .map fields => "\x7bmap of " ++ toString fields.length ++ "\x7d"
  | .expression e => e.embed
  | .lambda l => l.expr.embed
  | .template _ => "(( &template ))"

end Value

mutual

/-- Equality of values. Floats are equal if their bits are, so that a NaN does not look changed;
lambdas if they have the same text, scope and bound arguments. -/
def Value.same : Value → Value → Bool
  | .nil, .nil => true
  | .bool a, .bool b => a == b
  | .int a, .int b => a == b
  | .float a, .float b => a.toBits == b.toBits
  | .string a, .string b => a == b
  | .list a, .list b => sameNodes a b
  | .map a, .map b => sameFields a b
  | .expression a, .expression b => a.same b
  | .lambda a, .lambda b => Lambda.same a b
  | .template a, .template b => Node.same a b
  | _, _ => false

/-- Equality of nodes, annotations and sources included. -/
def Node.same : Node → Node → Bool
  | ⟨v, a, s⟩, ⟨v', a', s'⟩ => Value.same v v' && a == a' && s == s'

/-- Equality of lists of nodes. -/
def sameNodes : List Node → List Node → Bool
  | [], [] => true
  | a :: as, b :: bs => Node.same a b && sameNodes as bs
  | _, _ => false

/-- Equality of fields. -/
def sameFields : List (String × Node) → List (String × Node) → Bool
  | [], [] => true
  | (k, a) :: as, (l, b) :: bs => k == l && Node.same a b && sameFields as bs
  | _, _ => false

/-- Equality of lambdas. -/
def Lambda.same : Lambda → Lambda → Bool
  | ⟨e, s, b⟩, ⟨e', s', b'⟩ => Expr.sameLambda e e' && Scope.same s s' && sameBound b b'

/-- Equality of bound arguments. -/
def sameBound : List (Nat × Node) → List (Nat × Node) → Bool
  | [], [] => true
  | (i, a) :: as, (j, b) :: bs => i == j && Node.same a b && sameBound as bs
  | _, _ => false

/-- Equality of scopes: the same document, place, local names and outer scope. Snapshots of one
document are not told apart. -/
def Scope.same : Scope → Scope → Bool
  | ⟨d, l, a, o⟩, ⟨d', l', a', o'⟩ =>
    Document.sameId d d' && a == a' && sameLayers l l' && sameOuter o o'

/-- Snapshots of the same document. -/
def Document.sameId : Document → Document → Bool
  | ⟨id, _, _, _⟩, ⟨id', _, _, _⟩ => id == id'

/-- Equality of layers of local names. -/
def sameLayers : List (List (String × Node)) → List (List (String × Node)) → Bool
  | [], [] => true
  | a :: as, b :: bs => sameFields a b && sameLayers as bs
  | _, _ => false

/-- Equality of outer scopes. -/
def sameOuter : Option Scope → Option Scope → Bool
  | none, none => true
  | some a, some b => Scope.same a b
  | _, _ => false

end

end Cascade
