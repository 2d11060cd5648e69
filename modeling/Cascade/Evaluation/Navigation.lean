import Cascade.Evaluation.Engine
import Cascade.Evaluation.Reference
import Cascade.Text.Split

/-!
# Inside computed values

Indices, slices and paths that are followed in a value rather than in a document.

## Main definitions

* `indexPath`: the path that an index stands for.
* `navigate`: the value at a path inside a value.
* `sliceItems`, `rangeItems`.
-/

namespace Cascade

open Eval

/-- The number of an int. -/
def expectInt (value : Value) : Eval Int64 :=
  match value.asInt? with
  | some n => pure n
  | none => mismatch "int" value

/-- A lambda. -/
def expectLambda (value : Value) : Eval Lambda :=
  match value with
  | .lambda l => pure l
  | other => mismatch "lambda" other

/-- The items of a list. -/
def expectList (value : Value) : Eval (List Node) :=
  match value with
  | .list items => pure items
  | other => mismatch "list" other

/-- The items of a list, or the values of a map. -/
def expectElements (value : Value) : Eval (List Node) :=
  match value with
  | .map fields => pure (Fields.values fields)
  | other => expectList other

/-- The path that an index stands for: an int, a dotted text, or a list of texts. -/
def indexPath (index : Value) : Eval (List String) :=
  match index with
  | .int n => pure [toString n.toInt]
  | .string s => pure (Text.splitOn "." s)
  | .list items =>
    match items.mapM fun item => item.value.asText? with
    | some path => pure path
    | none => fail (.typeMismatch "path segments" "list")
  | other => mismatch "index" other

/-- Why a step leads nowhere. -/
def missingStep (node : Node) (segment : String) (seen : List String) : Failure :=
  match node.value, Path.parseIndex? segment with
  | .list items, some index => .indexOutOfRange index items.length
  | .list _, none => .notFound (Path.render seen) []
  | .map fields, _ => .notFound (Path.render seen) (suggestions segment (Fields.keys fields))
  | other, _ => .typeMismatch "map or list" other.typeName

/-- The node at a path below a node reached through `seen`. -/
def descend (defaultKey : String) (node : Node) (seen : List String) : List String → Eval Node
  | [] => pure node
  | segment :: rest =>
    match node.step? segment defaultKey with
    | some next => descend defaultKey next (seen ++ [segment]) rest
    | none => fail (missingStep node segment (seen ++ [segment]))

/-- The value at a path inside a value. -/
def navigate (defaultKey source : String) (value : Value) (path : List String) : Eval Resolved := do
  let node ← descend defaultKey (.plain value source) [] path
  ofOutcome (nodeValue (Path.render path) node false)

/-- The items between two indices, both included. -/
def sliceItems (items : List Node) (start stop : Option Int64) : Eval Resolved :=
  match Path.sliceRange? items.length (start.map Int64.toInt) (stop.map Int64.toInt) with
  | some (first, last) => pure (.ofValue (.list ((items.take last).drop first)))
  | none => fail (.invalidSlice items.length)

/-- The ints from one bound to the other, both included, in the direction of the second. -/
def rangeItems (start stop : Int64) : List Int64 :=
  let ascending (low high : Int) : List Int64 :=
    (List.range ((high - low).toNat + 1)).map fun (i : Nat) => Int64.ofInt (low + i)
  if start.toInt ≤ stop.toInt then ascending start.toInt stop.toInt
  else (ascending stop.toInt start.toInt).reverse

end Cascade
