import Cascade.Evaluation.Engine

/-!
# Loops

`<<for` evaluates its body once for every row of the product of its sequences, the first variable
varying slowest. A row knows the current element of each variable under the variable's name and its
index, or key, under `index-` and the name. The results make a list, or with `<<mapkey` a map.

## Main definitions

* `LoopVariable`, `loopVariables`: the sequences.
* `loopRows`: the rows of their product.
* `Control.loop`: the control.
-/

namespace Cascade

open Eval

/-- A variable with its elements, each behind its index or key. -/
structure LoopVariable where
  name : String
  elements : List (Node × Node)

/-- The name under which a row knows the index of a variable. -/
def indexName (name : String) : String := "index-" ++ name

/-- The variable of a sequence. -/
def loopVariable (name : String) (sequence : Node) : Eval LoopVariable :=
  let node (value : Value) : Node := .plain value sequence.source
  match sequence.value with
  | .nil => pure ⟨name, []⟩
  | .list items =>
    pure ⟨name, items.mapIdx fun index item => (node (.int (Int64.ofInt index)), item)⟩
  | .map fields => pure ⟨name, fields.map fun (key, item) => (node (.string key), item)⟩
  | other => mismatch "list or map" other

/-- The variables of a map from names to sequences, or of a list of names and values. -/
def loopVariables (spec : Node) : Eval (List LoopVariable) :=
  match spec.value with
  | .map fields => fields.mapM fun (name, sequence) => loopVariable name sequence
  | .list items => items.mapM fun item =>
    match (item.field? "name").bind (·.value.asString?), item.field? "values" with
    | some name, some sequence => loopVariable name sequence
    | _, _ => fail (.custom "loop variables need 'name' and 'values' fields")
  | other => mismatch "map or list of loop variables" other

/-- A row with one more variable. -/
def LoopVariable.extend (v : LoopVariable) (row : Fields Node) (element : Node × Node) :
    Fields Node :=
  Fields.insert (indexName v.name) element.1 (Fields.insert v.name element.2 row)

/-- The rows of the product, the first variable varying slowest. -/
def loopRows (loops : List LoopVariable) : List (Fields Node) :=
  loops.foldl (fun rows v => rows.flatMap fun row => v.elements.map (v.extend row)) [[]]

/-- The name of a row in messages. Rows count from one. -/
def rowLabel (loops : List LoopVariable) (index : Nat) (row : Fields Node) : String :=
  let values := loops.filterMap fun v =>
    (Fields.find? row v.name).map fun node => v.name ++ "=" ++ node.value.display
  "row " ++ toString (index + 1) ++ " (" ++ ", ".intercalate values ++ ")"

/-- What a row yields: a value, under a key if there is one. -/
def loopRow (deeper : Deeper) (body : Node) (mapkey : Option Node) (binding : Binding)
    (row : Fields Node) : Eval (Option String × Value) := do
  let value := (← deeper.flowNested body binding (some row) none).value
  match mapkey with
  | none => return (none, value)
  | some mapkey =>
    let key := (← deeper.flowNested mapkey binding (some row) none).value
    match key.asText? with
    | some key => return (some key, value)
    | none => mismatch "string map key" key

/-- The results of rows, and what kept the others from having one. -/
def loopResults (deeper : Deeper) (body : Node) (mapkey : Option Node) (binding : Binding)
    (loops : List LoopVariable) :
    Nat → List (Fields Node) → Eval (List (Option String × Value) × List Unresolved)
  | _, [] => pure ([], [])
  | index, row :: rest => do
    let outcome ← (loopRow deeper body mapkey binding row).outcome
    let (results, failures) ← loopResults deeper body mapkey binding loops (index + 1) rest
    match outcome with
    | .ok result => return (result :: results, failures)
    | .error failure => return (results, failure.context (rowLabel loops index row) :: failures)

/-- The node that a loop yields. -/
def loopNode (source : String) (keyed : Bool) (results : List (Option String × Value)) : Node :=
  if keyed then
    .plain (.map (Fields.ofList (results.filterMap fun (key, value) =>
      key.map fun key => (key, .plain value source)))) source
  else .plain (.list (results.map fun (_, value) => .plain value source)) source

/-- `<<for` with `<<do` and an optional `<<mapkey`. -/
def Control.loop : Control where
  options := ControlId.loop.options
  run deeper _ context := do
    let loops ← loopVariables context.value
    match context.option? "do" with
    | none => fail (.custom "missing '<<do'")
    | some body =>
      let mapkey := context.option? "mapkey"
      let (results, failures) ←
        loopResults deeper body mapkey context.binding loops 0 (loopRows loops)
      if failures.isEmpty then return some (loopNode context.node.source mapkey.isSome results)
      else throw (aggregate "for loop failed" failures true)

end Cascade
