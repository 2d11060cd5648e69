import Cascade.Evaluation.Engine
import Cascade.Evaluation.Operators
import Cascade.Node.Path

/-!
# Choices and splices

`<<if` picks one of two branches, `<<switch` and `<<type` pick a case, `<<merge` splices maps into
the fields of the map that carries it. Branches and cases are options handed over as written; what
is not picked is never looked at.

## Main definitions

* `Control.conditional`, `Control.switch`, `Control.type`, `Control.merge`.
* `selectCase`: the first case that matches a value.
-/

namespace Cascade

open Eval

/-- `<<if` with `<<then` and `<<else`. Without the branch that is picked the map is removed. -/
def Control.conditional : Control where
  options := ControlId.conditional.options
  run _ _ context :=
    pure (context.option? (if context.value.value.isTruthy then "then" else "else"))

/-- The picked case, or the default. -/
def choose (context : ControlContext) (selected : Option Node) (what : String) :
    Eval (Option Node) :=
  match selected.or (context.option? "default") with
  | some result => pure (some result)
  | none => fail (.custom ("no case for '" ++ what ++ "'"))

/-- A case matches a value: a predicate accepts it, or it is equal. -/
def caseMatches (deeper : Deeper) (context : ControlContext) (case : Node) : Eval Bool :=
  match case.value with
  | .lambda predicate => do
    return (← deeper.invoke predicate [.positional context.value] context.binding).value.isTruthy
  | other => pure (other.looseEq context.value.value)

/-- The value of the first entry, from an index on, whose case matches. -/
def selectCase (deeper : Deeper) (resolve : Node → Binding → Eval Node) (context : ControlContext)
    (place : Binding) : Nat → List Node → Eval (Option Node)
  | _, [] => pure none
  | index, entry :: rest =>
    match entry.field? "case", entry.field? "value" with
    | some case, some value => do
      let case ← resolve case ((place.child (Path.indexSegment index)).child "case")
      if ← caseMatches deeper context case then return some value
      else selectCase deeper resolve context place (index + 1) rest
    | _, _ =>
      fail (.custom ("case " ++ toString (index + 1) ++ " needs 'case' and 'value' fields"))

/-- The case of a value: a field of its text, or the first entry that matches. -/
def switchCase (deeper : Deeper) (resolve : Node → Binding → Eval Node) (context : ControlContext) :
    Eval (Option Node) :=
  match (context.option? "cases").map Node.value with
  | none => pure none
  | some (.map fields) =>
    match context.value.value.asText? with
    | some key => pure (Fields.find? fields key)
    | none => mismatch "string" context.value.value
  | some (.list entries) =>
    selectCase deeper resolve context (context.binding.child (controlKey "cases")) 0 entries
  | some other => mismatch "map or list of cases" other

/-- `<<switch` with `<<cases` and an optional `<<default`. -/
def Control.switch : Control where
  options := ControlId.switch.options
  run deeper resolve context := do
    choose context (← switchCase deeper resolve context) context.value.value.display

/-- The case of a type. -/
def typeCase (context : ControlContext) : Eval (Option Node) :=
  match (context.option? "cases").map Node.value with
  | none => pure none
  | some (.map fields) =>
    match (Fields.keys fields).find? fun name => !isTypeName name with
    | some unknown => fail (.custom ("'" ++ unknown ++ "' is not a type name"))
    | none => pure (Fields.find? fields context.value.value.typeName)
  | some other => mismatch "map of cases" other

/-- `<<type` with `<<cases` and an optional `<<default`. -/
def Control.type : Control where
  options := ControlId.type.options
  run _ _ context := do
    choose context (← typeCase context) context.value.value.typeName

/-- The fields of a map to be spliced. -/
def spliceFields (node : Node) : Eval (Fields Node) :=
  match node.value with
  | .nil => pure []
  | .map fields => pure fields
  | other => mismatch "map" other

/-- The maps of a value that is one, holds them, or is nil. -/
def mergeSources (node : Node) : Eval (List Node) :=
  match node.value with
  | .nil => pure []
  | .map _ => pure [node]
  | .list items => pure items
  | other => mismatch "map or list of maps" other

/-- `<<merge`: later maps win over earlier ones, the map's own fields over all. -/
def Control.merge : Control where
  options := ControlId.merge.options
  run _ _ context := do
    let spliced ← (← mergeSources context.value).mapM spliceFields
    let fields := spliced.foldl Fields.override []
    return some (context.node.withValue (.map (Fields.override fields context.fields)))

end Cascade
