import Cascade.Control.Choice
import Cascade.Control.Loop
import Cascade.Flow.Report

/-!
# Running controls

A map carries a control if one of its keys starts with `<<` and goes on. Exactly one of these keys
must name a control of the engine; the others must be options of it. The value of the control key is
flowed first, then the options that are no templates, in declared order.

## Main definitions

* `Control.standard`: the controls every engine starts with.
* `runControl`: the outcome of the control of a map.
-/

namespace Cascade

open Eval

/-- The controls by name. -/
def Control.standard : Fields Control := [
  (ControlId.loop.name, Control.loop),
  (ControlId.conditional.name, Control.conditional),
  (ControlId.merge.name, Control.merge),
  (ControlId.switch.name, Control.switch),
  (ControlId.type.name, Control.type)]

/-- The names behind the keys of controls and options. -/
def controlNames (fields : Fields Node) : List String :=
  (Fields.keys fields).filterMap fun key => (controlSuffix? key).filter (· ≠ "")

/-- A flowed control input, which must be complete. A removed one is nil. -/
def completeInput (defaultKey : String) (written : Node) (flowed : Option Node) : Eval Node :=
  match flowed with
  | none => pure (.plain .nil written.source)
  | some node =>
    if node.isResolved then pure node
    else
      let report := Report.collect node defaultKey
      if report.isEmpty then throw (.pendingWith "control input is unresolved")
      else throw (report.toUnresolved "control input is unresolved")

/-- The options of a control that a map holds. -/
def controlOptions (resolve : Node → Binding → Eval Node) (name : String) (fields : Fields Node)
    (binding : Binding) : List OptionSpec → Eval (List (String × Node))
  | [] => pure []
  | spec :: rest => do
    let key := controlKey spec.name
    match Fields.find? fields key with
    | some option =>
      let node ← if spec.template then pure option else resolve option (binding.child key)
      return (spec.name, node) :: (← controlOptions resolve name fields binding rest)
    | none =>
      if spec.required then
        fail (.custom ("control '" ++ controlKey name ++ "' requires option '" ++ key ++ "'"))
      else controlOptions resolve name fields binding rest

/-- The fields that belong neither to a control nor to its options. Other keys of the same form are
errors. -/
def ownFields (name : String) (specs : List OptionSpec) : Fields Node → Eval (Fields Node)
  | [] => pure []
  | (key, child) :: rest =>
    match controlSuffix? key with
    | none => do return (key, child) :: (← ownFields name specs rest)
    | some suffix =>
      if key = directiveKey then do return (key, child) :: (← ownFields name specs rest)
      else if suffix = name || specs.any fun spec => spec.name == suffix then
        ownFields name specs rest
      else
        fail (.custom ("unknown option '" ++ key ++ "' for control '" ++ controlKey name ++
          "'" ++ didYouMean (suggestions suffix (specs.map OptionSpec.name))))

/-- Runs the control of a name. -/
def dispatchControl (deeper : Deeper) (resolve : Node → Binding → Eval Node) (name : String)
    (control : Control) (node : Node) (fields : Fields Node) (binding : Binding) :
    Eval (Option Node) := do
  let key := controlKey name
  let written := (Fields.find? fields key).getD (.plain .nil node.source)
  let value ← resolve written (binding.child key)
  let options ← controlOptions resolve name fields binding control.options
  let own ← ownFields name control.options fields
  control.run deeper resolve
    { name, value, node, fields := own, options := Fields.ofList options, binding }

/-- The control of a map, as a computation; none if the map carries none. -/
def runControl (engine : Engine) (deeper : Deeper) (resolve : Node → Binding → Eval Node)
    (node : Node)
    (fields : Fields Node) (binding : Binding) : Option (Eval (Option Node)) :=
  match controlNames fields with
  | [] => none
  | first :: rest =>
    let known := (first :: rest).filterMap fun name =>
      (Fields.find? engine.controls name).map fun control => (name, control)
    some (match known with
      | [] => fail (.custom ("unknown control '" ++ controlKey first ++ "'" ++
          didYouMean (suggestions first (Fields.keys engine.controls))))
      | [(name, control)] => dispatchControl deeper resolve name control node fields binding
      | (one, _) :: (another, _) :: _ =>
        fail (.custom ("multiple controls in one map: '" ++ controlKey one ++ "' and '" ++
          controlKey another ++ "'")))

end Cascade
