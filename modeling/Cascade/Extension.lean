import Cascade.Evaluation.Engine
import Cascade.Evaluation.Standard
import Cascade.Text.Case

/-!
# Extending an engine

An engine takes further functions and controls under names of the embedder's choice. The ones here
show what such extensions may do: compute, keep a count, look at the place of the call, stay
pending, call a lambda, and build a node from what a control receives.

## Main definitions

* `Engine.withFunction`, `Engine.withControl`.
* `Extension.function?`, `Extension.control?`: the extensions by name.
-/

namespace Cascade

open Eval

/-- The engine with a function under a name. -/
def Engine.withFunction (engine : Engine) (name : String) (function : Function) : Engine :=
  { engine with functions := Fields.insert name function engine.functions }

/-- The engine with a control under a name. -/
def Engine.withControl (engine : Engine) (name : String) (control : Control) : Engine :=
  { engine with controls := Fields.insert name control engine.controls }

namespace Extension

/-- Twice an int, modulo its range. -/
def double : Function := fun _ args _ =>
  match args with
  | [.int n] => pure (.ofValue (.int (n * 2)))
  | _ => fail (.custom "double takes one int")

/-- How often the function has been called. -/
def tick : Function := fun _ _ _ => do
  let world ← (get : Run World)
  let count := world.ticks + 1
  (set { world with ticks := count } : Run Unit)
  return .ofValue (.int (Int64.ofInt count))

/-- The paths, the anchor and the depth of the call. -/
def here : Function := fun _ _ binding =>
  let path (segments : List String) : String := "/".intercalate segments
  pure (.ofValue (.string ("|".intercalate
    [path binding.path, path binding.stubPath, path binding.scope.anchor, toString binding.depth])))

/-- A call that never has a value. -/
def later : Function := fun _ _ _ => throw (.pendingWith "not yet")

/-- A lambda applied to a value, and once more to the result. -/
def twice : Function := fun deeper args binding =>
  match args with
  | [.lambda l, x] => do
    let once ← deeper.invoke l [.positional (.plain x binding.source)] binding
    deeper.invoke l [.indexed 1 (.plain once.value binding.source)] binding
  | _ => fail (.custom "twice takes a lambda and a value")

/-- The text of the control's value in capitals. -/
def shout : Control where
  options := []
  run _ _ context :=
    let text := (context.value.value.asText?).getD ""
    pure (some (context.node.withValue (.string (LetterCase.upper text))))

/-- What the control receives, as a map. -/
def collect : Control where
  options := [⟨"eager", false, true⟩, ⟨"lazy", true, false⟩]
  run _ _ context :=
    let map (fields : Fields Node) : Node := context.node.withValue (.map fields)
    pure (some (map
      [("fields", map context.fields), ("options", map context.options), ("value", context.value)]))

/-- A control that never has a result. -/
def wait : Control where
  options := []
  run _ _ _ := throw (.pendingWith "control waits")

/-- The function of a name. -/
def function? : String → Option Function
  | "double" => some double
  | "tick" => some tick
  | "here" => some here
  | "later" => some later
  | "twice" => some twice
  | _ => none

/-- The control of a name. -/
def control? : String → Option Control
  | "shout" => some shout
  | "collect" => some collect
  | "wait" => some wait
  | _ => none

end Extension

/-- The engine with the extension of a name under another name, if there is one. -/
def Engine.withExtension (engine : Engine) (name extension : String) : Engine :=
  match Extension.function? extension, Extension.control? extension with
  | some function, _ => engine.withFunction name function
  | none, some control => engine.withControl name control
  | none, none => engine

end Cascade
