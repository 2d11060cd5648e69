import Cascade.Evaluation.Evaluate

/-!
# Calling lambdas

The body of a lambda is evaluated in the scope in which the lambda was created, extended by one
layer that holds its parameters and, under the name `_`, the lambda itself. A lambda called in the
document that it was created in sees the document's current snapshot.

## Main definitions

* `Lambda.callScope`, `parameterLayer`, `invokeLambda`.
-/

namespace Cascade

open Eval

/-- The definition scope of a lambda, as a caller sees it. -/
def Lambda.callScope (l : Lambda) (caller : Binding) : Scope :=
  if l.scope.document.id = caller.document.id then { l.scope with document := caller.document }
  else l.scope

section

variable (engine : Engine) (deeper : Deeper)

/-- The argument of a parameter: its slot, or else its default, which sees the parameters before
it. -/
def parameterNode (scope : Scope) (caller : Binding) (layer : Fields Node) (slot : Option Node)
    (param : Parameter) : Eval Node :=
  match slot with
  | some node => pure node
  | none =>
    if param.variadic then pure (.plain (.list []) caller.source)
    else
      match param.default with
      | some default => do
        let resolved ← evaluate engine deeper default (caller.deeper (scope.layered layer))
        return resolved.toNode caller.source
      | none => fail (.missingArgument param.name)

/-- The layer of parameters from a position on. -/
def parameterLayer (scope : Scope) (caller : Binding) (slots : Slots) :
    Nat → List Parameter → Fields Node → Eval (Fields Node)
  | _, [], layer => pure layer
  | position, param :: rest, layer => do
    let node ← parameterNode engine deeper scope caller layer (slots.find? position) param
    parameterLayer scope caller slots (position + 1) rest (Fields.insert param.name node layer)

/-- The outcome of a call. -/
def invokeLambda (l : Lambda) (args : List ArgumentValue) (caller : Binding) : Eval Resolved := do
  let slots ← ofFailing (l.bindArguments args)
  let scope := l.callScope caller
  let own : Fields Node := [("_", .plain (.lambda l) caller.source)]
  let layer ← parameterLayer engine deeper scope caller slots 0 l.expr.params own
  evaluate engine deeper l.expr.body (caller.deeper (scope.layered layer))

end

end Cascade
