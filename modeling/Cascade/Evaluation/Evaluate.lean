import Cascade.Evaluation.Arguments
import Cascade.Evaluation.Intrinsics

/-!
# Evaluation

`evaluate` is recursion on the expression. Operands are evaluated from left to right, and the
first one without a value decides the outcome; only `||`, the logical operators, conditionals and
intrinsic calls leave operands unevaluated. Lambdas and nested documents are entered through a
`Deeper`.

## Main definitions

* `evaluate`, `evaluateAsItIs`.
* `Resolved.toNode`: a result as a node.
-/

namespace Cascade

open Eval

/-- A result as a node, with the flags of its info. -/
def Resolved.toNode (r : Resolved) (source : String) : Node :=
  ⟨r.value, r.info.annotate {}, source⟩

/-- The result of markers around a result. Only markers without an expression make the surrounding
map a template. -/
def Resolved.withMarkers (r : Resolved) (markers : List Marker) (bare : Bool) : Resolved :=
  { r with info :=
      { markers.foldl Info.addMarker r.info with
        template := markers.contains (.flag .template) && bare } }

/-- A call of a registered function. Its arguments must all be positional. -/
def callFunction (deeper : Deeper) (name : String) (function : Function) (args : List ArgumentValue)
    (binding : Binding) : Eval Resolved := do
  let values ← args.mapM fun
    | .positional node => pure node.value
    | _ => fail (.namedArgument name)
  function deeper values binding

/-- The name of a callee that is looked up among the functions: a plain name without a node in
scope. -/
def functionName? (engine : Engine) (callee : Expr) (binding : Binding) : Option String :=
  match callee.ungrouped with
  | .reference r => r.simpleName?.filter fun name => !isDefined name binding.scope engine.defaultKey
  | _ => none

section

variable (engine : Engine) (deeper : Deeper)

mutual

/-- The outcome of an expression at a place. -/
def evaluate : Expr → Binding → Eval Resolved
  | .nil, _ => pure (.ofValue .nil)
  | .undefined, _ => pure .undefined
  | .bool b, _ => pure (.ofValue (.bool b))
  | .int n, _ => pure (.ofValue (.int n))
  | .float x, _ => pure (.ofValue (.float x))
  | .string s, _ => pure (.ofValue (.string s))
  | .reference r, binding => ofOutcome (r.resolve binding.scope engine.defaultKey false)
  | .grouped inner, binding => evaluate inner binding
  | .arithmetic op lhs rhs, binding => do
    let lhs ← evaluate lhs binding
    let rhs ← evaluate rhs binding
    return .ofValue (← ofFailing (arithmetic op lhs.value rhs.value))
  | .concatenation lhs rhs, binding => do
    let lhs ← evaluate lhs binding
    let rhs ← evaluate rhs binding
    return .ofValue (← ofFailing (concatenate lhs.value rhs.value binding.source))
  | .comparison op lhs rhs, binding => do
    let lhs ← evaluate lhs binding
    let rhs ← evaluate rhs binding
    return .ofValue (.bool (← ofFailing (compare op lhs.value rhs.value)))
  | .fallback lhs rhs, binding => do
    match ← (evaluate lhs binding).outcome with
    | .ok resolved => if resolved.info.undefined then evaluate rhs binding else return resolved
    | .error (.error _) => evaluate rhs binding
    | .error (.pending info) => throw (.pending info)
  | .logical op lhs rhs, binding => do
    let left := (← evaluate lhs binding).value.isTruthy
    match op, left with
    | .and, false => return .ofValue (.bool false)
    | .or, true => return .ofValue (.bool true)
    | _, _ => return .ofValue (.bool (← evaluate rhs binding).value.isTruthy)
  | .not operand, binding => do
    return .ofValue (.bool !(← evaluate operand binding).value.isTruthy)
  | .conditional condition onTrue onFalse, binding => do
    if (← evaluate condition binding).value.isTruthy then evaluate onTrue binding
    else evaluate onFalse binding
  | .list items, binding => do
    return .ofValue (.list (← evaluateItems items binding))
  | .range start stop, binding => do
    let start ← expectInt (← evaluate start binding).value
    let stop ← expectInt (← evaluate stop binding).value
    return .ofValue (.list ((rangeItems start stop).map fun n => .plain (.int n) binding.source))
  | .map entries, binding => do
    return .ofValue (.map (Fields.ofList (← evaluateEntries entries binding)))
  | .call callee args, binding => do
    match functionName? engine callee binding with
    | some name =>
      match Fields.find? engine.functions name with
      | none => fail (.unknownFunction name (suggestions name (Fields.keys engine.functions)))
      | some function =>
        callFunction deeper name function (← evaluateArguments args binding) binding
    | none =>
      let l ← expectLambda (← evaluate callee binding).value
      deeper.invoke l (← evaluateArguments args binding) binding
  | .intrinsic id args, binding => id.run engine deeper (delay args) binding
  | .curry callee args, binding => do
    let l ← expectLambda (← evaluate callee binding).value
    let args ← evaluateArguments args binding
    return .ofValue (.lambda (← ofFailing (l.curry args)))
  | .lambda expr, binding => pure (.ofValue (.lambda ⟨expr, binding.scope, []⟩))
  | .merge m, binding => m.run engine binding
  | .auto, binding => autoSize engine binding
  | .marked markers none, _ => pure ((Resolved.ofValue .nil).withMarkers markers true)
  | .marked markers (some inner), binding =>
    if markers.contains (.flag .template) then
      pure ((Resolved.ofValue (.template (.plain (.expression inner) binding.source))).withMarkers
        markers false)
    else do return (← evaluate inner binding).withMarkers markers false
  | .prefer operand, binding => do
    let resolved ← evaluate operand binding
    return { resolved with info := { resolved.info with preferred := true } }
  | .substitution operand, binding => do
    match (← evaluate operand binding).value with
    | .template body => deeper.flowNested body binding none none
    | other => mismatch "template" other
  | .dynamic base index, binding => do
    let base ← evaluate base binding
    let path ← indexPath (← evaluate index binding).value
    navigate engine.defaultKey binding.source base.value path
  | .slice base start stop, binding => do
    let base ← evaluate base binding
    let start ← evaluateBound start binding
    let stop ← evaluateBound stop binding
    sliceItems (← expectList base.value) start stop
  | .projection base path, binding => do
    let elements ← expectElements (← evaluate base binding).value
    let projected ← elements.mapM fun element => do
      return (← navigate engine.defaultKey binding.source element.value path).toNode binding.source
    return .ofValue (.list projected)
  | .qualified base path, binding => do
    navigate engine.defaultKey binding.source (← evaluate base binding).value path

/-- The items of a list literal. Absent ones are left out. -/
def evaluateItems : List Expr → Binding → Eval (List Node)
  | [], _ => pure []
  | e :: rest, binding => do
    let resolved ← evaluate e binding
    let nodes ← evaluateItems rest binding
    return if resolved.info.undefined then nodes else resolved.toNode binding.source :: nodes

/-- The entries of a map literal. Absent ones are left out. -/
def evaluateEntries : List (String × Expr) → Binding → Eval (List (String × Node))
  | [], _ => pure []
  | (key, e) :: rest, binding => do
    let resolved ← evaluate e binding
    let entries ← evaluateEntries rest binding
    return if resolved.info.undefined then entries
      else (key, resolved.toNode binding.source) :: entries

/-- The bound of a slice. -/
def evaluateBound : Option Expr → Binding → Eval (Option Int64)
  | none, _ => pure none
  | some e, binding => do return some (← expectInt (← evaluate e binding).value)

/-- The arguments of a call. -/
def evaluateArguments : List Argument → Binding → Eval (List ArgumentValue)
  | [], _ => pure []
  | .positional e :: rest, binding => do
    let node := (← evaluate e binding).toNode binding.source
    return .positional node :: (← evaluateArguments rest binding)
  | .named name e :: rest, binding => do
    let node := (← evaluate e binding).toNode binding.source
    return .named name node :: (← evaluateArguments rest binding)
  | .indexed index e :: rest, binding => do
    let node := (← evaluate e binding).toNode binding.source
    return .indexed index node :: (← evaluateArguments rest binding)
  | .spread e :: rest, binding => do
    let items ← expectList (← evaluate e binding).value
    return items.map .positional ++ (← evaluateArguments rest binding)

/-- The arguments of an intrinsic call. -/
def delay : List Argument → List Delayed
  | [] => []
  | .positional e :: rest => ⟨true, e, evaluate e⟩ :: delay rest
  | .named _ e :: rest => ⟨false, e, evaluate e⟩ :: delay rest
  | .indexed _ e :: rest => ⟨false, e, evaluate e⟩ :: delay rest
  | .spread e :: rest => ⟨false, e, evaluate e⟩ :: delay rest

end

/-- The outcome of an expression, where a reference to a container may yield it as it is. -/
def evaluateAsItIs (e : Expr) (binding : Binding) : Eval Resolved :=
  Delayed.runAsItIs ⟨true, e, evaluate engine deeper e⟩ engine binding

end

end Cascade
