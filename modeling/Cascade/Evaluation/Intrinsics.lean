import Cascade.Evaluation.Navigation
import Cascade.Evaluation.Operators

/-!
# Intrinsic calls and merge forms

Calls that receive their arguments unevaluated decide themselves whether and how to evaluate them:
`merge`, `catch`, `sync`, `valid`, `defined`, `require` and `stub`. The forms `merge` and `auto`
read the place at which they stand.

## Main definitions

* `Delayed`: an argument that is not evaluated yet.
* `Intrinsic.run`, `MergeExpr.run`, `autoSize`.
-/

namespace Cascade

open Eval

/-- An argument that is not evaluated yet. -/
structure Delayed where
  /-- The argument is given by its place alone. -/
  isPositional : Bool
  expr : Expr
  run : Binding → Eval Resolved

namespace Delayed

/-- The argument, where a reference to a container may yield it as it is. -/
def runAsItIs (d : Delayed) (engine : Engine) (binding : Binding) : Eval Resolved :=
  match d.expr.ungrouped with
  | .reference r => ofOutcome (r.resolve binding.scope engine.defaultKey true)
  | _ => d.run binding

end Delayed

/-- Whether an evaluation has a value. Errors, and what depends on them, have none; what is pending
for another reason stays pending. -/
def observe (e : Eval Resolved) : Eval (Option Resolved) := do
  match ← e.outcome with
  | .ok resolved => return some resolved
  | .error (.error _) => return none
  | .error (.pending info) => if info.failed then return none else throw (.pending info)

/-- A call without stubs or template takes a fixed number of arguments. -/
def wrongCount {α : Type} (id : Intrinsic) (expected got : Nat) : Eval α :=
  fail (.tooManyArguments id.name expected got)

/-- A lambda argument. -/
def lambdaArgument (d : Delayed) (binding : Binding) : Eval Lambda := do
  expectLambda (← d.run binding).value

/-- A map, or the body of a template. -/
def documentArgument (d : Delayed) (binding : Binding) : Eval Node := do
  match (← d.run binding).value with
  | .template body => return body
  | .map fields => return .plain (.map fields) binding.source
  | other => mismatch "map or template" other

/-- `merge(template, stub...)`: a cascade inside the document. -/
def mergeDocuments (deeper : Deeper) (args : List Delayed) (binding : Binding) : Eval Resolved :=
  match args with
  | [] => fail (.missingArgument "template")
  | template :: stubs => do
    let template ← documentArgument template binding
    let stubs ← stubs.mapM fun stub => documentArgument stub binding
    deeper.flowNested template binding none (some stubs)

/-- The value and the error message of an evaluation, one of which is absent. -/
def caught (e : Eval Resolved) : Eval (Value × Option String) := do
  match ← e.outcome with
  | .ok resolved => return (resolved.value, none)
  | .error (.error info) => return (.nil, some (Unresolved.error info).message)
  | .error (.pending info) =>
    if info.failed then return (.nil, some (Unresolved.pending info).message)
    else throw (.pending info)

/-- The expression and the handler of `catch`. -/
def catchArguments (args : List Delayed) : Eval (Delayed × Option Delayed) :=
  match args with
  | [expr] => pure (expr, none)
  | [expr, handler] => pure (expr, some handler)
  | _ => wrongCount .catchError 2 args.length

/-- `catch(expr)`: a map of value, error and validity. `catch(expr, handler)`: what the handler
makes of value and error. -/
def catchErrors (deeper : Deeper) (args : List Delayed) (binding : Binding) : Eval Resolved := do
  let (expr, handler) ← catchArguments args
  let (value, error) ← caught (expr.run binding)
  let node (value : Value) : Node := .plain value binding.source
  let message : Value := .string (error.getD "")
  match handler with
  | none =>
    return .ofValue (.map [
      ("error", node message),
      ("valid", node (.bool error.isNone)),
      ("value", node value)])
  | some handler =>
    let l ← lambdaArgument handler binding
    deeper.invoke l [.positional (node value), .positional (node message)] binding

/-- The arguments of `sync`. -/
structure SyncPlan where
  expr : Delayed
  condition : Lambda
  result : Option Lambda
  /-- Milliseconds until the call gives up. -/
  timeout : Nat

/-- Attempts of `sync`. Time passes only between them: attempt `attempt` happens at `elapsed`. -/
def attemptSync (deeper : Deeper) (interval : Nat) (plan : SyncPlan) (binding : Binding) :
    Nat → (attempt elapsed : Nat) → Eval Resolved
  | 0, _, _ => exhausted
  | fuel + 1, attempt, elapsed => do
    let current ← plan.expr.run binding
    let argument : ArgumentValue := .positional (.plain current.value binding.source)
    let satisfied ← deeper.invoke plan.condition [argument] binding
    if satisfied.value.isTruthy then
      match plan.result with
      | some result => deeper.invoke result [argument] binding
      | none => return current
    else if elapsed ≥ plan.timeout then
      fail (.custom ("sync timed out after " ++ toString attempt ++ " attempts"))
    else attemptSync deeper interval plan binding fuel (attempt + 1) (elapsed + interval)

/-- The expression, the condition, the result and the timeout of `sync`. -/
def syncArguments (args : List Delayed) :
    Eval (Delayed × Delayed × Option Delayed × Option Delayed) :=
  match args with
  | [expr, condition] => pure (expr, condition, none, none)
  | [expr, condition, result] => pure (expr, condition, some result, none)
  | [expr, condition, result, timeout] => pure (expr, condition, some result, some timeout)
  | _ => wrongCount .sync 4 args.length

/-- The seconds for which `sync` waits. -/
def syncSeconds (engine : Engine) (timeout : Option Delayed) (binding : Binding) : Eval Nat :=
  match timeout with
  | some timeout => do return (← expectInt (← timeout.run binding).value).toInt.toNat
  | none => pure engine.syncTimeout

/-- `sync(expr, condition[, result[, timeout]])` repeats an expression until it meets a condition.
-/
def synchronize (engine : Engine) (deeper : Deeper) (args : List Delayed) (binding : Binding) :
    Eval Resolved := do
  let (expr, condition, result, timeout) ← syncArguments args
  let condition ← lambdaArgument condition binding
  let result ← result.mapM fun result => lambdaArgument result binding
  let seconds ← syncSeconds engine timeout binding
  attemptSync deeper engine.syncInterval ⟨expr, condition, result, 1000 * seconds⟩ binding
    deeper.fuel 1 0

/-- The path that `stub` is asked for: that of the place, of a reference, or a dotted text. -/
def stubArgument (args : List Delayed) (binding : Binding) : Eval (List String) :=
  match args with
  | [] => pure binding.stubPath
  | [d] =>
    match d.expr.ungrouped with
    | .reference r => pure r.path
    | _ => do
      match (← d.run binding).value with
      | .string path => pure (Text.splitOn "." path)
      | other => mismatch "reference" other
  | _ => wrongCount .stub 1 args.length

/-- `stub()`, `stub(reference)` or `stub(path)`: the first stub value at a path. -/
def stubValue (engine : Engine) (args : List Delayed) (binding : Binding) : Eval Resolved := do
  let path ← stubArgument args binding
  match binding.stubValue? path engine.defaultKey with
  | some node => ofOutcome (nodeValue (Path.render path) node false)
  | none => fail (.stubNotFound (Path.render path))

/-- The only argument of a call. -/
def onlyArgument (id : Intrinsic) (args : List Delayed) : Eval Delayed :=
  match args with
  | [d] => pure d
  | _ => wrongCount id 1 args.length

/-- An intrinsic call. All arguments must be positional. -/
def Intrinsic.run (engine : Engine) (deeper : Deeper) (id : Intrinsic) (args : List Delayed)
    (binding : Binding) : Eval Resolved := do
  if args.any fun d => !d.isPositional then fail (.namedArgument id.name)
  else
    match id with
    | .merge => mergeDocuments deeper args binding
    | .catchError => catchErrors deeper args binding
    | .sync => synchronize engine deeper args binding
    | .valid =>
      let d ← onlyArgument id args
      let seen ← observe (d.runAsItIs engine binding)
      return .ofValue (.bool (seen.any fun r => !r.info.undefined && !r.value.isNil))
    | .defined =>
      let d ← onlyArgument id args
      let seen ← observe (d.runAsItIs engine binding)
      return .ofValue (.bool (seen.any fun r => !r.info.undefined))
    | .require =>
      let d ← onlyArgument id args
      let resolved ← d.run binding
      if resolved.info.undefined || resolved.value.isNil then
        fail (.custom ("'" ++ d.expr.render ++ "' is required"))
      else return resolved
    | .stub => stubValue engine args binding

/-- A merge form: the first stub value at the place, or at the path of the form. -/
def MergeExpr.run (engine : Engine) (m : MergeExpr) (binding : Binding) : Eval Resolved :=
  let path := m.path.getD binding.stubPath
  let info : Info :=
    { merged := true, replace := m.replace, keyName := m.key, redirectPath := m.path }
  match binding.stubValue? path engine.defaultKey with
  | some node => do
    let resolved ← ofOutcome (nodeValue (Path.render path) node false)
    return ⟨resolved.value, info⟩
  | none =>
    if m.required then fail (.stubNotFound (Path.render path))
    else return ⟨.nil, { info with undefined := true }⟩

/-- The number of instances that a job adds to its resource pool. -/
def jobInstances (defaultKey pool : String) (job : Node) : Eval Int :=
  match job.field? "resource_pool" with
  | none => pure 0
  | some field =>
    if !field.isResolved then throw (.pendingWith "resource pool of a job is unresolved")
    else if field.value.asString? ≠ some pool then pure 0
    else
      match job.field? "instances" with
      | none => pure 0
      | some node => do
        let name := "jobs." ++ (job.identity? defaultKey).getD "" ++ ".instances"
        let resolved ← ofOutcome (nodeValue name node false)
        return (← expectInt resolved.value).toInt

/-- The jobs of a document, in a list or by name. -/
def documentJobs (root : Node) : List Node :=
  match (root.field? "jobs").map Node.value with
  | some (.list items) => items
  | some (.map fields) => Fields.values fields
  | _ => []

/-- `auto`: the size of a resource pool, summed over the jobs that use it. -/
def autoSize (engine : Engine) (binding : Binding) : Eval Resolved :=
  match binding.path with
  | ["resource_pools", pool, "size"] => do
    let total ← (documentJobs binding.document.root).foldlM
      (fun (total : Int64) job => do
        let instances ← jobInstances engine.defaultKey pool job
        ofFailing (checkedInt (total.toInt + instances)))
      0
    return .ofValue (.int total)
  | _ => fail (.custom "auto is only supported for resource pool sizes")

end Cascade
