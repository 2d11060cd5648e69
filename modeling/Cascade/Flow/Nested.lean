import Cascade.Evaluation.Invoke
import Cascade.Flow.Prepare

/-!
# Nested documents

Substituted templates, rows of loops and calls of `merge` are flowed as documents of their own. A
nested document sees the scope in which it is created as its outer scope, and only stubs that are
given with it override it.

Calls of lambdas and nested documents go one level deeper; a level without levels below it refuses
both.

## Main definitions

* `flowNested`: the value of a nested document.
* `level`: a number of levels.
-/

namespace Cascade

open Eval

section

variable (engine : Engine) (deeper : Deeper)

/-- The stubs of a nested document, prepared against each other. -/
def prepareNested (id : DocumentId) (stubs : List Node) (binding : Binding) : Eval (List Node) := do
  match ← ExceptT.lift
      (prepare engine deeper id stubs (some binding.scope) (binding.depth + 1) false).run with
  | .ok prepared => return prepared.stubs
  | .error (.unresolved report) => throw (report.toUnresolved "stub is unresolved")
  | .error failure => fail (.custom failure.message)

/-- The value of a settled nested document, if it is complete. -/
def nestedValue (tree : Node) : Eval Resolved :=
  let report := Report.collect tree engine.defaultKey
  if report.isEmpty then pure (.ofValue (((tree.strip? true).map Node.value).getD .nil))
  else throw (report.toUnresolved "nested document is unresolved")

/-- The value of a node flowed as a document of its own. -/
def flowNested (node : Node) (binding : Binding) (locals : Option (Fields Node))
    (stubs : Option (List Node)) : Eval Resolved := do
  let id := binding.document.id.nested binding.path
  let prepared ← prepareNested engine deeper id (stubs.getD []) binding
  let s : Setting :=
    { id, stubs := prepared, locals := locals.toList, outer := some binding.scope
      depth := binding.depth + 1, overridable := stubs.isSome }
  match ← ExceptT.lift (settle engine deeper s node) with
  | some tree => nestedValue engine tree
  | none =>
    fail (.custom
      ("nested document did not settle after " ++ toString engine.maxPasses ++ " passes"))

end

/-- Levels that calls and nested documents may still go down. -/
def level (engine : Engine) (fuel : Nat) : Nat → Deeper
  | 0 =>
    { invoke := fun _ _ _ => fail .maxDepthExceeded
      flowNested := fun _ _ _ _ => fail .maxDepthExceeded
      fuel }
  | levels + 1 =>
    { invoke := fun l args caller => invokeLambda engine (level engine fuel levels) l args caller
      flowNested := fun node binding locals stubs =>
        flowNested engine (level engine fuel levels) node binding locals stubs
      fuel }

end Cascade
