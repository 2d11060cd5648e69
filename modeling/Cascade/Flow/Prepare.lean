import Cascade.Flow.Report
import Cascade.Flow.Result
import Cascade.Flow.Settle

/-!
# Preparing stubs

Each stub is flowed as a document of its own, with the stubs after it as its stubs. They do not
override it, but it may merge from them.

## Main definitions

* `FlowError`, `FlowError.message`: why a document does not flow.
* `prepare`: the prepared stubs.
-/

namespace Cascade

/-- Why a document does not flow. -/
inductive FlowError where
  /-- Nodes did not resolve. -/
  | unresolved (report : Report)
  /-- Every pass changed the document. -/
  | passLimit (passes : Nat)
  /-- The text of an expression cannot be read. -/
  | unreadable (source : String) (problem : ParseError)

/-- The message of an error. -/
def FlowError.message : FlowError → String
  | .unresolved report => "unresolved nodes:\n" ++ report.render
  | .passLimit passes => "no fixpoint reached after " ++ toString passes ++ " passes"
  | .unreadable source problem => source ++ ": " ++ problem.message

/-- A computation over documents, which may fail. -/
abbrev Flow := ExceptT FlowError Run

/-- Prepared stubs, highest precedence first. -/
structure Prepared where
  stubs : List Node := []
  /-- Nodes that were kept unresolved. -/
  unresolved : Report := {}

section

variable (engine : Engine) (deeper : Deeper)

/-- The settled document, or an error. -/
def settled (s : Setting) (root : Node) : Flow Node := do
  match ← ExceptT.lift (settle engine deeper s root) with
  | some tree => return tree
  | none => throw (.passLimit engine.maxPasses)

/-- The document that remains if it is removed as a whole. -/
def Node.orNil (node : Option Node) (source : String) : Node :=
  node.getD (.plain .nil source)

/-- Prepares stubs numbered from `number` on, the last one first. With `keep`, unresolved nodes are
kept and reported. -/
def prepareFrom (base : DocumentId) (outer : Option Scope) (depth : Nat) (keep : Bool) :
    (number : Nat) → List Node → Flow Prepared
  | _, [] => pure {}
  | number, stub :: rest => do
    let later ← prepareFrom base outer depth keep (number + 1) rest
    let s : Setting :=
      { id := base.nested ["stub" ++ toString number], stubs := later.stubs, outer, depth }
    let tree ← settled engine deeper s stub
    let report := Report.collect tree engine.defaultKey
    if !report.isEmpty && !keep then throw (.unresolved report)
    else
      let stub := Node.orNil (tree.strip? false) tree.source
      return ⟨stub :: later.stubs, later.unresolved.absorb report⟩

/-- The prepared stubs. -/
def prepare (base : DocumentId) (stubs : List Node) (outer : Option Scope) (depth : Nat)
    (keep : Bool) : Flow Prepared :=
  prepareFrom engine deeper base outer depth keep 1 stubs

end

end Cascade
