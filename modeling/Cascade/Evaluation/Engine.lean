import Cascade.Evaluation.Binding
import Cascade.Evaluation.Outcome

/-!
# Engines

An engine holds the limits of a flow and the functions and controls that documents may use. This
module fixes what an evaluation is: a computation that may fail or stay pending, that may notice how
often the counting function was called, and that has no answer if a bound on steps is exhausted.

Calls of lambdas and nested documents happen one level deeper. Whatever evaluates receives them as a
`Deeper`, so that evaluation at one level is recursion on the expression alone; the levels are put
together in `Cascade.Flow.Nested`.

## Main definitions

* `World`, `Run`, `Eval`: the computations.
* `Deeper`: the calls that lead one level deeper.
* `Function`, `Control`, `Engine`.
-/

namespace Cascade

/-- What lasts from one evaluation to the next besides documents. -/
structure World where
  /-- How many outermost documents were made. -/
  documents : Nat := 0
  /-- How often a counting function was called. -/
  ticks : Nat := 0
deriving Repr, DecidableEq

/-- A computation that always has an outcome, unless its bound on steps is exhausted. -/
abbrev Run := StateT World Option

/-- A computation that may fail or stay pending. What it did to the world lasts in any case. -/
abbrev Eval := ExceptT Unresolved Run

/-- No answer: the bound on steps is exhausted. -/
def Run.exhausted {α : Type} : Run α := fun _ => none

/-- The identity of a new outermost document. -/
def Run.newDocument : Run DocumentId := do
  let world ← get
  set { world with documents := world.documents + 1 }
  return ⟨world.documents, []⟩

namespace Eval

variable {α : Type}

/-- The outcome of a computation, as a value. -/
def outcome (e : Eval α) : Eval (Except Unresolved α) := ExceptT.mk (Except.ok <$> e.run)

/-- An outcome as a computation. -/
def ofOutcome (e : Except Unresolved α) : Eval α := ExceptT.mk (pure e)

/-- A failure. -/
def fail (failure : Failure) : Eval α := throw (.ofFailure failure)

/-- A result that may be a failure. -/
def ofFailing (e : Except Failure α) : Eval α :=
  match e with
  | .ok value => pure value
  | .error failure => fail failure

/-- A failure if the type of a value is not the expected one. -/
def mismatch (expected : String) (found : Value) : Eval α :=
  fail (.typeMismatch expected found.typeName)

/-- No answer: the bound on steps is exhausted. -/
def exhausted : Eval α := ExceptT.mk Run.exhausted

end Eval

/-- An evaluated argument of a call. -/
inductive ArgumentValue where
  | positional (node : Node)
  | named (name : String) (node : Node)
  /-- The parameter is given by its position, counted from one. -/
  | indexed (index : Nat) (node : Node)

/-- The calls that lead one level deeper. -/
structure Deeper where
  /-- Calls a lambda. -/
  invoke : Lambda → List ArgumentValue → Binding → Eval Resolved
  /-- Flows a node as a document of its own, with local names and with stubs if there are any. -/
  flowNested : Node → Binding → Option (Fields Node) → Option (List Node) → Eval Resolved
  /-- The bound on steps that no document bounds. -/
  fuel : Nat

/-- A function that expressions call by name, with its evaluated positional arguments. -/
abbrev Function := Deeper → List Value → Binding → Eval Resolved

/-- What a control sees of the map that carries it. -/
structure ControlContext where
  /-- The name of the control. -/
  name : String
  /-- The flowed value of its key. -/
  value : Node
  /-- The map that carries it. -/
  node : Node
  /-- The fields of the map that belong neither to the control nor to its options. -/
  fields : Fields Node
  /-- The options by name; template options as written, the others flowed. -/
  options : Fields Node
  binding : Binding

/-- The option of a control. -/
def ControlContext.option? (c : ControlContext) (name : String) : Option Node :=
  Fields.find? c.options name

/-- A construct that replaces the map carrying it by another node, or removes it. `resolve` flows a
node at a place and requires it to be complete. -/
structure Control where
  options : List OptionSpec
  run : Deeper → (resolve : Node → Binding → Eval Node) → ControlContext → Eval (Option Node)

/-- Limits and registries. -/
structure Engine where
  /-- Passes after which a flow gives up. -/
  maxPasses : Nat := 256
  /-- Bound on nested calls and documents. -/
  maxDepth : Nat := 256
  /-- The field that identifies list entries unless a list names another. -/
  defaultKey : String := defaultKeyName
  /-- Seconds for which `sync` waits. -/
  syncTimeout : Nat := 300
  /-- Milliseconds between two attempts of `sync`. -/
  syncInterval : Nat := 1000
  /-- Unresolved nodes are kept and reported instead of making a cascade fail. -/
  keepUnresolved : Bool := false
  functions : Fields Function
  controls : Fields Control

end Cascade
