import Cascade.Evaluation.Standard
import Cascade.Flow.Nested

/-!
# Cascades

A template is flowed against prepared stubs. Fields that a stub flags for it are added first. The
outcome is the document without what was visible only while it flowed, and the state document.

## Main definitions

* `insertAbsent`: the fields that a stub adds to a template.
* `Outcome`, `Engine.apply`, `Engine.cascade`: the outcome of a template.
* `Engine.standard`, `Engine.flow`, `Engine.prepareStubs`, `Engine.evaluateText`.
-/

namespace Cascade

mutual

/-- Adds the fields of a stub that are flagged for it and that the template lacks at their paths. -/
def insertAbsent (defaultKey : String) (template : Node) (path : List String) : Node → Node
  | ⟨.map fields, _, _⟩ => insertAbsentFields defaultKey template path fields
  | _ => template

/-- Adds flagged fields of a map of a stub. -/
def insertAbsentFields (defaultKey : String) (template : Node) (path : List String) :
    List (String × Node) → Node
  | [] => template
  | (key, field) :: rest =>
    let place := path ++ [key]
    let template :=
      match template.lookup? place defaultKey with
      | some _ => insertAbsent defaultKey template place field
      | none =>
        if field.annotations.inject || field.annotations.default then
          (template.insertAt? place field).getD template
        else template
    insertAbsentFields defaultKey template path rest

end

/-- The template with the fields that prepared stubs add to it, in order of precedence. -/
def injected (defaultKey : String) (template : Node) (stubs : List Node) : Node :=
  stubs.foldl (fun template stub => insertAbsent defaultKey template [] stub) template

/-- What a cascade yields. -/
structure Outcome where
  /-- The document without temporary and local nodes. -/
  document : Node
  /-- The state nodes of the document, if there are any. -/
  state : Option Node
  /-- The nodes that were kept unresolved, if there are any. -/
  unresolved : Option Report

/-- The final document of a settled tree. -/
def finalDocument (tree : Node) : Node :=
  (Node.orNil (tree.strip? true) tree.source).unescape

/-- The state document of a settled tree. -/
def stateDocument (defaultKey : String) (tree : Node) : Option Node :=
  (tree.extractState? defaultKey).bind fun state => state.strip? false

namespace Engine

/-- An engine with the default limits and the functions and controls that every engine has. -/
def standard : Engine where
  functions := Standard.functions
  controls := Control.standard

section

variable (engine : Engine)

/-- Steps that are granted beyond those that the text of a document accounts for. -/
def spareSteps : Nat := 10000

/-- The levels below a place at a depth. -/
def below (depth : Nat) : Deeper := level engine spareSteps (engine.maxDepth - depth)

/-- The settled tree of a template with its stubs and its state document. -/
def settledTree (template : Node) (stubs : List Node) (state : Option Node) : Flow Node := do
  let id ← ExceptT.lift Run.newDocument
  settled engine (engine.below 0) { id, stubs, state, overridable := true }
    (injected engine.defaultKey template stubs)

/-- The outcome of a settled tree, and of prepared stubs with nodes that were kept unresolved. -/
def outcomeOfTree (tree : Node) (kept : Report) : Except FlowError Outcome :=
  let report := (Report.collect tree engine.defaultKey).absorb kept
  if !report.isEmpty && !engine.keepUnresolved then .error (.unresolved report)
  else .ok
    { document := finalDocument tree
      state := stateDocument engine.defaultKey tree
      unresolved := if report.isEmpty then none else some report }

/-- The outcome of a template with stubs whose preparation is known. -/
def applyPrepared (template : Node) (prepared : Prepared) (state : Option Node) : Flow Outcome := do
  let tree ← engine.settledTree template prepared.stubs state
  ExceptT.mk (pure (engine.outcomeOfTree tree prepared.unresolved))

/-- The prepared stubs, highest precedence first. -/
def prepared (stubs : List Node) : Flow Prepared := do
  let base ← ExceptT.lift Run.newDocument
  prepare engine (engine.below 0) base stubs none 0 engine.keepUnresolved

/-- The stubs, each flowed against those after it. -/
def prepareStubs (stubs : List Node) : Flow (List Node) := do
  return (← engine.prepared stubs).stubs

/-- The outcome of a template with stubs that are prepared already. -/
def apply (template : Node) (stubs : List Node) (state : Option Node) : Flow Outcome :=
  engine.applyPrepared template { stubs } state

/-- The outcome of a template with stubs, highest precedence first. -/
def cascade (template : Node) (stubs : List Node) (state : Option Node) : Flow Outcome := do
  engine.applyPrepared template (← engine.prepared stubs) state

/-- A single document, flowed. -/
def flow (template : Node) : Flow Node := do
  return (← engine.apply template [] none).document

/-- The name of the document that a single expression makes. -/
def expressionSource : String := "<expression>"

/-- An expression, evaluated as a document of its own. -/
def evaluateText (text : String) : Flow Node :=
  match Expr.parse text with
  | .ok e => engine.flow (.plain (.expression e) expressionSource)
  | .error problem => throw (.unreadable expressionSource problem)

end

end Engine

end Cascade
