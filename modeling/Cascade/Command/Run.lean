import Cascade.Command.Arguments
import Cascade.Command.Console
import Cascade.Command.Table
import Cascade.Flow.ReportJson

/-!
# The commands

`merge` flows the documents of a template against stubs, `eval` evaluates a single expression, and
`check` looks for expressions that cannot be read and, if asked to, for documents that do not flow.

## Main definitions

* `Request.run`: the command of a request; its value is the exit code.
* `Request.answer`: a request carried out on files.
-/

namespace Cascade

open Command

/-- The standard engine with limits. -/
def Limits.engine (limits : Limits) (keepUnresolved : Bool) : Engine :=
  { Engine.standard with
    maxPasses := limits.maxPasses
    syncTimeout := limits.syncTimeout
    keepUnresolved }

namespace Command

/-- Shows a report and how many nodes it lists. -/
def showReport (r : Report) (ending : String) : Command Unit := do
  report r.renderTable
  report (toString r.entries.length ++ " unresolved nodes" ++ ending)

/-- Says why a document does not flow, and ends. -/
def endWith {α : Type} (e : FlowError) (asJson : Bool) : Command α := do
  match e with
  | .unresolved r => if asJson then report r.toJson.pretty else showReport r ""
  | _ =>
    if asJson then report (Json.object [("error", .string e.message)]).pretty
    else report e.message
  throw (.exit dataError)

/-- The result of a flow; without one, the command ends. -/
def flowed {α : Type} (asJson : Bool) (computation : Flow α) : Command α := do
  match ← flow computation with
  | .ok result => return result
  | .error e => endWith e asJson

/-! ### Merge -/

/-- The outcomes of templates. -/
def applyAll (engine : Engine) (asJson : Bool) (stubs : List Node) (state : Option Node) :
    List Node → Command (List Outcome)
  | [] => return []
  | template :: rest => do
    let outcome ← flowed asJson (engine.apply template stubs state)
    return outcome :: (← applyAll engine asJson stubs state rest)

/-- The unresolved nodes of prepared stubs, as far as they are kept, and of outcomes. -/
def keptNodes (engine : Engine) (stubs : List Node) (outcomes : List Outcome) : Report :=
  let ofStubs :=
    if engine.keepUnresolved then stubs.map (Report.collect · engine.defaultKey) else []
  (ofStubs ++ outcomes.filterMap Outcome.unresolved).foldl Report.absorb {}

/-- `merge`. -/
def merge (engine : Engine) (template : String) (stubs : List String)
    (state stateOut : Option String) (asJson : Bool) : Command Nat := do
  let templates ← readDocuments template
  let stubs := (← stubs.mapM readDocuments).flatten
  let state ← state.mapM readDocument
  let stubs ← flowed asJson (engine.prepareStubs stubs)
  let outcomes ← applyAll engine asJson stubs state templates
  print (← rendered asJson (outcomes.map Outcome.document))
  match stateOut, outcomes.filterMap Outcome.state with
  | some name, first :: rest => writeText name ((← rendered false (first :: rest)) ++ "\n")
  | _, _ => pure ()
  let kept := keptNodes engine stubs outcomes
  if !kept.isEmpty then showReport kept " kept"
  return 0

/-! ### Eval -/

/-- The name of parameters in reports. -/
def paramSource : String := "<param>"

/-- The value of a parameter, which is the text itself if it cannot be read. -/
def paramValue (text : String) : Json := (Yaml.document? text).getD (.string text)

/-- The fields that an expression may refer to. -/
def evalFields (document : Option String) (params : List (String × String)) :
    Command (Fields Node) := do
  let fields ← match document with
    | none => pure []
    | some name =>
      match (← readDocument name).value with
      | .map fields => pure fields
      | other => fail (name ++ " must be a map to provide fields, found " ++ other.typeName)
  return Fields.override fields
    (params.map fun (name, text) => (name, Node.ofJson paramSource (paramValue text)))

/-- `eval`. The expression is a field of the document that it refers to. -/
def eval (engine : Engine) (expression : String) (document : Option String)
    (params : List (String × String)) (asJson : Bool) : Command Nat := do
  match Expr.parse expression with
  | .error problem => fail ("syntax error: " ++ problem.detail)
  | .ok e =>
    let source := Engine.expressionSource
    let fields ← evalFields document params
    let entered := Fields.insert source (.plain (.expression e) source) fields
    let root := Node.plain (.map entered) source
    let tree ← flowed asJson (engine.flow root)
    print (← rendered asJson [(tree.field? source).getD (.plain .nil source)])
    return 0

/-! ### Check -/

/-- A fault of a document. -/
structure Problem where
  source : String
  path : String
  message : String

/-- A fault as JSON. -/
def Problem.toJson (p : Problem) : Json :=
  .object [("source", .string p.source), ("path", .string p.path), ("message", .string p.message)]

mutual

/-- The expressions of a document that cannot be read. -/
def unreadable (source : String) (path : List String) : Json → List Problem
  | .string text =>
    match Embedded.classify text with
    | .broken e => [⟨source, Path.render path, e.message⟩]
    | _ => []
  | .array items => unreadableItems source path 0 items
  | .object members => unreadableMembers source path members
  | _ => []

/-- The expressions of items that cannot be read. -/
def unreadableItems (source : String) (path : List String) (index : Nat) : List Json → List Problem
  | [] => []
  | item :: rest =>
    unreadable source (path ++ [Path.indexSegment index]) item ++
      unreadableItems source path (index + 1) rest

/-- The expressions of members that cannot be read. -/
def unreadableMembers (source : String) (path : List String) : List (String × Json) → List Problem
  | [] => []
  | (key, value) :: rest =>
    unreadable source (path ++ [key]) value ++ unreadableMembers source path rest

end

/-- What a check has found: the faults that JSON output lists, and how many there are. -/
structure Findings where
  problems : List Problem := []
  count : Nat := 0

/-- The findings of both. -/
def Findings.append (a b : Findings) : Findings := ⟨a.problems ++ b.problems, a.count + b.count⟩

/-- The findings of flowing a document. -/
def checkFlow (engine : Engine) (asJson : Bool) (document : RawDocument) : Command Findings := do
  match ← flow (engine.flow document.node) with
  | .ok _ => return {}
  | .error (.unresolved r) =>
    if !asJson then report r.renderTable
    return ⟨r.entries.map fun e => ⟨e.source, e.path, e.message⟩, r.entries.length⟩
  | .error e =>
    report (document.source ++ ": " ++ e.message)
    return ⟨[], 1⟩

/-- The findings of a document. It is flowed if all its expressions can be read. -/
def checkDocument (engine : Engine) (withFlow asJson : Bool) (document : RawDocument) :
    Command Findings := do
  match unreadable document.source [] document.value with
  | [] => if withFlow then checkFlow engine asJson document else return {}
  | problems =>
    if !asJson then
      problems.forM fun p => report (p.source ++ ": " ++ p.path ++ ": " ++ p.message)
    return ⟨problems, problems.length⟩

/-- The findings of documents. -/
def checkDocuments (engine : Engine) (withFlow asJson : Bool) : List RawDocument → Command Findings
  | [] => return {}
  | document :: rest => do
    let findings ← checkDocument engine withFlow asJson document
    return findings.append (← checkDocuments engine withFlow asJson rest)

/-- The line about a file. -/
def summary (name : String) (count : Nat) : String :=
  name ++ ": " ++ if count = 0 then "ok" else toString count ++ " problems"

/-- The findings of files. -/
def checkFiles (engine : Engine) (withFlow asJson : Bool) : List String → Command Findings
  | [] => return {}
  | name :: rest => do
    let findings ← checkDocuments engine withFlow asJson (← readRaw name)
    if !asJson then print (summary name findings.count)
    return findings.append (← checkFiles engine withFlow asJson rest)

/-- `check`. -/
def check (engine : Engine) (files : List String) (withFlow asJson : Bool) : Command Nat := do
  let findings ← checkFiles engine withFlow asJson files
  if asJson then print (Json.array (findings.problems.map Problem.toJson)).pretty
  return if findings.count = 0 then 0 else dataError

end Command

/-- The command of a request. -/
def Request.run : Request → Command Nat
  | .merge template stubs state stateOut keepUnresolved asJson limits =>
    Command.merge (limits.engine keepUnresolved) template stubs state stateOut asJson
  | .eval expression document params asJson limits =>
    Command.eval (limits.engine false) expression document params asJson
  | .check files flow asJson limits => Command.check (limits.engine false) files flow asJson

/-- A request carried out on files: how it ends and what it leaves; none if a bound on steps is
exhausted. -/
def Request.answer (request : Request) (files : Files) : Option (Ending × Console) :=
  (request.run.run { files }).map fun
    | (.ok code, console) => (.exit code, console)
    | (.error ending, console) => (ending, console)

end Cascade
