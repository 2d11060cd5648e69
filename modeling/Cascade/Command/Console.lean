import Cascade.Command.Files
import Cascade.Flow.Apply
import Cascade.Node.Json
import Cascade.Yaml.Printer

/-!
# What commands are made of

A command reads documents, flows them, and prints. It ends with an exit code or with a message about
what prevented it from doing its work; what it printed before stays printed.

## Main definitions

* `Console`, `Ending`, `Command`: the computation of a command.
* `Command.readDocuments`: the documents of a file.
* `renderDocuments`: documents as text.
-/

namespace Cascade

/-- What a command has done so far, and what it can still read. -/
structure Console where
  files : Files
  output : String := ""
  errors : String := ""
  world : World := {}

/-- How a command ends early. -/
inductive Ending where
  /-- The program ends with a code. -/
  | exit (code : Nat)
  /-- The command could not do its work. -/
  | failure (message : String)
deriving Repr, DecidableEq

/-- The code for input that is at fault. -/
def dataError : Nat := 65

/-- The computation of a command; none if a bound on steps is exhausted. -/
abbrev Command := ExceptT Ending (StateT Console Option)

/-- A document with the name that it is reported under. -/
structure RawDocument where
  source : String
  value : Json

/-- Names of several documents of one file count them. -/
def documentName (base : String) (count number : Nat) : String :=
  if count = 1 then base else base ++ "#" ++ toString number

/-- The documents of a text. -/
def rawDocuments? (base text : String) : Option (List RawDocument) :=
  (Yaml.documents? text).map fun values =>
    values.mapIdx fun index value => ⟨documentName base values.length (index + 1), value⟩

/-- The document as a tree. -/
def RawDocument.node (d : RawDocument) : Node := Node.ofJson d.source d.value

/-- The text of a document in one of the two formats, without blanks at its end. -/
def renderValue (asJson : Bool) (value : Json) : String :=
  Blank.trimEnd (if asJson then value.pretty else Yaml.render value)

/-- The texts of documents, one after the other. -/
def renderDocuments (asJson : Bool) (nodes : List Node) : Except NonFinite String := do
  let values ← nodes.mapM Node.toJson
  return (if asJson then "\n" else "\n---\n").intercalate (values.map (renderValue asJson))

namespace Command

/-- Ends with a message. -/
def fail {α : Type} (message : String) : Command α := throw (.failure message)

/-- Prints a line. -/
def print (line : String) : Command Unit :=
  modify fun console => { console with output := console.output ++ line ++ "\n" }

/-- Prints a line of diagnostics. -/
def report (line : String) : Command Unit :=
  modify fun console => { console with errors := console.errors ++ line ++ "\n" }

/-- The outcome of a flow. -/
def flow {α : Type} (computation : Flow α) : Command (Except FlowError α) :=
  ExceptT.mk fun console =>
    (computation.run console.world).map fun (outcome, world) =>
      (.ok outcome, { console with world })

/-- What reads standard input. -/
def standardInput : String := "-"

/-- The name of standard input in reports. -/
def standardInputSource : String := "<stdin>"

/-- The name and the text of a file. Standard input is read to its end by whoever reads it first. -/
def readText (name : String) : Command (String × String) := do
  let console ← get
  if name = standardInput then
    set { console with files := { console.files with input := "" } }
    return (standardInputSource, console.files.input)
  else
    match console.files.read? name with
    | some text => return (name, text)
    | none => fail ("cannot read " ++ name)

/-- The documents of a file. -/
def readRaw (name : String) : Command (List RawDocument) := do
  let (source, text) ← readText name
  match rawDocuments? source text with
  | some documents => return documents
  | none => fail (source ++ " is neither valid YAML nor JSON")

/-- The documents of a file as trees. -/
def readDocuments (name : String) : Command (List Node) := do
  return (← readRaw name).map RawDocument.node

/-- The first document of a file as a tree. -/
def readDocument (name : String) : Command Node := do
  match ← readDocuments name with
  | node :: _ => return node
  | [] => fail (name ++ " contains no documents")

/-- The text of documents. -/
def rendered (asJson : Bool) (nodes : List Node) : Command String :=
  match renderDocuments asJson nodes with
  | .ok text => pure text
  | .error e => fail e.detail

/-- Writes a file. -/
def writeText (name text : String) : Command Unit := do
  let console ← get
  match console.files.write name text with
  | .ok files => set { console with files }
  | .error problem => fail ("Cannot write state file " ++ name ++ ": " ++ problem.message)

end Command

end Cascade
