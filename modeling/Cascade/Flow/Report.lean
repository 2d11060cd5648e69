import Cascade.Evaluation.Outcome
import Cascade.Node.Path

/-!
# Reports of unresolved nodes

A report lists the nodes of a tree that did not resolve, sorted by path: expressions, strings whose
expression cannot be read, and maps and lists with an issue of their own.

## Main definitions

* `ReportEntry`, `Report`, `Report.collect`, `Report.absorb`.
* `Report.render`: the text of a report.
* `Report.toUnresolved`: the outcome of an evaluation that a report stands for.
-/

namespace Cascade

/-- Why a node is unresolved. -/
inductive UnresolvedKind where
  /-- Its own expression failed. -/
  | localError
  /-- It depends on a node that failed. -/
  | dependsOnError
  /-- What it depends on never became available. -/
  | unresolved
deriving Repr, DecidableEq

/-- The mark of a kind in reports. -/
def UnresolvedKind.symbol : UnresolvedKind → String
  | .localError => "-"
  | .dependsOnError => "*"
  | .unresolved => "@"

/-- An unresolved node. -/
structure ReportEntry where
  path : String
  /-- The expression as written. -/
  expression : String
  source : String
  kind : UnresolvedKind
  message : String
  nested : List Issue
deriving Repr

/-- The unresolved nodes of a tree. -/
structure Report where
  entries : List ReportEntry := []
deriving Repr

namespace ReportEntry

/-- The order of entries. -/
def before (a b : ReportEntry) : Bool := a.path ≤ b.path

/-- Entries for the same node: the same path in a document of the same name. -/
def sameNode (a b : ReportEntry) : Bool := a.source == b.source && a.path == b.path

end ReportEntry

namespace Report

/-- No entries. -/
def isEmpty (r : Report) : Bool := r.entries.isEmpty

/-- The entries in the order of their paths; entries of one path keep their order. -/
def sorted (entries : List ReportEntry) : Report := ⟨entries.mergeSort ReportEntry.before⟩

/-- A key that starts with that of directives and controls. -/
def isControlKey (key : String) : Bool := (controlSuffix? key).isSome

/-- The short form of a failing map or list: its control or directive. -/
def describe (node : Node) : String :=
  match node.value with
  | .map fields =>
    let control := fields.find? fun field =>
      ((controlSuffix? field.1).bind ControlId.ofKey?).isSome
    match control.or (fields.find? fun field => isControlKey field.1) with
    | some (key, child) => key ++ ": " ++ child.value.display
    | none => "\x7b...\x7d"
  | _ => "[...]"

/-- What a report shows of a node that did not resolve. -/
def expression? (node : Node) : Option String :=
  match node.value with
  | .expression e => some e.embed
  | .string text => if node.annotations.hasError then some text else none
  | .map _ => if node.annotations.issue.isSome then some (describe node) else none
  | .list _ => if node.annotations.issue.isSome then some (describe node) else none
  | _ => none

/-- Why a node did not resolve, by its annotations. -/
def kindOf (a : Annotations) : UnresolvedKind :=
  if a.hasError then .localError else if a.failed then .dependsOnError else .unresolved

/-- The entry of a node, if it did not resolve. -/
def entryOf? (node : Node) (path : List String) : Option ReportEntry :=
  (expression? node).map fun expression =>
    { path := Path.render path
      expression
      source := node.source
      kind := kindOf node.annotations
      message := (node.annotations.issue.map Issue.message).getD ""
      nested := (node.annotations.issue.map Issue.nested).getD [] }

section

variable (defaultKey : String)

mutual

/-- The entries of a tree at a path, parents before children. -/
def entriesOf : Node → List String → List ReportEntry
  | node@⟨value, annotations, _⟩, path =>
    (entryOf? node path).toList ++ entriesOfValue (annotations.keyName.getD defaultKey) value path

/-- The entries below a value, whose list entries are identified by a field. -/
def entriesOfValue (key : String) : Value → List String → List ReportEntry
  | .map fields, path => entriesOfFields fields path
  | .list items, path => entriesOfItems key 0 items path
  | _, _ => []

/-- The entries of list items from an index on. -/
def entriesOfItems (key : String) (index : Nat) : List Node → List String → List ReportEntry
  | [], _ => []
  | item :: rest, path =>
    entriesOf item (path ++ [item.entrySegment index key]) ++
      entriesOfItems key (index + 1) rest path

/-- The entries of fields. -/
def entriesOfFields : List (String × Node) → List String → List ReportEntry
  | [], _ => []
  | (key, child) :: rest, path => entriesOf child (path ++ [key]) ++ entriesOfFields rest path

end

end

/-- The report of a tree. -/
def collect (root : Node) (defaultKey : String) : Report :=
  sorted (entriesOf defaultKey root [])

/-- Adds an entry unless its node is reported already. -/
def add (entries : List ReportEntry) (entry : ReportEntry) : List ReportEntry :=
  if entries.any (ReportEntry.sameNode · entry) then entries else entries ++ [entry]

/-- Adds the entries of another report for nodes that are not reported yet. -/
def absorb (r other : Report) : Report :=
  sorted (other.entries.foldl add r.entries)

/-! ### Text -/

mutual

/-- An issue on a line of its own, indented by its level, and its causes. -/
def renderIssue (level : Nat) : Issue → String
  | ⟨message, nested, _⟩ =>
    "\n\t\t\t\t" ++ String.ofList (List.replicate (2 * level) ' ') ++ message ++
      renderIssues (level + 1) nested

/-- Issues of one level. -/
def renderIssues (level : Nat) : List Issue → String
  | [] => ""
  | issue :: rest => renderIssue level issue ++ renderIssues level rest

end

/-- The lines of an entry. -/
def renderEntry (e : ReportEntry) : String :=
  "\t" ++ e.expression ++ "\tin " ++ e.source ++ "\t" ++ e.path ++ "\t" ++ e.kind.symbol ++
    e.message ++ renderIssues 1 e.nested

/-- The text of a report. -/
def render (r : Report) : String := "\n".intercalate (r.entries.map renderEntry)

/-! ### As an outcome -/

/-- An entry as the cause of an issue. -/
def entryIssue (e : ReportEntry) : Issue :=
  .withNested (if e.path = "" then e.message else e.path ++ ": " ++ e.message) e.nested

/-- The outcome of an evaluation that depends on the reported nodes. It is an error if one of them
failed by itself. -/
def toUnresolved (r : Report) (message : String) : Unresolved :=
  let info : Info :=
    { issue := some (.withNested message (r.entries.map entryIssue))
      failed := r.entries.any fun e => e.kind ≠ .unresolved }
  if r.entries.any fun e => e.kind = .localError then .error info else .pending info

end Report

end Cascade
