import Cascade.Flow.Report
import Cascade.Text.Json

/-!
# Reports as JSON

Members that say nothing are left out: empty lists of causes and the mark of alternatives.

## Main definitions

* `Issue.toJson`, `ReportEntry.toJson`, `Report.toJson`.
-/

namespace Cascade

namespace Issue

/-- An issue from its message, its written causes and its mark. -/
def jsonOf (message : String) (causes : List Json) (sequence : Bool) : Json :=
  .object (
    [("message", .string message)] ++
    (if causes.isEmpty then [] else [("nested", .array causes)]) ++
    (if sequence then [("sequence", .bool true)] else []))

mutual

/-- An issue with its causes. -/
def toJson : Issue → Json
  | ⟨message, nested, sequence⟩ => jsonOf message (toJsonList nested) sequence

/-- The issues of a list. -/
def toJsonList : List Issue → List Json
  | [] => []
  | issue :: rest => toJson issue :: toJsonList rest

end

end Issue

/-- The name of a kind. -/
def UnresolvedKind.name : UnresolvedKind → String
  | .localError => "local_error"
  | .dependsOnError => "depends_on_error"
  | .unresolved => "unresolved"

/-- An entry. -/
def ReportEntry.toJson (e : ReportEntry) : Json :=
  .object (
    [("path", .string e.path), ("expression", .string e.expression), ("source", .string e.source),
      ("kind", .string e.kind.name), ("message", .string e.message)] ++
    (if e.nested.isEmpty then [] else [("nested", .array (Issue.toJsonList e.nested))]))

/-- A report. -/
def Report.toJson (r : Report) : Json :=
  .object [("entries", .array (r.entries.map ReportEntry.toJson))]

end Cascade
