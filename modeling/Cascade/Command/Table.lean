import Cascade.Flow.Report
import Cascade.Text.Split
import Cascade.Text.Width

/-!
# Reports as tables

A report is shown as a table in a box, with a row for every unresolved node. A cell may have several
lines; a column is as wide as its widest line.

## Main definitions

* `Table.render`: a table of texts.
* `Report.renderTable`: the table of a report.
-/

namespace Cascade

namespace Table

/-- The lines of a cell. -/
abbrev Cell := List String

/-- The cell of a text. -/
def cellOf (text : String) : Cell := Text.splitOn "\n" text

/-- The columns that a cell fills. -/
def Cell.width (c : Cell) : Nat := (c.map DisplayWidth.ofText).foldl max 0

/-- A text repeated. -/
def repeated (count : Nat) (c : Char) : String := String.ofList (List.replicate count c)

/-- The widths of the columns of a table. -/
def columnWidths : List (List Cell) → List Nat
  | [] => []
  | [row] => row.map Cell.width
  | row :: rest => List.zipWith max (row.map Cell.width) (columnWidths rest)

/-- A line of a cell, filled up to the width of its column and with a space on both sides. -/
def padded (line : String) (width : Nat) : String :=
  " " ++ line ++ repeated (width - DisplayWidth.ofText line) ' ' ++ " "

/-- The lines of a row between the sides of the box. -/
def rowLines (widths : List Nat) (row : List Cell) : List String :=
  let height := (row.map List.length).foldl max 0
  (List.range height).map fun i =>
    "│" ++
      " ".intercalate
        (List.zipWith (fun cell width => padded (cell[i]?.getD "") width) row widths) ++
      "│"

/-- A horizontal line of the box. -/
def rule (widths : List Nat) (left line right : Char) : String :=
  let inner := widths.foldr (fun width n => width + 2 + n) 0 + (widths.length - 1)
  String.singleton left ++ repeated inner line ++ String.singleton right

/-- A table of texts under a header. -/
def render (header : List String) (rows : List (List String)) : String :=
  let head := header.map cellOf
  let body := rows.map fun row => row.map cellOf
  let widths := columnWidths (head :: body)
  "\n".intercalate (
    [rule widths '┌' '─' '┐'] ++ rowLines widths head ++ [rule widths '╞' '═' '╡'] ++
      body.flatMap (rowLines widths) ++ [rule widths '└' '─' '┘'])

end Table

/-- The kind of an entry in tables. -/
def UnresolvedKind.label : UnresolvedKind → String
  | .localError => "error"
  | .dependsOnError => "depends on error"
  | .unresolved => "unresolved"

mutual

/-- An issue and its causes, each on a line of its own that is indented by its level. -/
def Issue.lines (level : Nat) : Issue → List String
  | ⟨message, nested, _⟩ =>
    (Table.repeated (2 * level) ' ' ++ message) :: issueLines (level + 1) nested

/-- The lines of issues of one level. -/
def issueLines (level : Nat) : List Issue → List String
  | [] => []
  | issue :: rest => issue.lines level ++ issueLines level rest

end

/-- The row of an entry. -/
def ReportEntry.row (e : ReportEntry) : List String :=
  [e.path, e.source, e.kind.label, e.expression,
    "\n".intercalate (e.message :: issueLines 1 e.nested)]

/-- The table of a report. -/
def Report.renderTable (r : Report) : String :=
  Table.render ["Path", "Source", "Kind", "Expression", "Message"] (r.entries.map ReportEntry.row)

end Cascade
