import Cascade.Fields
import Cascade.Text.Split

/-!
# Files of a command

What a command sees of the outside: the texts of files, the directories, and what is left of its
standard input. Reading and writing are functions on this value, so a command is one too.

## Main definitions

* `Files`, `Files.read?`, `Files.write`, `WriteProblem.message`.
-/

namespace Cascade

/-- The names that lead to a file, from the working directory or, behind a slash, from the root. -/
abbrev FilePath := List String

/-- The path of a name. -/
def filePath (name : String) : FilePath :=
  let parts := (Text.splitOn "/" name).filter fun part => part ≠ "" && part ≠ "."
  if name.toList.head? == some '/' then "/" :: parts else parts

/-- What a command sees of the outside. -/
structure Files where
  texts : List (FilePath × String) := []
  directories : List FilePath := [[]]
  /-- What is left of the standard input. -/
  input : String := ""

/-- Why a file is not written. -/
inductive WriteProblem where
  | missing
  | notDirectory
  | isDirectory
deriving Repr, DecidableEq

/-- The message of a problem. -/
def WriteProblem.message : WriteProblem → String
  | .missing => "No such file or directory (os error 2)"
  | .notDirectory => "Not a directory (os error 20)"
  | .isDirectory => "Is a directory (os error 21)"

namespace Files

/-- The directories around a path. -/
def parents (path : FilePath) : List FilePath :=
  (List.range path.length).map fun count => path.take count

/-- Named files in an otherwise empty directory. -/
def ofTexts (texts : List (String × String)) (input : String) : Files :=
  let texts := texts.map fun (name, text) => (filePath name, text)
  { texts, directories := [] :: texts.flatMap fun (path, _) => parents path, input }

/-- The text of a file. -/
def read? (files : Files) (name : String) : Option String :=
  files.texts.lookup (filePath name)

/-- What stands in the way of writing below directories. -/
def obstacle? (files : Files) (path : FilePath) : Option WriteProblem :=
  (parents path).findSome? fun parent =>
    if files.directories.contains parent then none
    else if (files.texts.lookup parent).isSome then some .notDirectory
    else some .missing

/-- The files with a text written. -/
def write (files : Files) (name text : String) : Except WriteProblem Files :=
  let path := filePath name
  match files.obstacle? path with
  | some problem => .error problem
  | none =>
    if files.directories.contains path then .error .isDirectory
    else .ok { files with texts := (path, text) :: files.texts }

end Files

end Cascade
