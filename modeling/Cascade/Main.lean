import Cascade.Command.Run

/-!
# The program

Reads what a request needs from the outside, carries the request out, and puts the result there.
-/

namespace Cascade

/-- The texts of files, as far as they can be read. -/
def readFiles : List String → IO (List (FilePath × String))
  | [] => return []
  | name :: rest => do
    let others ← readFiles rest
    if name = Command.standardInput then return others
    else
      try
        return (filePath name, ← IO.FS.readFile name) :: others
      catch _ => return others

/-- The paths of a list that lead to directories. -/
def findDirectories : List FilePath → IO (List FilePath)
  | [] => return []
  | path :: rest => do
    let others ← findDirectories rest
    try
      let _ ← IO.FS.Handle.mk ("/".intercalate (path ++ ["."])) IO.FS.Mode.read
      return path :: others
    catch _ => return others

/-- What a request sees of the outside. -/
def readFilesOf (request : Request) : IO Files := do
  let inputs := request.inputs
  let targets := (request.target?.toList).map filePath
  let input ←
    if inputs.contains Command.standardInput then (← IO.getStdin).readToEnd else pure ""
  return {
    texts := ← readFiles inputs
    directories := ← findDirectories (targets.flatMap fun path => Files.parents path ++ [path])
    input }

/-- Writes the file of a request, if its text has changed. -/
def writeFileOf (request : Request) (before after : Files) : IO Unit :=
  match request.target? with
  | none => pure ()
  | some name =>
    match after.read? name with
    | some text => if before.read? name = some text then pure () else IO.FS.writeFile name text
    | none => pure ()

/-- Carries a request out. -/
def perform (request : Request) : IO UInt32 := do
  let files ← readFilesOf request
  match request.answer files with
  | none => return 70
  | some (ending, console) => do
    IO.print console.output
    IO.eprint console.errors
    writeFileOf request files console.files
    match ending with
    | .exit code => return code.toUInt32
    | .failure message => do
      IO.eprintln ("Error: " ++ message)
      return 70

/-- An entry of the environment, if it is set. -/
def environmentEntry (name : String) : IO (List (String × String)) := do
  return ((← IO.getEnv name).map fun value => (name, value)).toList

end Cascade

def main (arguments : List String) : IO UInt32 := do
  let environment :=
    (← Cascade.environmentEntry "STUBFLOW_MAX_PASSES") ++
      (← Cascade.environmentEntry "STUBFLOW_PARTIAL")
  match Cascade.Request.read? arguments environment with
  | some request => Cascade.perform request
  | none => do
    IO.eprintln "usage: merge TEMPLATE [STUB..] | eval EXPRESSION | check FILE.."
    return 2
