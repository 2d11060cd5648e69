import Cascade.Fields
import Cascade.Number.Range

/-!
# Command lines

The arguments of a command are options and values. An option is written `--name value`,
`--name=value`, or with a letter, `-n value`, `-nvalue` or `-n=value`; a flag takes no value. Behind
`--` everything is a value. A value that starts with a dash is taken for an option, except for a
single dash.

## Main definitions

* `OptionDecl`, `CommandLine`, `CommandLine.read?`: the options and values of arguments.
* `Request`, `Request.read?`: what a command is asked to do.
-/

namespace Cascade

/-- An option that a command knows. -/
structure OptionDecl where
  name : String
  letter : Option Char := none
  takesValue : Bool := true
  /-- The option may be given more than once. -/
  repeatable : Bool := false

/-- The options and values of arguments. -/
structure CommandLine where
  /-- Options with their values, in order; a flag has an empty value. -/
  options : List (String × String) := []
  values : List String := []
deriving Repr, DecidableEq

namespace CommandLine

/-- The values of an option. -/
def all (line : CommandLine) (name : String) : List String :=
  line.options.filterMap fun (option, value) => if option = name then some value else none

/-- The value of an option. -/
def value? (line : CommandLine) (name : String) : Option String := (line.all name).head?

/-- A flag is given. -/
def has (line : CommandLine) (name : String) : Bool := (line.value? name).isSome

/-- The arguments with an option in front. An option that is not repeatable is given once. -/
def withOption (decl : OptionDecl) (value : String) (line : CommandLine) : Option CommandLine :=
  if !decl.repeatable && line.has decl.name then none
  else some { line with options := (decl.name, value) :: line.options }

/-- The name and the value of an option with an equals sign. -/
def cut (option : List Char) : String × Option String :=
  let name := option.takeWhile (· != '=')
  let rest := option.drop name.length
  (String.ofList name, if rest.isEmpty then none else some (String.ofList (rest.drop 1)))

/-- A word that is read as an option. -/
def isOption (argument : String) : Bool :=
  match argument.toList with
  | '-' :: _ :: _ => true
  | _ => false

/-- An option of an argument, with the value that is written in the same argument. -/
def option? (decls : List OptionDecl) (argument : String) : Option (OptionDecl × Option String) :=
  match argument.toList with
  | '-' :: '-' :: rest =>
    let (name, value) := cut rest
    (decls.find? fun decl => decl.name = name).map fun decl => (decl, value)
  | '-' :: letter :: rest =>
    let value := match rest with
      | [] => none
      | '=' :: value => some (String.ofList value)
      | value => some (String.ofList value)
    (decls.find? fun decl => decl.letter = some letter).map fun decl => (decl, value)
  | _ => none

/-- The options and values of arguments, if each is known and complete. -/
def read? (decls : List OptionDecl) : List String → Option CommandLine
  | [] => some {}
  | argument :: rest =>
    if argument = "--" then some { values := rest }
    else if !isOption argument then do
      let line ← read? decls rest
      return { line with values := argument :: line.values }
    else
      match option? decls argument, rest with
      | none, _ => none
      | some (decl, some value), rest =>
        if decl.takesValue then do withOption decl value (← read? decls rest) else none
      | some (decl, none), value :: others =>
        if !decl.takesValue then do withOption decl "" (← read? decls (value :: others))
        else if isOption value then none
        else do withOption decl value (← read? decls others)
      | some (decl, none), [] => if decl.takesValue then none else withOption decl "" {}

end CommandLine

/-! ### Requests -/

/-- Limits of the engine. -/
structure Limits where
  maxPasses : Nat := 256
  /-- Seconds for which `sync` waits. -/
  syncTimeout : Nat := 300
deriving Repr, DecidableEq

/-- What a command is asked to do. -/
inductive Request where
  /-- Flow templates against stubs. -/
  | merge (template : String) (stubs : List String) (state stateOut : Option String)
      (keepUnresolved asJson : Bool) (limits : Limits)
  /-- Evaluate an expression. -/
  | eval (expression : String) (document : Option String) (params : List (String × String))
      (asJson : Bool) (limits : Limits)
  /-- Check the expressions in documents. -/
  | check (files : List String) (flow asJson : Bool) (limits : Limits)
deriving Repr, DecidableEq

namespace Request

/-- A number of 64 bits. -/
def number? (text : String) : Option Nat :=
  let digits := match text.toList with
    | '+' :: digits => digits
    | digits => digits
  if digits.isEmpty || !digits.all Char.isDigit then none
  else
    let n := digits.foldl (fun n d => n * 10 + (d.toNat - '0'.toNat)) 0
    if FitsWord n then some n else none

/-- A truth value. -/
def truth? (text : String) : Option Bool :=
  if text = "true" then some true else if text = "false" then some false else none

/-- The name of a file, which is not empty. -/
def fileName? (text : String) : Option String := if text = "" then none else some text

/-- The options of every command. -/
def commonOptions : List OptionDecl := [
  { name := "json", takesValue := false },
  { name := "max-passes" },
  { name := "sync-timeout" }]

/-- The limits of a command line. The environment counts if the option is not given. -/
def limits? (line : CommandLine) (environment : List (String × String)) : Option Limits := do
  let passes ← match line.value? "max-passes" <|> environment.lookup "STUBFLOW_MAX_PASSES" with
    | some text => number? text
    | none => some 256
  let timeout ← match line.value? "sync-timeout" with
    | some text => number? text
    | none => some 300
  return ⟨passes, timeout⟩

/-- A parameter `name=value`. -/
def param? (text : String) : Option (String × String) :=
  match CommandLine.cut text.toList with
  | (name, some value) => some (name, value)
  | (_, none) => none

/-- An option that names a file, if it is given. -/
def fileOption? (line : CommandLine) (name : String) : Option (Option String) :=
  match line.value? name with
  | some text => (fileName? text).map some
  | none => some none

/-- The request of the merge command. -/
def readMerge? (arguments : List String) (environment : List (String × String)) :
    Option Request := do
  let line ← CommandLine.read?
    (commonOptions ++ [{ name := "state" }, { name := "state-out" },
      { name := "partial", takesValue := false }])
    arguments
  let limits ← limits? line environment
  let keep ←
    if line.has "partial" then some true
    else
      match environment.lookup "STUBFLOW_PARTIAL" with
      | some text => truth? text
      | none => some false
  match ← line.values.mapM fileName? with
  | template :: stubs =>
    return .merge template stubs (← fileOption? line "state") (← fileOption? line "state-out") keep
      (line.has "json") limits
  | [] => none

/-- The request of the eval command. -/
def readEval? (arguments : List String) (environment : List (String × String)) :
    Option Request := do
  let line ← CommandLine.read?
    (commonOptions ++ [{ name := "document", letter := some 'd' },
      { name := "param", letter := some 'p', repeatable := true }])
    arguments
  let limits ← limits? line environment
  let params ← (line.all "param").mapM param?
  match line.values with
  | [expression] =>
    return .eval expression (← fileOption? line "document") params (line.has "json") limits
  | _ => none

/-- The request of the check command. -/
def readCheck? (arguments : List String) (environment : List (String × String)) :
    Option Request := do
  let line ←
    CommandLine.read? (commonOptions ++ [{ name := "flow", takesValue := false }]) arguments
  let limits ← limits? line environment
  let files ← line.values.mapM fileName?
  if files.isEmpty then none else return .check files (line.has "flow") (line.has "json") limits

/-- The request of a command line, without the name of the program. -/
def read? (arguments : List String) (environment : List (String × String)) : Option Request :=
  match arguments with
  | "merge" :: rest => readMerge? rest environment
  | "eval" :: rest => readEval? rest environment
  | "check" :: rest => readCheck? rest environment
  | _ => none

/-- The files that a request reads. -/
def inputs : Request → List String
  | .merge template stubs state _ _ _ _ => template :: stubs ++ state.toList
  | .eval _ document _ _ _ => document.toList
  | .check files _ _ _ => files

/-- The file that a request writes. -/
def target? : Request → Option String
  | .merge _ _ _ stateOut _ _ _ => stateOut
  | _ => none

end Request

end Cascade
