import Cascade.Node.Basic
import Cascade.Text.EditDistance

/-!
# Outcomes of an evaluation

An evaluation resolves to a value, is pending until a later pass, or fails. Each outcome carries an
`Info`: what is to be noted on the node that receives it. Failures are causes, worded in one place.

## Main definitions

* `Info`, `Info.join`, `Info.addMarker`, `Info.annotate`.
* `Failure`, `Failure.message`: why an expression fails.
* `Resolved`, `Unresolved`, `Unresolved.context`, `aggregate`.
-/

namespace Cascade

/-- What an evaluation notes besides its value. -/
structure Info where
  redirectPath : Option (List String) := none
  replace : Bool := false
  merged : Bool := false
  preferred : Bool := false
  keyName : Option String := none
  issue : Option Issue := none
  /-- The outcome depends on a node with an error. -/
  failed : Bool := false
  /-- The value is the explicit absence of one. -/
  undefined : Bool := false
  temporary : Bool := false
  localOnly : Bool := false
  inject : Bool := false
  default : Bool := false
  state : Bool := false
  /-- A template marker without an expression. -/
  template : Bool := false
  tag : Option String := none
deriving Repr, BEq

namespace Info

/-- An info with an issue. -/
def ofMessage (message : String) : Info := { issue := some (.ofMessage message) }

/-- Both infos: flags add up, other values of the later one count. -/
def join (earlier later : Info) : Info where
  redirectPath := later.redirectPath <|> earlier.redirectPath
  replace := earlier.replace || later.replace
  merged := earlier.merged || later.merged
  preferred := earlier.preferred || later.preferred
  keyName := later.keyName <|> earlier.keyName
  issue := later.issue <|> earlier.issue
  failed := earlier.failed || later.failed
  undefined := earlier.undefined || later.undefined
  temporary := earlier.temporary || later.temporary
  localOnly := earlier.localOnly || later.localOnly
  inject := earlier.inject || later.inject
  default := earlier.default || later.default
  state := earlier.state || later.state
  template := earlier.template || later.template
  tag := later.tag <|> earlier.tag

/-- The info with the flag of a marker. -/
def addMarker (info : Info) : Marker → Info
  | .flag .temporary => { info with temporary := true }
  | .flag .localOnly => { info with localOnly := true }
  | .flag .inject => { info with inject := true }
  | .flag .default => { info with default := true }
  | .flag .state => { info with state := true }
  | .flag .template => { info with template := true }
  | .flag .tag => info
  | .tag name => { info with tag := some name }

/-- The info of markers. -/
def ofMarkers (markers : List Marker) : Info := markers.foldl addMarker {}

/-- The annotations of a node with the flags of the info. -/
def annotate (info : Info) (a : Annotations) : Annotations :=
  { a with
    temporary := a.temporary || info.temporary
    localOnly := a.localOnly || info.localOnly
    inject := a.inject || info.inject
    default := a.default || info.default
    state := a.state || info.state
    replace := a.replace || info.replace
    merged := a.merged || info.merged
    preferred := a.preferred || info.preferred
    redirectPath := info.redirectPath <|> a.redirectPath
    keyName := info.keyName <|> a.keyName
    tag := info.tag <|> a.tag }

end Info

/-- Why an expression fails. -/
inductive Failure where
  | notFound (name : String) (suggestions : List String)
  | unknownFunction (name : String) (suggestions : List String)
  | divisionByZero
  | overflow
  | operands (op lhs rhs : String)
  | concatenation (lhs rhs : String)
  | typeMismatch (expected found : String)
  | indexOutOfRange (index : Int) (length : Nat)
  | invalidSlice (length : Nat)
  | tooManyArguments (callee : String) (expected got : Nat)
  | missingArgument (name : String)
  | unknownParameter (name : String)
  | namedArgument (name : String)
  | maxDepthExceeded
  | stubNotFound (path : String)
  /-- A failure worded by a function or a control. -/
  | custom (message : String)
deriving Repr, DecidableEq

/-- The end of a message that proposes other names. -/
def didYouMean (names : List String) : String :=
  if names.isEmpty then "" else "; did you mean: " ++ ", ".intercalate names ++ "?"

/-- The message of a failure. -/
def Failure.message : Failure → String
  | .notFound name names => "'" ++ name ++ "' not found" ++ didYouMean names
  | .unknownFunction name names => "unknown function '" ++ name ++ "'" ++ didYouMean names
  | .divisionByZero => "division by zero"
  | .overflow => "integer overflow"
  | .operands op lhs rhs => "operator '" ++ op ++ "' cannot be applied to " ++ lhs ++ " and " ++ rhs
  | .concatenation lhs rhs => lhs ++ " and " ++ rhs ++ " cannot be concatenated"
  | .typeMismatch expected found => expected ++ " expected, found " ++ found
  | .indexOutOfRange index length =>
    "index " ++ toString index ++ " out of range for list of length " ++ toString length
  | .invalidSlice length => "invalid slice for list of length " ++ toString length
  | .tooManyArguments callee expected got =>
    callee ++ " takes " ++ toString expected ++ " arguments, got " ++ toString got
  | .missingArgument name => "missing argument '" ++ name ++ "'"
  | .unknownParameter name => "unknown parameter '" ++ name ++ "'"
  | .namedArgument name => "'" ++ name ++ "' does not accept named arguments"
  | .maxDepthExceeded => "maximum recursion depth exceeded"
  | .stubNotFound path => "'" ++ path ++ "' not found in any stub"
  | .custom message => message

/-- A value and what is noted on it. -/
structure Resolved where
  value : Value
  info : Info := {}

namespace Resolved

/-- A value with nothing to note. -/
def ofValue (value : Value) : Resolved := ⟨value, {}⟩

/-- The explicit absence of a value. -/
def undefined : Resolved := ⟨.nil, { undefined := true }⟩

end Resolved

/-- An evaluation without a value. -/
inductive Unresolved where
  /-- Something it depends on is not available yet. -/
  | pending (info : Info)
  /-- The expression failed. -/
  | error (info : Info)
deriving Repr

namespace Unresolved

/-- Pending with a message. -/
def pendingWith (message : String) : Unresolved := .pending (.ofMessage message)

/-- The outcome of a failure. -/
def ofFailure (failure : Failure) : Unresolved := .error (.ofMessage failure.message)

/-- What is noted. -/
def info : Unresolved → Info
  | .pending info => info
  | .error info => info

/-- The expression failed. -/
def isError : Unresolved → Bool
  | .pending _ => false
  | .error _ => true

/-- The message of the issue, empty if there is none. -/
def message (u : Unresolved) : String :=
  (u.info.issue.map Issue.message).getD ""

/-- The outcome with another info. -/
def withInfo (u : Unresolved) (info : Info) : Unresolved :=
  match u with
  | .pending _ => .pending info
  | .error _ => .error info

/-- The outcome under a new message, whose cause is the issue it had. -/
def context (u : Unresolved) (message : String) : Unresolved :=
  u.withInfo { u.info with issue := some (.withNested message u.info.issue.toList) }

end Unresolved

/-- One outcome for independent evaluations that did not resolve. It is an error if one of them is;
their issues are the causes of its message. -/
def aggregate (message : String) (failures : List Unresolved) (sequence : Bool) : Unresolved :=
  let info : Info :=
    { issue := some ⟨message, failures.filterMap (·.info.issue), sequence⟩
      failed := failures.any (·.info.failed) }
  if failures.any Unresolved.isError then .error info else .pending info

end Cascade
