/-!
# Vocabulary

The fixed words of expressions and documents: keywords, annotation markers, calls that receive their
arguments unevaluated, controls with their options, and the names of value types. Each family is an
inductive type with one function that reads a word and one that writes it.

## Main definitions

* `isKeyword`, `isTypeName`, `directiveKey`, `defaultKeyName`, `documentTag`.
* `MarkerId`, `Intrinsic`, `ControlId` with `ofName?` and `name`.
* `OptionSpec`, `ControlId.options`: the option keys of the controls.
-/

namespace Cascade

/-- The key of the merge directive of a map or a list entry, and the start of every control key. -/
def directiveKey : String := "<<"

/-- The rest of a key that starts with the directive key. -/
def controlSuffix? (key : String) : Option String :=
  match key.toList with
  | '<' :: '<' :: rest => some (String.ofList rest)
  | _ => none

/-- The key of a control or an option. -/
def controlKey (name : String) : String := directiveKey ++ name

/-- The field that identifies list entries unless a list names another. -/
def defaultKeyName : String := "name"

/-- The tag that stands for the root of the outermost document. -/
def documentTag : String := "doc"

/-- Words that are never references. -/
def keywords : List String := ["true", "false", "nil", "merge", "auto", "lambda", "prefer"]

/-- True for a word that is never a reference. -/
def isKeyword (word : String) : Bool := keywords.contains word

/-- The types a value can be asked for. -/
def typeNames : List String :=
  ["nil", "bool", "int", "float", "string", "list", "map", "lambda", "template"]

/-- True for the name of a type. -/
def isTypeName (word : String) : Bool := typeNames.contains word

/-- Markers that annotate a node. -/
inductive MarkerId where
  | temporary
  | localOnly
  | inject
  | default
  | state
  | template
  | tag
deriving Repr, DecidableEq

namespace MarkerId

/-- The marker of a word, written without `&`. -/
def ofName? : String → Option MarkerId
  | "temporary" => some .temporary
  | "temp" => some .temporary
  | "local" => some .localOnly
  | "inject" => some .inject
  | "default" => some .default
  | "state" => some .state
  | "template" => some .template
  | "tag" => some .tag
  | _ => none

/-- The canonical word of a marker. -/
def name : MarkerId → String
  | .temporary => "temporary"
  | .localOnly => "local"
  | .inject => "inject"
  | .default => "default"
  | .state => "state"
  | .template => "template"
  | .tag => "tag"

@[simp] theorem ofName?_name (id : MarkerId) : ofName? id.name = some id := by
  cases id <;> rfl

end MarkerId

/-- Calls that receive their arguments unevaluated. -/
inductive Intrinsic where
  | merge
  | catchError
  | sync
  | valid
  | defined
  | require
  | stub
deriving Repr, DecidableEq

namespace Intrinsic

/-- The call of a name. -/
def ofName? : String → Option Intrinsic
  | "merge" => some .merge
  | "catch" => some .catchError
  | "sync" => some .sync
  | "valid" => some .valid
  | "defined" => some .defined
  | "require" => some .require
  | "stub" => some .stub
  | _ => none

/-- The name of a call. -/
def name : Intrinsic → String
  | .merge => "merge"
  | .catchError => "catch"
  | .sync => "sync"
  | .valid => "valid"
  | .defined => "defined"
  | .require => "require"
  | .stub => "stub"

@[simp] theorem ofName?_name (id : Intrinsic) : ofName? id.name = some id := by
  cases id <;> rfl

end Intrinsic

/-- The option key of a control. -/
structure OptionSpec where
  /-- The name, without the start of the key. -/
  name : String
  /-- The option is handed over as written, and flowed only if the control selects it. -/
  template : Bool
  /-- The control does not run without the option. -/
  required : Bool
deriving Repr, DecidableEq

/-- The controls every engine starts with. -/
inductive ControlId where
  | conditional
  | switch
  | type
  | loop
  | merge
deriving Repr, DecidableEq

namespace ControlId

/-- The control of a name. -/
def ofName? : String → Option ControlId
  | "if" => some .conditional
  | "switch" => some .switch
  | "type" => some .type
  | "for" => some .loop
  | "merge" => some .merge
  | _ => none

/-- The control of a name or a key. -/
def ofKey? (key : String) : Option ControlId :=
  ofName? ((controlSuffix? key).getD key)

/-- The name of a control, without the start of the key. -/
def name : ControlId → String
  | .conditional => "if"
  | .switch => "switch"
  | .type => "type"
  | .loop => "for"
  | .merge => "merge"

@[simp] theorem ofName?_name (id : ControlId) : ofName? id.name = some id := by
  cases id <;> rfl

/-- The options of a control. -/
def options : ControlId → List OptionSpec
  | .conditional => [⟨"then", true, false⟩, ⟨"else", true, false⟩]
  | .switch => [⟨"cases", true, false⟩, ⟨"default", true, false⟩]
  | .type => [⟨"cases", true, false⟩, ⟨"default", true, false⟩]
  | .loop => [⟨"do", true, true⟩, ⟨"mapkey", true, false⟩]
  | .merge => []

end ControlId

end Cascade
