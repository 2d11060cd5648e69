import Cascade.Node.Basic
import Cascade.Text.Json

/-!
# Documents as JSON

Every JSON value is a document. A document is written back with its unresolved expressions, lambdas
and templates as the strings and maps that stand for them; only a float that is not finite cannot be
written.

## Main definitions

* `Node.ofJson`: the document of a value.
* `Node.toJson`: the value of a document, or the float that prevents it.
-/

namespace Cascade

/-- A float without a written form. -/
structure NonFinite where
  value : Float

/-- What is wrong with the float. -/
def NonFinite.detail (e : NonFinite) : String :=
  "non-finite float " ++ Notation.plain.write e.value

/-- The message about a document that holds the float. -/
def NonFinite.message (e : NonFinite) : String :=
  "cannot serialize document: " ++ e.detail

namespace Node

/-- How a template is written in the place of its directive. -/
def templateMark : String := "(( &template ))"

mutual

/-- The document of a JSON value. Strings are kept as they are. -/
def ofJson (source : String) : Json → Node
  | .null => .plain .nil source
  | .bool b => .plain (.bool b) source
  | .int n => .plain (.int n) source
  | .float x => .plain (.float x) source
  | .string s => .plain (.string s) source
  | .array items => .plain (.list (ofJsonItems source items)) source
  | .object members => .plain (.map (ofJsonMembers source members)) source

/-- The nodes of array items. -/
def ofJsonItems (source : String) : List Json → List Node
  | [] => []
  | item :: rest => ofJson source item :: ofJsonItems source rest

/-- The fields of object members. -/
def ofJsonMembers (source : String) : List (String × Json) → Fields Node
  | [] => []
  | (key, item) :: rest => (key, ofJson source item) :: ofJsonMembers source rest

end

mutual

/-- The JSON value of a document. -/
def toJson : Node → Except NonFinite Json
  | ⟨.nil, _, _⟩ => .ok .null
  | ⟨.bool b, _, _⟩ => .ok (.bool b)
  | ⟨.int n, _, _⟩ => .ok (.int n)
  | ⟨.float x, _, _⟩ => if Binary64.isFinite x then .ok (.float x) else .error ⟨x⟩
  | ⟨.string s, _, _⟩ => .ok (.string s)
  | ⟨.list items, _, _⟩ => Json.array <$> toJsonItems items
  | ⟨.map fields, _, _⟩ => Json.object <$> toJsonMembers fields
  | ⟨.expression e, _, _⟩ => .ok (.string e.embed)
  | ⟨.lambda l, _, _⟩ => .ok (.string l.expr.embed)
  | ⟨.template ⟨.map fields, _, _⟩, _, _⟩ => do
    return .object ((directiveKey, .string templateMark) :: (← toJsonMembers fields))
  | ⟨.template ⟨.expression e, _, _⟩, _, _⟩ =>
    .ok (.string ("(( &template (" ++ e.render ++ ") ))"))
  | ⟨.template body, _, _⟩ => toJson body

/-- The items of a list. -/
def toJsonItems : List Node → Except NonFinite (List Json)
  | [] => .ok []
  | node :: rest => do return (← toJson node) :: (← toJsonItems rest)

/-- The members of a map. -/
def toJsonMembers : List (String × Node) → Except NonFinite (List (String × Json))
  | [] => .ok []
  | (key, node) :: rest => do return (key, ← toJson node) :: (← toJsonMembers rest)

end

end Node

end Cascade
