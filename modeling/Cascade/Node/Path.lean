import Cascade.Node.Basic
import Cascade.Number.Range

/-!
# Paths

A path is a list of segments. A step into a map is a field name; a step into a list is an index
(`3`, `[3]`, `-1`, `[-1]`) or the identity of an entry, which is the value of its key field.

## Main definitions

* `Path.parseIndex?`, `Path.resolveIndex?`, `Path.sliceRange?`: indices.
* `Node.identity?`, `Node.entrySegment`: how a list entry is named.
* `Node.step?`, `Node.lookup?`, `Node.lookupKeyed?`: reading.
* `Node.insertAt?`: setting a field somewhere below the root.
-/

namespace Cascade

namespace Path

/-- The dotted form of a path. -/
def render (path : List String) : String := ".".intercalate path

/-- The inside of square brackets, or the text itself. -/
def unbracketed (cs : List Char) : List Char :=
  match cs with
  | '[' :: rest =>
    match rest.reverse with
    | ']' :: inner => inner.reverse
    | _ => cs
  | _ => cs

/-- The number of an index segment, which has 64 bits. -/
def parseIndex? (segment : String) : Option Int :=
  let inner := unbracketed segment.toList
  let (negative, digits) := match inner with
    | '-' :: digits => (true, digits)
    | digits => (false, digits)
  if digits.isEmpty || !digits.all Char.isDigit then none
  else
    let n : Int := naturalOfDigits digits
    let n := if negative then -n else n
    if FitsInt n then some n else none

/-- The position of an index in a list; negative indices count from its end. -/
def resolveIndex? (length : Nat) (index : Int) : Option Nat :=
  let resolved := if index < 0 then (length : Int) + index else index
  if 0 ≤ resolved ∧ resolved < length then some resolved.toNat else none

/-- The positions from a first to a last index, both included, as a half-open range. A missing bound
is the end of the list. -/
def sliceRange? (length : Nat) (start stop : Option Int) : Option (Nat × Nat) :=
  if length = 0 ∧ start.isNone ∧ stop.isNone then some (0, 0)
  else do
    let first ← resolveIndex? length (start.getD 0)
    let last ← resolveIndex? length (stop.getD (-1))
    if first ≤ last + 1 then some (first, last + 1) else none

/-- The segment of an index. -/
def indexSegment (index : Nat) : String := "[" ++ toString index ++ "]"

end Path

namespace Node

/-- The field that identifies the entries of a list. -/
def keyName (list : Node) (defaultKey : String) : String :=
  list.annotations.keyName.getD defaultKey

/-- The identity of a list entry: the string or int of its key field. -/
def identity? (entry : Node) (key : String) : Option String :=
  match entry.field? key with
  | some ⟨.string s, _, _⟩ => some s
  | some ⟨.int n, _, _⟩ => some (toString n.toInt)
  | _ => none

/-- The segment of a list entry: its identity, or its index. -/
def entrySegment (entry : Node) (index : Nat) (key : String) : String :=
  (entry.identity? key).getD (Path.indexSegment index)

/-- A step in which list entries are identified by a given field. -/
def stepBy? (node : Node) (segment key : String) : Option Node :=
  match node.value with
  | .map fields => Fields.find? fields segment
  | .list items =>
    match Path.parseIndex? segment with
    | some index => (Path.resolveIndex? items.length index).bind (items[·]?)
    | none => items.find? fun entry => entry.identity? key == some segment
  | _ => none

/-- A step from a node. -/
def step? (node : Node) (segment defaultKey : String) : Option Node :=
  node.stepBy? segment (node.keyName defaultKey)

/-- The node at a path. -/
def lookup? (root : Node) (path : List String) (defaultKey : String) : Option Node :=
  path.foldlM (fun node segment => node.step? segment defaultKey) root

theorem lookup?_cons {defaultKey segment : String} {root : Node} {path : List String} :
    root.lookup? (segment :: path) defaultKey =
      (root.step? segment defaultKey).bind (·.lookup? path defaultKey) := rfl

theorem lookup?_append {defaultKey : String} {root : Node} {path rest : List String} :
    root.lookup? (path ++ rest) defaultKey =
      (root.lookup? path defaultKey).bind (·.lookup? rest defaultKey) := by
  rw [lookup?, List.foldlM_append]
  rfl

/-- The node at a path whose list steps may carry a key field of their own, which counts more than
that of the list stepped through. -/
def lookupKeyed? (root : Node) (defaultKey : String) :
    List String → List (Option String) → Option Node
  | [], _ => some root
  | segment :: path, keys =>
    match root.stepBy? segment ((keys.head?.join).getD (root.keyName defaultKey)) with
    | some next => next.lookupKeyed? defaultKey path keys.tail
    | none => none

/-- The root with a field set below it, or none if the parent is missing or no map. Steps into lists
on the way must be indices. -/
def insertAt? (root : Node) (path : List String) (node : Node) : Option Node :=
  match path with
  | [] => none
  | [last] =>
    match root.value with
    | .map fields => some (root.withValue (.map (Fields.insert last node fields)))
    | _ => none
  | segment :: next :: rest =>
    match root.value with
    | .map fields => do
      let child ← Fields.find? fields segment
      let child ← child.insertAt? (next :: rest) node
      return root.withValue (.map (Fields.insert segment child fields))
    | .list items => do
      let position ← Path.resolveIndex? items.length (← Path.parseIndex? segment)
      let child ← items[position]?
      let child ← child.insertAt? (next :: rest) node
      return root.withValue (.list (items.set position child))
    | _ => none

end Node

end Cascade
