import Cascade.Node.Path

/-!
# Results of a flow

A flowed tree still holds what was visible only while it flowed, escaped strings, and the nodes that
belong to the state document. This module takes the final document and the state document out of it.

## Main definitions

* `Node.strip?`: the tree without temporary and local nodes.
* `Node.unescape`: the tree with escaped strings in their literal form.
* `Node.extractState?`: the state nodes, with the maps and lists around them.
-/

namespace Cascade

mutual

/-- The tree without local nodes, and without temporary ones if those go too. -/
def Node.strip? (temporary : Bool) : Node → Option Node
  | ⟨value, annotations, source⟩ =>
    if annotations.localOnly || (temporary && annotations.temporary) then none
    else some ⟨Value.strip temporary value, annotations, source⟩

/-- The value without flagged nodes below it. -/
def Value.strip (temporary : Bool) : Value → Value
  | .list items => .list (stripItems temporary items)
  | .map fields => .map (stripFields temporary fields)
  | other => other

/-- The items that remain. -/
def stripItems (temporary : Bool) : List Node → List Node
  | [] => []
  | item :: rest => (item.strip? temporary).toList ++ stripItems temporary rest

/-- The fields that remain. -/
def stripFields (temporary : Bool) : List (String × Node) → List (String × Node)
  | [] => []
  | (key, child) :: rest =>
    ((child.strip? temporary).map fun child => (key, child)).toList ++ stripFields temporary rest

end

theorem stripItems_eq_filterMap (temporary : Bool) (items : List Node) :
    stripItems temporary items = items.filterMap (Node.strip? temporary) := by
  induction items with
  | nil => rw [stripItems, List.filterMap_nil]
  | cons item rest ih =>
    rw [stripItems, List.filterMap_cons, ih]
    cases item.strip? temporary <;> rfl

theorem stripFields_eq_filterMap (temporary : Bool) (fields : Fields Node) :
    stripFields temporary fields =
      fields.filterMap fun field => (field.2.strip? temporary).map fun child => (field.1, child) := by
  induction fields with
  | nil => rw [stripFields, List.filterMap_nil]
  | cons field rest ih =>
    rw [stripFields, List.filterMap_cons, ih]
    cases field.2.strip? temporary <;> rfl

mutual

/-- The tree with escaped strings in their literal form. -/
def Node.unescape : Node → Node
  | ⟨value, annotations, source⟩ => ⟨Value.unescape value, annotations, source⟩

/-- The value with escaped strings in their literal form. -/
def Value.unescape : Value → Value
  | .string text =>
    match Embedded.classify text with
    | .escaped literal => .string literal
    | _ => .string text
  | .list items => .list (unescapeItems items)
  | .map fields => .map (unescapeFields fields)
  | other => other

/-- The items with escaped strings in their literal form. -/
def unescapeItems : List Node → List Node
  | [] => []
  | item :: rest => item.unescape :: unescapeItems rest

/-- The fields with escaped strings in their literal form. -/
def unescapeFields : List (String × Node) → List (String × Node)
  | [] => []
  | (key, child) :: rest => (key, child.unescape) :: unescapeFields rest

end

theorem unescapeItems_eq_map (items : List Node) :
    unescapeItems items = items.map Node.unescape := by
  induction items with
  | nil => rw [unescapeItems, List.map_nil]
  | cons item rest ih => rw [unescapeItems, List.map_cons, ih]

theorem unescapeFields_eq_map (fields : Fields Node) :
    unescapeFields fields = fields.map fun field => (field.1, field.2.unescape) := by
  induction fields with
  | nil => rw [unescapeFields, List.map_nil]
  | cons field rest ih => rw [unescapeFields, List.map_cons, ih]

/-- The state of a list entry, which keeps the field that identifies the entry. -/
def keepIdentity (key : String) (entry state : Node) : Node :=
  match entry.field? key, state.value with
  | some identity, .map fields => state.withValue (.map (Fields.insertIfAbsent key identity fields))
  | _, _ => state

/-- The state of a list from that of its entries, in order: entries without state are left out of a
list whose entries all have an identity, and are nil in other lists. -/
def listState (keyed : Bool) (key : String) : List (Node × Option Node) → List Node
  | [] => []
  | (entry, some state) :: rest => keepIdentity key entry state :: listState keyed key rest
  | (entry, none) :: rest =>
    if keyed then listState keyed key rest else .plain .nil entry.source :: listState keyed key rest

/-- Entries up to the last one with state. -/
def upToLastState (states : List (Node × Option Node)) : List (Node × Option Node) :=
  (states.reverse.dropWhile fun s => s.2.isNone).reverse

section

variable (defaultKey : String)

mutual

/-- The state nodes of a tree with the maps and lists that lead to them. -/
def Node.extractState? : Node → Option Node
  | node@⟨value, annotations, source⟩ =>
    if annotations.state then some { node with annotations := { annotations with state := false } }
    else Value.extractState? source annotations.keyName value

/-- The state nodes below a value. -/
def Value.extractState? (source : String) (keyName : Option String) : Value → Option Node
  | .map fields =>
    match extractStateFields fields with
    | [] => none
    | states => some (.plain (.map states) source)
  | .list items =>
    let key := keyName.getD defaultKey
    let keyed := items.all fun item => (item.identity? key).isSome
    match upToLastState (extractStateItems items) with
    | [] => none
    | states => some ⟨.list (listState keyed key states), { keyName }, source⟩
  | _ => none

/-- The state of the fields that have one. -/
def extractStateFields : List (String × Node) → List (String × Node)
  | [] => []
  | (key, child) :: rest =>
    (child.extractState?.map fun state => (key, state)).toList ++ extractStateFields rest

/-- List items with their state. -/
def extractStateItems : List Node → List (Node × Option Node)
  | [] => []
  | item :: rest => (item, item.extractState?) :: extractStateItems rest

end

theorem extractStateFields_eq_filterMap (fields : Fields Node) :
    extractStateFields defaultKey fields =
      fields.filterMap fun field =>
        (field.2.extractState? defaultKey).map fun state => (field.1, state) := by
  induction fields with
  | nil => rw [extractStateFields, List.filterMap_nil]
  | cons field rest ih =>
    rw [extractStateFields, List.filterMap_cons, ih]
    cases field.2.extractState? defaultKey <;> rfl

theorem extractStateItems_eq_map (items : List Node) :
    extractStateItems defaultKey items =
      items.map fun item => (item, item.extractState? defaultKey) := by
  induction items with
  | nil => rw [extractStateItems, List.map_nil]
  | cons item rest ih => rw [extractStateItems, List.map_cons, ih]

end

end Cascade
