import Cascade.Proofs.Overlay

/-!
# The content of documents

Two documents have the same content if they differ in nothing but annotations and in the names of
the documents that their nodes came from. They are written alike then.

## Main definitions

* `Node.content`: the tree without annotations and names of documents.

## Main statements

* `Node.toJson_content`: a document is written as its content is.
* `Node.identity?_content`: a list entry is identified by its content.
-/

namespace Cascade

mutual

/-- The tree without its annotations and without the names of the documents it came from. -/
def Node.content : Node → Node
  | ⟨value, _, _⟩ => .plain (Value.content value) ""

/-- The value without annotations and names of documents in it. -/
def Value.content : Value → Value
  | .list items => .list (contentItems items)
  | .map fields => .map (contentFields fields)
  | other => other

/-- The content of items. -/
def contentItems : List Node → List Node
  | [] => []
  | item :: rest => item.content :: contentItems rest

/-- The content of fields. -/
def contentFields : List (String × Node) → List (String × Node)
  | [] => []
  | (key, child) :: rest => (key, child.content) :: contentFields rest

end

theorem contentItems_eq_map (items : List Node) : contentItems items = items.map Node.content := by
  induction items with
  | nil => rw [contentItems, List.map_nil]
  | cons item rest ih => rw [contentItems, List.map_cons, ih]

theorem contentFields_eq_map (fields : Fields Node) :
    contentFields fields = fields.map fun field => (field.1, field.2.content) := by
  induction fields with
  | nil => rw [contentFields, List.map_nil]
  | cons field rest ih => rw [contentFields, List.map_cons, ih]

@[simp] theorem Node.content_list (items : List Node) (annotations : Annotations)
    (source : String) : (Node.mk (.list items) annotations source).content =
      .plain (.list (items.map Node.content)) "" := by
  rw [content, Value.content, contentItems_eq_map]

@[simp] theorem Node.content_map (fields : Fields Node) (annotations : Annotations)
    (source : String) : (Node.mk (.map fields) annotations source).content =
      .plain (.map (fields.map fun field => (field.1, field.2.content))) "" := by
  rw [content, Value.content, contentFields_eq_map]

/-- Annotations belong to no content. -/
theorem Node.content_bare (node : Node) : node.bare.content = node.content := by
  induction node using Node.treeInduction with
  | list items annotations source ih =>
    rw [bare, Value.bare, bareItems_eq_map, content_list, content_list, List.map_map]
    exact congrArg (fun items => Node.plain (.list items) "") (List.map_congr_left ih)
  | map fields annotations source ih =>
    rw [bare, Value.bare, bareFields_eq_map, content_map, content_map, List.map_map]
    refine congrArg (fun fields => Node.plain (.map fields) "") ?_
    refine List.map_congr_left fun field member => ?_
    rw [Function.comp_apply, ih field member]
  | leaf value annotations source notList notMap =>
    cases value with
    | list items => exact absurd rfl (notList items)
    | map fields => exact absurd rfl (notMap fields)
    | _ => rfl

/-- Names of documents do not show in the value of a document. -/
theorem Node.toJson_content (node : Node) : node.content.toJson = node.toJson := by
  induction node using Node.treeInduction with
  | list items annotations source ih =>
    have items : toJsonItems (contentItems items) = toJsonItems items := by
      induction items with
      | nil => rw [contentItems]
      | cons item rest others =>
        rw [contentItems, toJsonItems, toJsonItems, ih item List.mem_cons_self,
          others fun item member => ih item (List.mem_cons_of_mem _ member)]
    rw [content, Value.content, plain, toJson, toJson, items]
  | map fields annotations source ih =>
    have fields : toJsonMembers (contentFields fields) = toJsonMembers fields := by
      induction fields with
      | nil => rw [contentFields]
      | cons field rest others =>
        rw [contentFields, toJsonMembers, toJsonMembers, ih field List.mem_cons_self,
          others fun field member => ih field (List.mem_cons_of_mem _ member)]
    rw [content, Value.content, plain, toJson, toJson, fields]
  | leaf value annotations source notList notMap =>
    cases value with
    | list items => exact absurd rfl (notList items)
    | map fields => exact absurd rfl (notMap fields)
    | template body =>
      obtain ⟨inner, _, _⟩ := body
      cases inner <;> rfl
    | _ => rfl

/-- An entry is identified by its content. -/
theorem Node.identity?_content (node : Node) (key : String) :
    node.content.identity? key = node.identity? key := by
  obtain ⟨value, annotations, source⟩ := node
  cases value with
  | map fields =>
    rw [content_map]
    simp only [identity?, field?, plain, Fields.find?_map fun _ => Node.content]
    cases Fields.find? fields key with
    | none => rfl
    | some child =>
      obtain ⟨value, _, _⟩ := child
      cases value <;> rfl
  | _ => rfl

end Cascade
