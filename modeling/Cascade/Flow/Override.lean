import Cascade.Evaluation.Binding
import Cascade.Evaluation.Outcome

/-!
# Stub overrides

Where a stub has a value for a node, the node becomes that value. Maps are overridden field by
field unless the stub's value is no map; everything else is overridden as a whole. Expressions
that merge or prefer decide themselves what to take from stubs and are never overridden.

## Main definitions

* `Node.overridden`, `stubOverride?`, `expressionOverride?`: the override of a single node.
* `seedOverrides`: the tree with all overrides, before anything is evaluated.
* `Node.expr?`, `Node.listDirective?`: the expressions of nodes and of merge directives.
-/

namespace Cascade

/-- The expression of a node, evaluated as one or still to be read. -/
def Node.expr? (node : Node) : Option Expr :=
  match node.value with
  | .expression e => some e
  | .string text =>
    match Embedded.classify text with
    | .expression e => some e
    | _ => none
  | _ => none

/-- The expression of a list entry that holds a directive and nothing else. -/
def Node.listDirective? (entry : Node) : Option Expr :=
  match entry.value with
  | .map [(key, directive)] => if key = directiveKey then directive.expr? else none
  | _ => none

/-- The key field of the entries of a list. -/
def Annotations.listKey (a : Annotations) (defaultKey : String) : String :=
  a.keyName.getD defaultKey

/-- The info of the markers that an expression has as written. -/
def Expr.staticInfo (e : Expr) : Info := .ofMarkers e.markers

/-- The stub value in place of a node. It stays as it is in later passes; that the node is temporary
or part of the state is kept. -/
def Node.overridden (node stub : Node) (temporary : Bool) : Node :=
  let annotations : Annotations :=
    { stub.annotations with
      merged := true
      temporary := stub.annotations.temporary || temporary
      state := stub.annotations.state || node.annotations.state }
  { stub with annotations := annotations.clearIssue }

section

variable (defaultKey : String)

/-- The override of a node that is no expression. -/
def stubOverride? (node : Node) (binding : Binding) : Option Node :=
  if node.annotations.blocksOverride then none
  else
    (binding.overrideValue? defaultKey).map fun stub =>
      node.overridden stub node.annotations.temporary

/-- The override of an expression. -/
def expressionOverride? (node : Node) (e : Expr) (binding : Binding) : Option Node :=
  if node.annotations.blocksOverride || e.containsMerge || e.isPreferred then none
  else (binding.overrideValue? defaultKey).map fun stub =>
    node.overridden stub (node.annotations.temporary || e.staticInfo.temporary)

/-- The override of a map as a whole: maps of stubs override it field by field. -/
def mapOverride? (node : Node) (binding : Binding) : Option Node :=
  if node.annotations.blocksOverride then none
  else
    match binding.overrideValue? defaultKey with
    | none | some ⟨.map _, _, _⟩ => none
    | some stub => some (node.overridden stub node.annotations.temporary)

/-! ### Seeding -/

/-- A template marker without an expression, which makes the map that carries it a template. -/
def Expr.isTemplateDirective (e : Expr) : Bool :=
  match e.ungrouped with
  | .marked markers none => markers.contains (.flag .template)
  | _ => false

/-- Under the directive, fields keep their own stub paths: it is a merge that neither redirects nor
replaces, or other markers than that of templates around one. -/
def Expr.keepsStubPaths : Expr → Bool
  | .grouped inner => inner.keepsStubPaths
  | .merge m => m.path.isNone && !m.replace
  | .marked markers none => !markers.contains (.flag .template)
  | .marked markers (some inner) => !markers.contains (.flag .template) && inner.keepsStubPaths
  | _ => false

/-- The shape of a map is still to be decided by a control, or by a directive that moves the stub
paths of its fields. -/
def shapeIsOpen (fields : Fields Node) : Bool :=
  (Fields.keys fields).any (fun key => (controlSuffix? key).any (· ≠ "")) ||
    ((Fields.find? fields directiveKey).bind Node.expr?).any fun e => !e.keepsStubPaths

mutual

/-- The tree with every node that a stub overrides replaced by the stub value. Nothing is evaluated;
subtrees whose shape is open are left to the passes. -/
def seedOverrides : Node → Binding → Node
  | node@⟨value, annotations, source⟩, binding =>
    if annotations.blocksOverride then node
    else
      match value with
      | .map fields =>
        match mapOverride? defaultKey node binding with
        | some result => result
        | none =>
          if shapeIsOpen fields then node
          else ⟨.map (seedFields fields binding), annotations, source⟩
      | .list items =>
        if items.any fun entry => entry.listDirective?.isSome then node
        else
          match stubOverride? defaultKey node binding with
          | some result => result
          | none =>
            ⟨.list (seedItems (annotations.listKey defaultKey) 0 items binding), annotations,
              source⟩
      | _ =>
        match node.expr? with
        | some e => (expressionOverride? defaultKey node e binding).getD node
        | none => (stubOverride? defaultKey node binding).getD node

/-- The fields of a map with overrides. -/
def seedFields : List (String × Node) → Binding → List (String × Node)
  | [], _ => []
  | (key, child) :: rest, binding =>
    (key, if key = directiveKey then child else seedOverrides child (binding.child key)) ::
      seedFields rest binding

/-- The items of a list, from an index on, with overrides. -/
def seedItems (key : String) (index : Nat) : List Node → Binding → List Node
  | [], _ => []
  | entry :: rest, binding =>
    seedOverrides entry (binding.entry (entry.entrySegment index key) key) ::
      seedItems key (index + 1) rest binding

end

end

end Cascade
